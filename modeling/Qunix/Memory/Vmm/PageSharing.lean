import Qunix.Arch.PagingInvariant
import Qunix.Foundation.SharedCount
import Qunix.Memory.Vmm.AddressSpace

/-! # Frames and the pages that map them

The copy-on-write counts bound the number of mappings of every frame. The page
loops of `mmap`, `munmap` and `brk` keep this, and they leave a page as it was,
unmapped, or mapped to a frame that no other page maps.
-/

namespace Qunix.Arch.MemoryState

open Foundation Memory

variable {allocator : FrameAllocator}

/-- The pages that map a frame, each as a root and a page number. -/
def Maps (self : MemoryState allocator) (roots : Nat → Prop) (frame : Nat)
    (holder : Nat × Nat) : Prop :=
  roots holder.1 ∧ holder.2 < userPages ∧
    ∃ entry, self.page holder.1 holder.2 = some entry ∧ entry.frame = frame

def Sole (self : MemoryState allocator) (roots : Nat → Prop) (root number frame : Nat) : Prop :=
  ∀ holder, self.Maps roots frame holder → holder = (root, number)

structure Sound (memory : MemoryState allocator) (roots : Nat → Prop) : Prop where
  layout : memory.Layout roots
  counted : ∀ frame, HeldBy (memory.Maps roots frame) (memory.refcounts frame)

section Maps

variable {before next : MemoryState allocator} {roots : Nat → Prop} {root number frame : Nat}
variable {entry : Option PageTableEntry}

variable {holder : Nat × Nat}

theorem Remaps.maps (remaps : Remaps before next roots root number entry)
    (isHolder : next.Maps roots frame holder) :
    (holder = (root, number) ∧ ∃ value, entry = some value ∧ value.frame = frame) ∨
    (holder ≠ (root, number) ∧ before.Maps roots frame holder) := by
  rcases isHolder with ⟨isRoot, user, value, present, sameFrame⟩
  rw [remaps.page isRoot user] at present
  split at present
  next same => exact .inl ⟨Prod.ext same.1 same.2, value, present, sameFrame⟩
  next different =>
    refine .inr ⟨?_, isRoot, user, value, present, sameFrame⟩
    intro same
    exact different ⟨congrArg Prod.fst same, congrArg Prod.snd same⟩

theorem Grows.maps (grows : Grows before next roots) (isHolder : next.Maps roots frame holder) :
    before.Maps roots frame holder := by
  rcases isHolder with ⟨isRoot, user, value, present, sameFrame⟩
  exact ⟨isRoot, user, value, (grows.page isRoot user).symm.trans present, sameFrame⟩

theorem Grows.sound (grows : Grows before next roots) (sound : before.Sound roots) :
    next.Sound roots where
  layout := grows.layout
  counted := by
    intro frame
    rw [grows.refcounts]
    exact (sound.counted frame).mono (fun _ isHolder => grows.maps isHolder) le_rfl

theorem Layout.holder_inUse (layout : before.Layout roots)
    (isHolder : before.Maps roots frame holder) : before.InUse roots frame := by
  rcases isHolder with ⟨isRoot, user, value, present, sameFrame⟩
  exact sameFrame ▸ layout.pageUsed isRoot user present

theorem Sound.others (sound : before.Sound roots) (page : Nat × Nat) (frame : Nat) :
    HeldBy (fun holder => before.Maps roots frame holder ∧ holder ≠ page)
      (before.refcounts frame) :=
  (sound.counted frame).mono (fun _ both => both.1) le_rfl

end Maps

end Qunix.Arch.MemoryState

namespace Qunix.Memory.Vmm

open Foundation Arch MemoryState

variable {allocator : FrameAllocator} {memory next : MemoryState allocator}
variable {roots : Nat → Prop} {root : Nat}

/-! ## One page -/

/-- The page with the number lost its mapping and nothing else changed. -/
structure Drops (before next : MemoryState allocator) (roots : Nat → Prop)
    (root number : Nat) : Prop where
  sound : next.Sound roots
  page : ∀ {other otherNumber}, roots other → otherNumber < userPages →
    next.page other otherNumber =
      if other = root ∧ otherNumber = number then none else before.page other otherNumber

variable {number frame virt : Nat} {entry : PageTableEntry} {before : MemoryState allocator}
  {undo : MemoryState allocator → Nat → Nat → MemoryState allocator}

theorem Drops.of_absent (sound : memory.Sound roots) (absent : memory.page root number = none) :
    Drops memory memory roots root number where
  sound := sound
  page := by
    intro other otherNumber _ _
    split
    next same => rw [same.1, same.2, absent]
    next => rfl

theorem maxFrames_eq : Vmm.maxFrames = Phys.maxFrames := by decide

theorem cowDec_eq (inUse : memory.InUse roots frame) :
    memory.cowDec frame = (memory.refcounts frame - 1,
      { memory with
        refcounts := Function.update memory.refcounts frame (memory.refcounts frame - 1) }) := by
  rw [cowDec, if_pos]
  exact inUse.below

theorem unmap_counted (sound : memory.Sound roots) (isRoot : roots root)
    (user : number < userPages) (present : memory.page root number = some entry)
    (sameFrame : entry.frame = frame) {unmapped : MemoryState allocator}
    (remaps : Remaps memory unmapped roots root number none) :
    Sound { unmapped with
      refcounts := Function.update unmapped.refcounts frame (unmapped.refcounts frame - 1) }
      roots where
  layout := remaps.layout.transfer rfl rfl
  counted := by
    intro other
    have fewer : ∀ holder, unmapped.Maps roots other holder →
        memory.Maps roots other holder ∧ holder ≠ (root, number) := by
      intro holder isHolder
      rcases remaps.maps isHolder with ⟨_, value, never, _⟩ | ⟨different, old⟩
      · cases never
      · exact ⟨old, different⟩
    change HeldBy (unmapped.Maps roots other)
      (Function.update unmapped.refcounts frame (unmapped.refcounts frame - 1) other)
    rw [remaps.refcounts]
    by_cases same : other = frame
    · subst same
      rw [Function.update_self]
      have isHolder : memory.Maps roots other (root, number) :=
        ⟨isRoot, user, entry, present, sameFrame⟩
      exact ((sound.counted other).drop isHolder).mono fewer le_rfl
    · rw [Function.update_of_ne same]
      exact (sound.counted other).mono (fun holder isHolder => (fewer holder isHolder).1)
        le_rfl

theorem unmapPage_unmapped
    (remaps : Remaps memory (memory.unmapPage root virt) roots root (pageNumber virt) none)
    (sole : memory.Sole roots root (pageNumber virt) frame) {other : Nat} {value : PageTableEntry}
    (isOther : roots other) (user : number < userPages)
    (found : (memory.unmapPage root virt).page other number = some value) :
    value.frame ≠ frame := by
  intro same
  have remaining : (memory.unmapPage root virt).Maps roots frame (other, number) :=
    ⟨isOther, user, value, found, same⟩
  rcases remaps.maps remaining with ⟨_, _, never, _⟩ | ⟨different, old⟩
  · cases never
  · exact different (sole _ old)

theorem releasePage_spec (sound : memory.Sound roots) (isRoot : roots root)
    (user : pageNumber virt < userPages) :
    Drops memory (releasePage memory root virt) roots root (pageNumber virt) := by
  have remaps := unmapPage_spec sound.layout isRoot user
  rw [releasePage, translate_eq]
  cases present : memory.page root (pageNumber virt) with
  | none => exact Drops.of_absent sound present
  | some entry =>
    have inUse := sound.layout.pageUsed isRoot user present
    have counted := unmap_counted sound isRoot user present rfl remaps
    have isHolder : memory.Maps roots entry.frame (root, pageNumber virt) :=
      ⟨isRoot, user, entry, present, rfl⟩
    simp only [Option.map_some, cowDec_eq (remaps.inUse inUse)]
    split
    next lastHolder =>
      -- A count of at most one means that this page was the only holder.
      have small : memory.refcounts entry.frame ≤ 1 := by
        rw [remaps.refcounts, beq_iff_eq] at lastHolder
        omega
      have freed := freeFrame_spec counted.layout ((remaps.inUse inUse).transfer rfl rfl)
        (unmapPage_unmapped remaps fun _ old =>
          (sound.counted entry.frame).unique small old isHolder)
      exact ⟨⟨freed.1, counted.counted⟩, remaps.page⟩
    next => exact ⟨counted, remaps.page⟩

theorem discardPage_eq (memory : MemoryState allocator) (root virt frame : Nat) :
    (memory.freeFrame frame).unmapPage root virt =
      (memory.unmapPage root virt).freeFrame frame := by
  have sameEntry : (memory.freeFrame frame).getEntry root virt = memory.getEntry root virt := rfl
  rw [unmapPage, unmapPage, sameEntry]
  cases memory.getEntry root virt <;> rfl

/-- The cleanup of `map_range` is sound for a frame that one page alone maps. -/
theorem discardPage_spec (sound : memory.Sound roots) (isRoot : roots root)
    (user : pageNumber virt < userPages)
    (sole : ∀ entry, memory.page root (pageNumber virt) = some entry →
      memory.Sole roots root (pageNumber virt) entry.frame) :
    Drops memory (discardPage memory root virt) roots root (pageNumber virt) := by
  have remaps := unmapPage_spec sound.layout isRoot user
  rw [discardPage, translate_eq]
  cases present : memory.page root (pageNumber virt) with
  | none => exact Drops.of_absent sound present
  | some entry =>
    have inUse := sound.layout.pageUsed isRoot user present
    have freed := freeFrame_spec remaps.layout (remaps.inUse inUse)
      (unmapPage_unmapped remaps (sole entry present))
    simp only [Option.map_some, discardPage_eq]
    refine ⟨⟨freed.1, ?_⟩, remaps.page⟩
    intro frame
    change HeldBy ((memory.unmapPage root virt).Maps roots frame)
      ((memory.unmapPage root virt).refcounts frame)
    rw [remaps.refcounts]
    apply (sound.counted frame).mono _ le_rfl
    intro holder isHolder
    rcases remaps.maps isHolder with ⟨_, _, never, _⟩ | ⟨_, old⟩
    · cases never
    · exact old

/-- The page with the number was mapped to a frame of its own. -/
structure Renews (before next : MemoryState allocator) (roots : Nat → Prop)
    (root number : Nat) (flags : PageFlags) : Prop where
  sound : next.Sound roots
  page : ∀ {other otherNumber}, roots other → otherNumber < userPages →
    ¬(other = root ∧ otherNumber = number) →
    next.page other otherNumber = before.page other otherNumber
  own : ∃ frame, next.page root number = some ⟨frame, flags⟩ ∧
    next.Sole roots root number frame

variable {flags : PageFlags} {addr count : Nat} {touched : Nat → Prop}
  {content : MemoryState allocator → Nat → Nat → UInt8} {ok : Bool}

theorem Renews.of_remaps {base : MemoryState allocator}
    (remaps : Remaps base next roots root number (some ⟨frame, flags⟩)) (isRoot : roots root)
    (user : number < userPages) (pages : ∀ {other otherNumber}, roots other →
      otherNumber < userPages → base.page other otherNumber = memory.page other otherNumber)
    (alone : ∀ holder, base.Maps roots frame holder → holder = (root, number))
    (counted : ∀ other, other ≠ frame → HeldBy (fun holder =>
      base.Maps roots other holder ∧ holder ≠ (root, number)) (base.refcounts other)) :
    Renews memory next roots root number flags := by
  have sole : next.Sole roots root number frame := by
    intro holder isHolder
    rcases remaps.maps isHolder with ⟨same, _⟩ | ⟨_, old⟩
    · exact same
    · exact alone holder old
  refine ⟨⟨remaps.layout, ?_⟩, ?_, frame, ?_, sole⟩
  · intro other
    by_cases same : other = frame
    · exact .single (same ▸ sole)
    rw [remaps.refcounts]
    apply (counted other same).mono _ le_rfl
    intro holder isHolder
    rcases remaps.maps isHolder with ⟨_, value, isValue, sameFrame⟩ | ⟨different, old⟩
    · rw [← Option.some.inj isValue] at sameFrame
      exact absurd sameFrame.symm same
    · exact ⟨old, different⟩
  · intro other otherNumber isOther otherUser different
    rw [remaps.page isOther otherUser, if_neg different, pages isOther otherUser]
  · rw [remaps.page isRoot user, if_pos ⟨rfl, rfl⟩]

/-- A page gets a frame of its own. Its old mapping need not be counted. -/
theorem mapFreshPage_spec {taken : MemoryState allocator} {content : Nat → UInt8}
    (layout : memory.Layout roots) (counted : ∀ other, HeldBy (fun holder =>
      memory.Maps roots other holder ∧ holder ≠ (root, pageNumber virt))
      (memory.refcounts other)) (isRoot : roots root) (user : pageNumber virt < userPages)
    (allocated : memory.allocFrame = (some frame, taken))
    (mapped : (taken.fillFrame frame content).mapPage root virt frame flags = some next) :
    Renews memory next roots root (pageNumber virt) flags := by
  rcases allocFrame_some layout allocated with ⟨grows, inUse, wasFree, _⟩
  have filledLayout : (taken.fillFrame frame content).Layout roots :=
    grows.layout.transfer rfl rfl
  have remaps := mapPage_spec filledLayout isRoot user (inUse.transfer rfl rfl) mapped
  apply Renews.of_remaps remaps isRoot user grows.page
  · intro holder isHolder
    exact absurd wasFree (layout.holder_inUse (grows.maps isHolder)).notFree
  · intro other _
    apply (counted other).mono
    · exact fun holder both => ⟨grows.maps both.1, both.2⟩
    · exact le_of_eq (congrFun grows.refcounts other).symm

/-! ## Loops over pages -/

/-- The page is one of the `count` pages after `addr`. -/
def Touched (addr count number : Nat) : Prop :=
  ∃ index, index < count ∧ pageNumber (pageAddress addr index) = number

theorem touched_succ :
    Touched addr (count + 1) number ↔
      Touched addr count number ∨ pageNumber (pageAddress addr count) = number := by
  exact Nat.exists_lt_succ_right

theorem not_touched_zero : ¬Touched addr 0 number := fun ⟨index, below, _⟩ =>
  Nat.not_lt_zero index below

/-- The touched pages of the root lost their mappings. -/
structure Unmaps (before next : MemoryState allocator) (roots : Nat → Prop) (root : Nat)
    (touched : Nat → Prop) : Prop where
  sound : next.Sound roots
  inside : ∀ {number}, number < userPages → touched number → next.page root number = none
  outside : ∀ {other number}, roots other → number < userPages →
    ¬(other = root ∧ touched number) → next.page other number = before.page other number

theorem Unmaps.maps (unmaps : Unmaps memory next roots root touched) {holder : Nat × Nat}
    (isHolder : next.Maps roots frame holder) :
    memory.Maps roots frame holder := by
  rcases isHolder with ⟨isRoot, user, entry, present, sameFrame⟩
  refine ⟨isRoot, user, entry, ?_, sameFrame⟩
  by_cases inside : holder.1 = root ∧ touched holder.2
  · rw [inside.1, unmaps.inside user inside.2] at present
    cases present
  · rw [← unmaps.outside isRoot user inside]
    exact present

theorem Unmaps.kept (isRoot : roots root) (unmaps : Unmaps memory next roots root touched)
    (user : number < userPages) (present : next.page root number = some entry) :
    memory.page root number = some entry ∧ ¬touched number := by
  by_cases inside : touched number
  · rw [unmaps.inside user inside] at present
    cases present
  · rw [unmaps.outside isRoot user fun both => inside both.2] at present
    exact ⟨present, inside⟩

theorem forPages_unmaps {body : MemoryState allocator → Nat → Nat → MemoryState allocator}
    (sound : memory.Sound roots) (isRoot : roots root) (count : Nat)
    (drops : ∀ index, index < count → ∀ {reached},
      Unmaps memory reached roots root (Touched addr index) →
      Drops reached (body reached root (pageAddress addr index)) roots root
        (pageNumber (pageAddress addr index))) :
    Unmaps memory (forPages body memory root addr count) roots root (Touched addr count) := by
  induction count with
  | zero =>
    exact ⟨sound, fun _ touched => absurd touched not_touched_zero, fun _ _ _ => rfl⟩
  | succ count induction =>
    have reached := induction fun index below => drops index (Nat.lt_succ_of_lt below)
    have last := drops count (Nat.lt_succ_self count) reached
    refine ⟨last.sound, ?_, ?_⟩
    · intro number user touched
      rw [forPages, last.page isRoot user]
      split
      next => rfl
      next different =>
        rcases touched_succ.mp touched with touched | same
        · exact reached.inside user touched
        · exact absurd ⟨rfl, same.symm⟩ different
    · intro other number isOther user outside
      rw [forPages, last.page isOther user, if_neg, reached.outside isOther user]
      · intro inside
        exact outside ⟨inside.1, touched_succ.mpr (.inl inside.2)⟩
      · intro same
        exact outside ⟨same.1, touched_succ.mpr (.inr same.2.symm)⟩

/-- The touched pages of the root were mapped to frames of their own. -/
structure Populates (before next : MemoryState allocator) (roots : Nat → Prop) (root : Nat)
    (touched : Nat → Prop) (flags : PageFlags) : Prop where
  sound : next.Sound roots
  inside : ∀ {number}, number < userPages → touched number →
    ∃ frame, next.page root number = some ⟨frame, flags⟩ ∧ next.Sole roots root number frame
  outside : ∀ {other number}, roots other → number < userPages →
    ¬(other = root ∧ touched number) → next.page other number = before.page other number

theorem Populates.refl (sound : memory.Sound roots) :
    Populates memory memory roots root (Touched addr 0) flags :=
  ⟨sound, fun _ touched => absurd touched not_touched_zero, fun _ _ _ => rfl⟩

theorem Populates.renew {index : Nat} (isRoot : roots root)
    (populates : Populates before memory roots root (Touched addr index) flags)
    (renews : Renews memory next roots root (pageNumber (pageAddress addr index)) flags) :
    Populates before next roots root (Touched addr (index + 1)) flags := by
  refine ⟨renews.sound, ?_, ?_⟩
  · intro number numberUser touched
    by_cases same : number = pageNumber (pageAddress addr index)
    · exact same ▸ renews.own
    rcases touched_succ.mp touched with touched | last
    · rcases populates.inside numberUser touched with ⟨frame, present, sole⟩
      have kept := renews.page isRoot numberUser fun both => same both.2
      refine ⟨frame, kept.trans present, ?_⟩
      intro holder isHolder
      rcases isHolder with ⟨isOther, otherUser, entry, found, sameFrame⟩
      by_cases new : holder.1 = root ∧ holder.2 = pageNumber (pageAddress addr index)
      · -- The new frame belongs to one page only, and `number` is another one.
        rcases renews.own with ⟨fresh, freshPresent, freshSole⟩
        rw [new.1, new.2, freshPresent] at found
        rw [← Option.some.inj found] at sameFrame
        have both := freshSole (root, number)
          ⟨isRoot, numberUser, ⟨frame, flags⟩, kept.trans present, sameFrame.symm⟩
        exact absurd (congrArg Prod.snd both) same
      · rw [renews.page isOther otherUser new] at found
        exact sole holder ⟨isOther, otherUser, entry, found, sameFrame⟩
    · exact absurd last.symm same
  · intro other number isOther numberUser outside
    rw [renews.page isOther numberUser, populates.outside isOther numberUser]
    · intro inside
      exact outside ⟨inside.1, touched_succ.mpr (.inl inside.2)⟩
    · intro same
      exact outside ⟨same.1, touched_succ.mpr (.inr same.2.symm)⟩

theorem Populates.grow (isRoot : roots root)
    (populates : Populates before memory roots root touched flags)
    (grows : Grows memory next roots) : Populates before next roots root touched flags := by
  refine ⟨grows.sound populates.sound, ?_, ?_⟩
  · intro number user inside
    rcases populates.inside user inside with ⟨frame, present, sole⟩
    exact ⟨frame, (grows.page isRoot user).trans present,
      fun holder isHolder => sole holder (grows.maps isHolder)⟩
  · intro other number isOther user outside
    rw [grows.page isOther user, populates.outside isOther user outside]

theorem mapFresh_spec (isRoot : roots root) (count : Nat) :
    ∀ (index : Nat) (memory : MemoryState allocator),
      (∀ position, position < index + count →
        pageNumber (pageAddress addr position) < userPages) →
      Populates before memory roots root (Touched addr index) flags →
      mapFresh undo content root addr flags index count memory = some (ok, next) →
      (ok = true ∧ Populates before next roots root (Touched addr (index + count)) flags) ∨
      (ok = false ∧ ∃ position reached, position ≤ index + count ∧
        Populates before reached roots root (Touched addr position) flags ∧
        next = forPages undo reached root addr position) := by
  induction count with
  | zero =>
    intro index memory _ populates mapped
    rw [mapFresh, Option.some.injEq, Prod.mk.injEq] at mapped
    exact .inl ⟨mapped.1.symm, mapped.2 ▸ populates⟩
  | succ count induction =>
    intro index memory user populates mapped
    rcases result : memory.allocFrame with ⟨answer, taken⟩
    cases answer with
    | none =>
      simp only [mapFresh, result, Option.some.injEq, Prod.mk.injEq] at mapped
      have grows := (allocFrame_none populates.sound.layout result).1
      exact .inr ⟨mapped.1.symm, index, taken, by omega, populates.grow isRoot grows, mapped.2.symm⟩
    | some frame =>
      simp only [mapFresh, result, Option.bind_eq_bind, Option.bind_eq_some_iff] at mapped
      rcases mapped with ⟨reached, one, rest⟩
      have renews := mapFreshPage_spec populates.sound.layout (populates.sound.others _) isRoot
        (user index (by omega)) result one
      have later := induction (index + 1) reached (fun position below =>
        user position (by omega)) (populates.renew isRoot renews) rest
      rwa [add_assoc, add_comm 1 count] at later

section Calls

variable (sound : memory.Sound roots) (isRoot : roots root)
  (user : ∀ index, index < count → pageNumber (pageAddress addr index) < userPages)

include sound isRoot user

theorem forPages_releasePage :
    Unmaps memory (forPages releasePage memory root addr count) roots root
      (Touched addr count) :=
  forPages_unmaps sound isRoot count fun index below _ reached =>
    releasePage_spec reached.sound isRoot (user index below)

theorem forPages_discardPage
    (sole : ∀ {number entry}, number < userPages → Touched addr count number →
      memory.page root number = some entry → memory.Sole roots root number entry.frame) :
    Unmaps memory (forPages discardPage memory root addr count) roots root
      (Touched addr count) := by
  apply forPages_unmaps sound isRoot count
  intro index below reached unmaps
  apply discardPage_spec unmaps.sound isRoot (user index below)
  intro entry present holder isHolder
  have before := (unmaps.kept isRoot (user index below) present).1
  exact sole (user index below) ⟨index, below, rfl⟩ before holder (unmaps.maps isHolder)

theorem mapFresh_unmaps (undone : ∀ {reached done}, done ≤ count →
      Populates memory reached roots root (Touched addr done) flags →
      Unmaps reached (forPages undo reached root addr done) roots root (Touched addr done))
    (mapped : mapFresh undo content root addr flags 0 count memory = some (ok, next)) :
    (ok = true ∧ Populates memory next roots root (Touched addr count) flags) ∨
    (ok = false ∧ ∃ done, done ≤ count ∧
      Unmaps memory next roots root (Touched addr done)) := by
  rw [← zero_add count] at user
  rcases mapFresh_spec isRoot count 0 memory user (.refl sound) mapped with
    ⟨isOk, populates⟩ | ⟨failed, done, reached, enough, populates, nextEq⟩
  · rw [zero_add] at populates
    exact .inl ⟨isOk, populates⟩
  rw [zero_add] at enough
  have unmaps := undone enough populates
  rw [← nextEq] at unmaps
  exact .inr ⟨failed, done, enough, unmaps.sound, unmaps.inside,
    fun isOther otherUser outside => (unmaps.outside isOther otherUser outside).trans
      (populates.outside isOther otherUser outside)⟩

theorem mapRange_spec (mapped : mapRange memory root addr count flags = some (ok, next)) :
    (ok = true ∧ Populates memory next roots root (Touched addr count) flags) ∨
    (ok = false ∧ ∃ done, done ≤ count ∧
      Unmaps memory next roots root (Touched addr done)) := by
  apply mapFresh_unmaps sound isRoot user _ mapped
  intro reached done enough populates
  apply forPages_discardPage populates.sound isRoot
  · intro index below
    exact user index (lt_of_lt_of_le below enough)
  · intro number entry numberUser touched present
    rcases populates.inside numberUser touched with ⟨frame, found, sole⟩
    rw [found] at present
    rw [← Option.some.inj present]
    exact sole

end Calls

/-! ## Changes of one address space -/

/-- Only pages of the root changed, and each that did is unmapped or has a
frame of its own. -/
structure Refreshes (before next : MemoryState allocator) (roots : Nat → Prop)
    (root : Nat) : Prop where
  sound : next.Sound roots
  elsewhere : ∀ {other number}, roots other → number < userPages → other ≠ root →
    next.page other number = before.page other number
  here : ∀ {number entry}, number < userPages → next.page root number = some entry →
    before.page root number = some entry ∨ next.Sole roots root number entry.frame

namespace Refreshes

variable {first second third : MemoryState allocator}

theorem refl (sound : memory.Sound roots) : Refreshes memory memory roots root :=
  ⟨sound, fun _ _ _ => rfl, fun _ present => .inl present⟩

theorem sole (refreshes : Refreshes memory next roots root) (user : number < userPages)
    (present : next.page root number = some entry)
    (sole : memory.Sole roots root number entry.frame) :
    next.Sole roots root number entry.frame := by
  intro holder isHolder
  rcases isHolder with ⟨isOther, otherUser, value, found, sameFrame⟩
  by_cases same : holder.1 = root
  · rw [same] at found isOther
    have sameNumber : holder.2 = number := by
      rcases refreshes.here otherUser found with old | alone
      · have reached := sole (root, holder.2) ⟨isOther, otherUser, value, old, sameFrame⟩
        exact (Prod.mk.inj reached).2
      · rw [sameFrame] at alone
        have reached := alone (root, number) ⟨isOther, user, entry, present, rfl⟩
        exact (Prod.mk.inj reached).2.symm
    exact Prod.ext same sameNumber
  · rw [refreshes.elsewhere isOther otherUser same] at found
    exact sole holder ⟨isOther, otherUser, value, found, sameFrame⟩

theorem trans (left : Refreshes first second roots root)
    (right : Refreshes second third roots root) : Refreshes first third roots root where
  sound := right.sound
  elsewhere := fun isOther user different =>
    (right.elsewhere isOther user different).trans (left.elsewhere isOther user different)
  here := by
    intro number entry user present
    rcases right.here user present with kept | alone
    · rcases left.here user kept with kept | alone
      · exact .inl kept
      · exact .inr (right.sole user present alone)
    · exact .inr alone

end Refreshes

section

variable (isRoot : roots root)
include isRoot

theorem Unmaps.refreshes
    (unmaps : Unmaps memory next roots root touched) : Refreshes memory next roots root where
  sound := unmaps.sound
  elsewhere := fun isOther user different =>
    unmaps.outside isOther user fun inside => different inside.1
  here := fun user present => .inl (unmaps.kept isRoot user present).1

theorem Populates.origin
    (populates : Populates memory next roots root touched flags) (user : number < userPages)
    (present : next.page root number = some entry) :
    (touched number ∧ entry.flags = flags ∧ next.Sole roots root number entry.frame) ∨
      memory.page root number = some entry := by
  by_cases inside : touched number
  · rcases populates.inside user inside with ⟨frame, found, sole⟩
    rw [found] at present
    rw [← Option.some.inj present]
    exact .inl ⟨inside, rfl, sole⟩
  · rw [populates.outside isRoot user fun both => inside both.2] at present
    exact .inr present

theorem Populates.refreshes (populates : Populates memory next roots root touched flags) :
    Refreshes memory next roots root where
  sound := populates.sound
  elsewhere := fun isOther user different =>
    populates.outside isOther user fun inside => different inside.1
  here := fun user present => (populates.origin isRoot user present).symm.imp_right (·.2.2)

theorem Renews.refreshes
    (renews : Renews memory next roots root number flags) : Refreshes memory next roots root where
  sound := renews.sound
  elsewhere := fun isOther user different =>
    renews.page isOther user fun same => different same.1
  here := by
    intro otherNumber entry user present
    by_cases same : otherNumber = number
    · rcases renews.own with ⟨frame, found, sole⟩
      rw [same, found] at present
      rw [← Option.some.inj present, same]
      exact .inr sole
    · rw [renews.page isRoot user fun both => same both.2] at present
      exact .inl present

end

end Qunix.Memory.Vmm
