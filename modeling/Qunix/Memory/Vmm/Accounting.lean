import Qunix.Arch.PagingFrame
import Qunix.Foundation.ExactCount
import Qunix.Memory.Vmm.Machine
import Qunix.Memory.Vmm.RegionCalls

/-! # Exact accounts of frames

The copy-on-write count of a frame is the number of pages that map it, and a frame
of the allocator is free exactly when no page maps it and it is no page table. The
loops of the memory calls keep both, as long as they map over no mapped page.
-/

namespace Qunix.Memory.Vmm

open Foundation Arch MemoryState Function Option

variable {allocator : FrameAllocator} {memory next : MemoryState allocator}
variable {roots : Nat → Prop} {pool : Nat → Prop} {root number frame : Nat}

/-- The accounts of the frames of a pool. -/
structure Accounted (memory : MemoryState allocator) (roots : Nat → Prop)
    (pool : Nat → Prop) : Prop where
  layout : memory.Layout roots
  counted : ∀ frame, Tally (memory.Maps roots frame) (memory.refcounts frame)
  /-- All pages that map a frame have the same number, each in its own address space. -/
  level : ∀ {frame left right}, memory.Maps roots frame left → memory.Maps roots frame right →
    left.2 = right.2
  kept : ∀ frame, pool frame → allocator.IsFree memory.frames frame ∨
    memory.IsTable roots frame ∨ ∃ holder, memory.Maps roots frame holder

def except (pool : Nat → Prop) (frame other : Nat) : Prop := pool other ∧ other ≠ frame

variable {entry : Option PageTableEntry} {holder : Nat × Nat}

section Maps

theorem maps_remaps (isRoot : roots root) (user : number < userPages)
    (remaps : Remaps memory next roots root number entry) : next.Maps roots frame holder ↔
      (holder = (root, number) ∧ ∃ value, entry = some value ∧ value.frame = frame) ∨
      (holder ≠ (root, number) ∧ memory.Maps roots frame holder) := by
  constructor
  · intro isHolder
    exact remaps.maps isHolder
  · intro cases
    rcases cases with ⟨same, value, isValue, sameFrame⟩ | ⟨different, isOther, otherUser, value,
      present, sameFrame⟩
    · subst same
      refine ⟨isRoot, user, value, ?_, sameFrame⟩
      rw [remaps.page isRoot user, if_pos ⟨rfl, rfl⟩, isValue]
    · refine ⟨isOther, otherUser, value, ?_, sameFrame⟩
      rw [remaps.page isOther otherUser, if_neg fun same => different (Prod.ext same.1 same.2)]
      exact present

theorem maps_grows (grows : Grows memory next roots) :
    next.Maps roots frame holder ↔ memory.Maps roots frame holder := by
  constructor
  · exact grows.maps
  · intro isHolder
    rcases isHolder with ⟨isRoot, user, entry, present, sameFrame⟩
    exact ⟨isRoot, user, entry, (grows.page isRoot user).trans present, sameFrame⟩

theorem maps_tables (tables : next.tables = memory.tables) :
    next.Maps roots frame = memory.Maps roots frame := by
  funext holder
  simp only [Maps, page, tables]

end Maps

namespace Accounted

section

variable (accounted : Accounted memory roots pool)

include accounted

theorem sound : memory.Sound roots where
  layout := accounted.layout
  counted := fun frame => (accounted.counted frame).heldBy

theorem transfer (frames : next.frames = memory.frames)
    (tables : next.tables = memory.tables) (refcounts : next.refcounts = memory.refcounts) :
    Accounted next roots pool where
  layout := accounted.layout.transfer frames tables
  counted := by
    intro frame
    rw [refcounts, maps_tables tables]
    exact accounted.counted frame
  level := by
    intro frame left right isLeft isRight
    rw [maps_tables tables] at isLeft isRight
    exact accounted.level isLeft isRight
  kept := by
    intro frame pooled
    rw [IsTable, frames, tables, maps_tables tables]
    exact accounted.kept frame pooled

/-- A holder is a page that is mapped, so its frame is neither free nor a table. -/
theorem free_iff (pooled : pool frame)
    (notTable : ¬memory.IsTable roots frame) :
    allocator.IsFree memory.frames frame ↔ ∀ holder, ¬memory.Maps roots frame holder := by
  constructor
  · intro free holder isHolder
    exact (accounted.layout.holder_inUse isHolder).notFree free
  · intro unmapped
    rcases accounted.kept frame pooled with free | isTable | ⟨holder, isHolder⟩
    · exact free
    · exact absurd isTable notTable
    · exact absurd isHolder (unmapped holder)

theorem congr (layout : next.Layout roots)
    (refcounts : next.refcounts = memory.refcounts)
    (same : ∀ frame holder, next.Maps roots frame holder ↔ memory.Maps roots frame holder)
    (conserves : Conserves memory next roots) : Accounted next roots pool where
  layout := layout
  counted := by
    intro frame
    rw [refcounts]
    exact (accounted.counted frame).congr (same frame)
  level := fun left right => accounted.level ((same _ _).mp left) ((same _ _).mp right)
  kept := by
    intro frame pooled
    rcases accounted.kept frame pooled with free | isTable | ⟨holder, isHolder⟩
    · exact (conserves.isFree frame free).imp_right .inl
    · exact .inr (.inl (conserves.isTable frame isTable))
    · exact .inr (.inr ⟨holder, (same _ _).mpr isHolder⟩)

theorem grow (grows : Grows memory next roots)
    (conserves : Conserves memory next roots) : Accounted next roots pool :=
  accounted.congr grows.layout grows.refcounts (fun _ _ => maps_grows grows) conserves

end

/-! ## Taking and giving back a frame -/

/-- A frame whose whereabouts are known belongs to the pool again. -/
theorem restore (accounted : Accounted memory roots (except pool frame))
    (known : allocator.IsFree memory.frames frame ∨ ∃ holder, memory.Maps roots frame holder) :
    Accounted memory roots pool where
  layout := accounted.layout
  counted := accounted.counted
  level := accounted.level
  kept := by
    intro other pooled
    by_cases same : other = frame
    · exact same ▸ known.imp_right .inr
    · exact accounted.kept other ⟨pooled, same⟩

theorem free (accounted : Accounted memory roots (except pool frame))
    (inUse : memory.InUse roots frame) (unmapped : ∀ holder, ¬memory.Maps roots frame holder) :
    Accounted (memory.freeFrame frame) roots pool := by
  have freed := freeFrame_spec accounted.layout inUse
    fun {other otherNumber entry} isOther user present same =>
      unmapped (other, otherNumber) ⟨isOther, user, entry, present, same⟩
  refine ⟨freed.1, ?_, ?_, ?_⟩
  · intro other
    exact accounted.counted other
  · intro other left right isLeft isRight
    exact accounted.level isLeft isRight
  · intro other pooled
    by_cases same : other = frame
    · exact .inl ((freed.2 other).mpr (.inr same))
    · rcases accounted.kept other ⟨pooled, same⟩ with isFree | elsewhere
      · exact .inl ((freed.2 other).mpr (.inl isFree))
      · exact .inr elsewhere

variable {taken : MemoryState allocator} {count : Nat} {page : Nat × Nat}

theorem take (accounted : Accounted memory roots pool)
    (allocated : memory.allocFrame = (some frame, taken)) :
    Accounted taken roots (except pool frame) ∧ taken.InUse roots frame ∧
      (∀ holder, ¬taken.Maps roots frame holder) ∧ taken.tables = memory.tables ∧
      taken.refcounts = memory.refcounts := by
  rcases allocFrame_some accounted.layout allocated with ⟨grows, inUse, wasFree, tables⟩
  have unmapped : ∀ holder, ¬taken.Maps roots frame holder := fun holder isHolder =>
    (accounted.layout.holder_inUse (grows.maps isHolder)).notFree wasFree
  have isFree := allocFrame_isFree accounted.layout.valid allocated
  refine ⟨⟨grows.layout, ?_, ?_, ?_⟩, inUse, unmapped, tables, grows.refcounts⟩
  · intro other
    rw [grows.refcounts, maps_tables tables]
    exact accounted.counted other
  · intro other left right isLeft isRight
    rw [maps_tables tables] at isLeft isRight
    exact accounted.level isLeft isRight
  · intro other pooled
    rw [IsTable, tables, maps_tables tables, isFree]
    exact (accounted.kept other pooled.1).imp_left fun free => ⟨free, pooled.2⟩

theorem starve (accounted : Accounted memory roots pool)
    (failed : memory.allocFrame = (none, taken)) : Accounted taken roots pool := by
  rcases allocFrame_none accounted.layout failed with ⟨grows, tables⟩
  have isFree : ∀ other, allocator.IsFree taken.frames other ↔
      allocator.IsFree memory.frames other := by
    rw [Prod.mk.injEq] at failed
    rw [← failed.2]
    exact (allocator.alloc_none accounted.layout.valid (Prod.ext failed.1 rfl)).2
  refine accounted.grow grows ⟨?_, ?_, ?_, ?_⟩
  · exact fun other free => .inl ((isFree other).mpr free)
  · intro other isTable
    rw [IsTable, tables]
    exact isTable
  · exact fun _ _ _ => by rw [tables]
  · exact fun _ _ _ _ => by rw [tables]

/-! ## One page -/

theorem of_remaps {counts : Nat → Nat} (isRoot : roots root) (user : number < userPages)
    (remaps : Remaps memory next roots root number entry)
    (conserves : Conserves memory next roots) (counted : ∀ frame, Tally (fun holder =>
      (holder = (root, number) ∧ entry.map PageTableEntry.frame = some frame) ∨
        (holder ≠ (root, number) ∧ memory.Maps roots frame holder)) (counts frame))
    (level : ∀ {frame left right}, memory.Maps roots frame left → memory.Maps roots frame right →
      left.2 = right.2) (joins : ∀ frame holder, entry.map PageTableEntry.frame = some frame →
      memory.Maps roots frame holder → holder.2 = number)
    (kept : ∀ frame, pool frame → entry.map PageTableEntry.frame = some frame ∨
      allocator.IsFree memory.frames frame ∨ memory.IsTable roots frame ∨
      ∃ holder, holder ≠ (root, number) ∧ memory.Maps roots frame holder) :
    Accounted { next with refcounts := counts } roots pool := by
  have maps : ∀ frame holder, next.Maps roots frame holder ↔
      (holder = (root, number) ∧ entry.map PageTableEntry.frame = some frame) ∨
        (holder ≠ (root, number) ∧ memory.Maps roots frame holder) := by
    intro frame holder
    rw [maps_remaps isRoot user remaps, map_eq_some_iff]
  refine ⟨remaps.layout.transfer rfl rfl, fun frame => (counted frame).congr (maps frame), ?_, ?_⟩
  · intro frame left right isLeft isRight
    rcases (maps _ _).mp isLeft with ⟨leftHere, isEntry⟩ | ⟨_, leftMaps⟩
    · rcases (maps _ _).mp isRight with ⟨rightHere, _⟩ | ⟨_, rightMaps⟩
      · rw [leftHere, rightHere]
      · rw [leftHere, joins frame right isEntry rightMaps]
    · rcases (maps _ _).mp isRight with ⟨rightHere, isEntry⟩ | ⟨_, rightMaps⟩
      · rw [rightHere, joins frame left isEntry leftMaps]
      · exact level leftMaps rightMaps
  · intro frame pooled
    rcases kept frame pooled with isEntry | free | isTable | ⟨holder, isHolder⟩
    · exact .inr (.inr ⟨_, (maps _ _).mpr (.inl ⟨rfl, isEntry⟩)⟩)
    · exact (conserves.isFree frame free).imp_right .inl
    · exact .inr (.inl (conserves.isTable frame isTable))
    · exact .inr (.inr ⟨holder, (maps _ _).mpr (.inr isHolder)⟩)

theorem elsewhere_iff (before : ¬memory.Maps roots frame page)
    (after : entry.map PageTableEntry.frame ≠ some frame) (holder : Nat × Nat) :
    (holder = page ∧ entry.map PageTableEntry.frame = some frame) ∨
      (holder ≠ page ∧ memory.Maps roots frame holder) ↔ memory.Maps roots frame holder := by
  by_cases here : holder = page
  · simp [here, before, after]
  · simp [here]

theorem not_maps_vacant (vacant : memory.page root number = none) (other : Nat) :
    ¬memory.Maps roots other (root, number) := by
  intro isHolder
  rcases isHolder with ⟨_, _, entry, present, _⟩
  rw [vacant] at present
  cases present

theorem kept_elsewhere (absent : ¬memory.Maps roots frame page)
    (known : allocator.IsFree memory.frames frame ∨ memory.IsTable roots frame ∨
      ∃ holder, memory.Maps roots frame holder) :
    allocator.IsFree memory.frames frame ∨ memory.IsTable roots frame ∨
      ∃ holder, holder ≠ page ∧ memory.Maps roots frame holder := by
  refine known.imp_right (Or.imp_right fun held => ?_)
  rcases held with ⟨holder, isHolder⟩
  exact ⟨holder, fun same => absent (same ▸ isHolder), isHolder⟩

theorem mapVacant {virt : Nat} {flags : PageFlags}
    (accounted : Accounted memory roots (except pool frame)) (isRoot : roots root)
    (user : pageNumber virt < userPages) (vacant : memory.page root (pageNumber virt) = none)
    (inUse : memory.InUse roots frame) (unmapped : ∀ holder, ¬memory.Maps roots frame holder)
    (mapped : memory.mapPage root virt frame flags = some next) :
    Accounted next roots pool ∧ next.refcounts frame = 0 ∧
      Remaps memory next roots root (pageNumber virt) (some ⟨frame, flags⟩) := by
  have remaps := mapPage_spec accounted.layout isRoot user inUse mapped
  have conserves := mapPage_conserves accounted.layout isRoot user mapped
  have zero : next.refcounts frame = 0 := by
    rw [remaps.refcounts]
    exact (accounted.counted frame).count_eq_zero unmapped
  refine ⟨of_remaps isRoot user remaps conserves ?_ accounted.level ?_ ?_, zero, remaps⟩
  · intro other
    by_cases same : frame = other
    · subst same
      rw [zero]
      apply @Tally.single _ _ (root, pageNumber virt)
      simp [unmapped]
    · rw [remaps.refcounts]
      exact (accounted.counted other).congr
        (elsewhere_iff (not_maps_vacant vacant other) (by simp [same]))
  · intro other holder isEntry isHolder
    cases isEntry
    exact absurd isHolder (unmapped holder)
  · intro other pooled
    by_cases same : frame = other
    · exact .inl (congrArg some same)
    · exact .inr (kept_elsewhere (not_maps_vacant vacant other)
        (accounted.kept other ⟨pooled, Ne.symm same⟩))

theorem not_maps_of_frame_ne {entry : PageTableEntry}
    (present : memory.page root number = some entry) {other : Nat}
    (different : other ≠ entry.frame) : ¬memory.Maps roots other (root, number) := by
  intro isHolder
  rcases isHolder with ⟨_, _, value, found, sameFrame⟩
  rw [present] at found
  exact different (Option.some.inj found ▸ sameFrame.symm)

theorem discardPage_refcounts (memory : MemoryState allocator) (root virt : Nat) :
    (Vmm.discardPage memory root virt).refcounts = memory.refcounts := by
  rw [Vmm.discardPage]
  split
  next => rfl
  rw [unmapPage]
  split <;> rfl

section Unmap

variable {virt : Nat} {entry : PageTableEntry} (accounted : Accounted memory roots pool)
  (isRoot : roots root) (user : pageNumber virt < userPages)

include accounted isRoot user

theorem reflag {flags : PageFlags} (present : memory.page root (pageNumber virt) = some entry)
    (mapped : memory.mapPage root virt entry.frame flags = some next) :
    Accounted next roots pool ∧ next.refcounts = memory.refcounts ∧
      (∀ frame holder, next.Maps roots frame holder ↔ memory.Maps roots frame holder) ∧
      Remaps memory next roots root (pageNumber virt) (some ⟨entry.frame, flags⟩) := by
  have inUse := accounted.layout.pageUsed isRoot user present
  have remaps := mapPage_spec accounted.layout isRoot user inUse mapped
  have conserves := mapPage_conserves accounted.layout isRoot user mapped
  have same : ∀ frame holder, next.Maps roots frame holder ↔ memory.Maps roots frame holder := by
    intro frame holder
    rw [maps_remaps isRoot user remaps]
    constructor
    · intro cases
      rcases cases with ⟨here, value, isValue, sameFrame⟩ | ⟨_, isHolder⟩
      · rw [← Option.some.inj isValue] at sameFrame
        exact here ▸ ⟨isRoot, user, entry, present, sameFrame⟩
      · exact isHolder
    · intro isHolder
      by_cases here : holder = (root, pageNumber virt)
      · subst here
        rcases isHolder with ⟨_, _, value, found, sameFrame⟩
        rw [present] at found
        rw [← Option.some.inj found] at sameFrame
        exact .inl ⟨rfl, _, rfl, sameFrame⟩
      · exact .inr ⟨here, isHolder⟩
  exact ⟨accounted.congr remaps.layout remaps.refcounts same conserves, remaps.refcounts, same,
    remaps⟩

theorem maps_unmapPage :
    (memory.unmapPage root virt).Maps roots frame holder ↔
      memory.Maps roots frame holder ∧ holder ≠ (root, pageNumber virt) := by
  rw [maps_remaps isRoot user (unmapPage_spec accounted.layout isRoot user)]
  constructor
  · intro cases
    rcases cases with ⟨_, _, never, _⟩ | ⟨different, isHolder⟩
    · cases never
    · exact ⟨isHolder, different⟩
  · exact fun both => .inr ⟨both.2, both.1⟩

theorem unmap (present : memory.page root (pageNumber virt) = some entry)
    (tally : Tally (fun holder => memory.Maps roots entry.frame holder ∧
      holder ≠ (root, pageNumber virt)) count) :
    Accounted { memory.unmapPage root virt with
      refcounts := Function.update (memory.unmapPage root virt).refcounts entry.frame count }
      roots (except pool entry.frame) := by
  have remaps := unmapPage_spec accounted.layout isRoot user
  have conserves := unmapPage_conserves accounted.layout isRoot user
  refine of_remaps isRoot user remaps conserves ?_ accounted.level (by simp) ?_
  · intro other
    by_cases same : other = entry.frame
    · subst same
      rw [update_self]
      exact tally.congr (by simp [and_comm])
    · rw [update_of_ne same, remaps.refcounts]
      exact (accounted.counted other).congr
        (elsewhere_iff (not_maps_of_frame_ne present same) (by simp))
  · intro other pooled
    exact .inr (kept_elsewhere (not_maps_of_frame_ne present pooled.2)
      (accounted.kept other pooled.1))

theorem releasePage :
    Accounted (Vmm.releasePage memory root virt) roots pool := by
  rw [Vmm.releasePage, translate_eq]
  cases present : memory.page root (pageNumber virt) with
  | none => exact accounted
  | some entry =>
    have remaps := unmapPage_spec accounted.layout isRoot user
    have inUse := remaps.inUse (accounted.layout.pageUsed isRoot user present)
    have isHolder : memory.Maps roots entry.frame (root, pageNumber virt) :=
      ⟨isRoot, user, entry, present, rfl⟩
    have lowered := accounted.unmap isRoot user present
      ((accounted.counted entry.frame).drop isHolder)
    rw [← remaps.refcounts] at lowered
    simp only [map_some, cowDec_eq inUse]
    split
    next last =>
      rw [beq_iff_eq, remaps.refcounts] at last
      refine lowered.free (inUse.transfer rfl rfl) ?_
      intro holder remaining
      have both := (accounted.maps_unmapPage isRoot user).mp remaining
      exact both.2 ((accounted.counted entry.frame).heldBy.unique (by omega) both.1 isHolder)
    next shared =>
      rw [beq_iff_eq, remaps.refcounts] at shared
      refine lowered.restore (.inr ?_)
      rcases (accounted.counted entry.frame).remaining (root, pageNumber virt) (by omega) with
        ⟨holder, other, different⟩
      exact ⟨holder, (accounted.maps_unmapPage isRoot user).mpr ⟨other, different⟩⟩

/-- The cleanup of `map_range` is exact for a frame that was never shared. -/
theorem discardPage (fresh : ∀ entry, memory.page root (pageNumber virt) = some entry →
      memory.refcounts entry.frame = 0) :
    Accounted (Vmm.discardPage memory root virt) roots pool := by
  -- Without a count to lower, both ways of giving up a page end in the same state.
  have released := accounted.releasePage isRoot user
  rw [Vmm.discardPage, translate_eq]
  rw [Vmm.releasePage, translate_eq] at released
  cases present : memory.page root (pageNumber virt) with
  | none => exact accounted
  | some entry =>
    have remaps := unmapPage_spec accounted.layout isRoot user
    have inUse := remaps.inUse (accounted.layout.pageUsed isRoot user present)
    have zero : (memory.unmapPage root virt).refcounts entry.frame = 0 := by
      rw [remaps.refcounts, fresh entry present]
    have same : Function.update (memory.unmapPage root virt).refcounts entry.frame 0 =
        (memory.unmapPage root virt).refcounts := by
      rw [update_eq_self_iff, zero]
    simp only [present, map_some, cowDec_eq inUse, zero, Nat.zero_sub, same] at released
    simp only [map_some, discardPage_eq]
    exact released

end Unmap

/-! ## Loops over pages -/

section Loops

variable {addr : Nat}

theorem releasePages (accounted : Accounted memory roots pool) (isRoot : roots root) :
    ∀ {count}, (∀ index, index < count → pageNumber (pageAddress addr index) < userPages) →
      Accounted (forPages Vmm.releasePage memory root addr count) roots pool := by
  intro count
  induction count with
  | zero => exact fun _ => accounted
  | succ count induction =>
    intro user
    have reached := induction fun index below => user index (Nat.lt_succ_of_lt below)
    exact reached.releasePage isRoot (user count (Nat.lt_succ_self count))

/-- The pages after `addr` that are mapped have frames that were never shared. -/
def FreshPages (memory : MemoryState allocator) (root addr count : Nat) : Prop :=
  ∀ index, index < count → ∀ entry,
    memory.page root (pageNumber (pageAddress addr index)) = some entry →
    memory.refcounts entry.frame = 0

theorem discardPages (accounted : Accounted memory roots pool) (isRoot : roots root)
    {total : Nat} (user : ∀ index, index < total → pageNumber (pageAddress addr index) < userPages)
    (fresh : FreshPages memory root addr total) :
    ∀ {count}, count ≤ total →
      Accounted (forPages Vmm.discardPage memory root addr count) roots pool ∧
      FreshPages (forPages Vmm.discardPage memory root addr count) root addr total := by
  intro count
  induction count with
  | zero => exact fun _ => ⟨accounted, fresh⟩
  | succ count induction =>
    intro below
    rcases induction (Nat.le_of_succ_le below) with ⟨reached, stillFresh⟩
    have pageUser := user count below
    have freshHere := stillFresh count below
    rw [forPages]
    generalize forPages Vmm.discardPage memory root addr count = middle at *
    have sole : ∀ entry, middle.page root (pageNumber (pageAddress addr count)) = some entry →
        middle.Sole roots root (pageNumber (pageAddress addr count)) entry.frame := by
      intro entry present holder isHolder
      refine (reached.counted entry.frame).heldBy.unique ?_ isHolder
        ⟨isRoot, pageUser, entry, present, rfl⟩
      rw [freshHere entry present]
      omega
    have drops := discardPage_spec reached.sound isRoot pageUser sole
    have refcounts := discardPage_refcounts middle root (pageAddress addr count)
    refine ⟨reached.discardPage isRoot pageUser freshHere, ?_⟩
    intro index inside entry present
    rw [drops.page isRoot (user index inside)] at present
    split at present
    next => cases present
    rw [refcounts]
    exact stillFresh index inside entry present

section MapFresh

variable {undo : MemoryState allocator → Nat → Nat → MemoryState allocator}
variable {content : MemoryState allocator → Nat → Nat → UInt8} {flags : PageFlags}
variable {ok : Bool} {total : Nat} (inside : addr + total * 4096 ≤ userTop)

include inside in
/-- One turn of the loop: a page that was not mapped gets a new frame. -/
theorem mapFreshPage {index frame : Nat} (accounted : Accounted memory roots pool)
    (isRoot : roots root) (below : index < total) (fresh : FreshPages memory root addr index)
    (vacant : ∀ position, index ≤ position → position < total →
      memory.page root (pageNumber (pageAddress addr position)) = none)
    (allocated : memory.allocFrame = (some frame, taken)) {bytes : Nat → UInt8}
    (mapped : (taken.fillFrame frame bytes).mapPage root (pageAddress addr index) frame flags =
      some next) :
    Accounted next roots pool ∧ FreshPages next root addr (index + 1) ∧
      ∀ position, index + 1 ≤ position → position < total →
        next.page root (pageNumber (pageAddress addr position)) = none := by
  have user := fun {position} => @pageNumber_user addr total inside position
  rcases accounted.take allocated with ⟨takenAccounted, inUse, unmapped, tables, refcounts⟩
  have filled : Accounted (taken.fillFrame frame bytes) roots (except pool frame) :=
    takenAccounted.transfer rfl rfl rfl
  have samePage : ∀ number, (taken.fillFrame frame bytes).page root number =
      memory.page root number := by
    intro number
    rw [page, page, ← tables]
    rfl
  rcases filled.mapVacant isRoot (user below)
    ((samePage _).trans (vacant index le_rfl below)) (inUse.transfer rfl rfl)
    unmapped mapped with ⟨reached, zero, remaps⟩
  have counts : next.refcounts = memory.refcounts := remaps.refcounts.trans refcounts
  have elsewhere : ∀ position, position < total → position ≠ index →
      next.page root (pageNumber (pageAddress addr position)) =
        memory.page root (pageNumber (pageAddress addr position)) := by
    intro position inRange different
    rw [remaps.page isRoot (user inRange), pageNumber_eq inside inRange,
      pageNumber_eq inside below, if_neg (by omega)]
    exact samePage _
  refine ⟨reached, ?_, ?_⟩
  · intro position inRange entry present
    rcases Nat.lt_succ_iff_lt_or_eq.mp inRange with earlier | last
    · rw [elsewhere position (lt_trans earlier below) (ne_of_lt earlier)] at present
      rw [counts]
      exact fresh position earlier entry present
    · subst last
      rw [remaps.page isRoot (user below), if_pos ⟨rfl, rfl⟩] at present
      rw [← Option.some.inj present]
      exact zero
  · intro position later inRange
    rw [elsewhere position inRange (by omega)]
    exact vacant position (Nat.le_of_succ_le later) inRange

include inside in
theorem mapFresh (isRoot : roots root)
    (undone : ∀ {reached : MemoryState allocator} {done}, done ≤ total →
      Accounted reached roots pool → FreshPages reached root addr done →
      Accounted (forPages undo reached root addr done) roots pool) :
    ∀ {count index : Nat} {memory : MemoryState allocator}, index + count = total →
      Accounted memory roots pool → FreshPages memory root addr index →
      (∀ position, index ≤ position → position < total →
        memory.page root (pageNumber (pageAddress addr position)) = none) →
      Vmm.mapFresh undo content root addr flags index count memory = some (ok, next) →
      Accounted next roots pool := by
  intro count
  induction count with
  | zero =>
    intro index memory _ accounted _ _ mapped
    cases mapped
    exact accounted
  | succ count induction =>
    intro index memory counts accounted fresh vacant mapped
    rw [Vmm.mapFresh] at mapped
    rcases allocated : memory.allocFrame with ⟨answer, taken⟩
    rw [allocated] at mapped
    cases answer with
    | none =>
      cases mapped
      refine undone (by omega) (accounted.starve allocated) ?_
      have tables := (allocFrame_none accounted.layout allocated).2
      have refcounts := (allocFrame_none accounted.layout allocated).1.refcounts
      intro position inRange entry present
      rw [page, tables] at present
      rw [refcounts]
      exact fresh position inRange entry present
    | some frame =>
      rcases bind_eq_some_iff.mp mapped with ⟨reached, page, rest⟩
      rcases accounted.mapFreshPage inside isRoot (by omega) fresh vacant allocated page with
        ⟨reachedAccounted, stillFresh, stillVacant⟩
      exact induction (by omega) reachedAccounted stillFresh stillVacant rest

end MapFresh

end Loops

theorem populate {undo : MemoryState allocator → Nat → Nat → MemoryState allocator}
    {content : MemoryState allocator → Nat → Nat → UInt8} {flags : PageFlags} {ok : Bool}
    {addr : Nat} (accounted : Accounted memory roots pool) (isRoot : roots root)
    (inside : addr + count * 4096 ≤ userTop)
    (undone : undo = Vmm.releasePage ∨ undo = Vmm.discardPage)
    (vacant : ∀ number, Touched addr count number → memory.page root number = none)
    (mapped : Vmm.mapFresh undo content root addr flags 0 count memory = some (ok, next)) :
    Accounted next roots pool := by
  have user := fun {position} => @pageNumber_user addr count inside position
  refine mapFresh inside isRoot ?_ (zero_add count) accounted ?_ ?_ mapped
  · intro reached done below reachedAccounted fresh
    have userDone : ∀ index, index < done → pageNumber (pageAddress addr index) < userPages :=
      fun index earlier => user (lt_of_lt_of_le earlier below)
    rcases undone with isRelease | isDiscard
    · rw [isRelease]
      exact reachedAccounted.releasePages isRoot userDone
    · rw [isDiscard]
      exact (reachedAccounted.discardPages isRoot userDone fresh le_rfl).1
  · intro index never
    exact absurd never (Nat.not_lt_zero index)
  · intro position _ below
    exact vacant _ ⟨position, below, rfl⟩

section Calls

variable {space nextSpace : AddressSpace} (accounted : Accounted memory roots pool)
  (isRoot : roots space.pml4)

include accounted isRoot

theorem cutPages {first : Nat} (inside : first + count * 4096 ≤ userTop) :
    Accounted (space.cutPages memory first count).2 roots pool := by
  rw [AddressSpace.cutPages_memory]
  exact accounted.releasePages isRoot fun index => pageNumber_user inside

theorem placement {pages addr : Nat} (inside : addr + pages * 4096 ≤ userTop)
    (placement : AddressSpace.Placement space memory pages addr nextSpace next) :
    Accounted next roots pool := by
  cases placement with
  | fixed => exact accounted.cutPages isRoot inside
  | hinted | bumped => exact accounted

theorem mmapFull {hint : Option Nat} {len mapFlags : Nat} {prot : Prot}
    {fileData : Option (List UInt8)} {answer : Option Nat} (tidy : space.Tidy)
    (backed : space.Backed memory) (clear : space.MmapClear memory hint len mapFlags)
    (effect : AddressSpace.MmapEffect space memory hint len prot mapFlags fileData answer
      nextSpace next) : Accounted next roots pool := by
  have populates : ∀ {addr targetSpace target ok},
      space.mmapPlace memory hint len mapFlags = (some addr, targetSpace, target) →
      AddressSpace.Placement space memory (pageCount len) addr targetSpace target →
      Vmm.mapFresh Vmm.releasePage (fileContent fileData) space.pml4 addr (protToFlags prot) 0
        (pageCount len) target = some (ok, next) → Accounted next roots pool := by
    intro addr targetSpace target ok place placed mapped
    have inside := clear.user addr (by rw [place])
    have apart := clear.clear addr (by rw [place])
    rw [place] at apart
    have evolves := placed.evolves accounted.sound isRoot tidy backed inside
    have aligned := placed.addr_aligned tidy.mmapBase
    refine (accounted.placement isRoot inside placed).populate isRoot inside (.inl rfl) ?_ mapped
    intro number touched
    rcases (touched_iff inside aligned).mp touched with ⟨lower, upper⟩
    have user : number < userPages := by
      rcases touched with ⟨index, below, same⟩
      exact same ▸ pageNumber_user inside below
    cases present : target.page space.pml4 number with
    | none => rfl
    | some entry =>
      rw [← placed.sameRoot] at present
      rcases evolves.backed.covered user present with ⟨region, member, covers⟩
      exact absurd covers (VmaRegion.not_covers_of_meets (apart region member) lower upper)
  cases effect with
  | refused => exact accounted
  | failed place placed populated | mapped place placed populated =>
    exact populates place placed populated

theorem setBrk {newBrk answer : Nat} (tidy : space.Tidy) (backed : space.Backed memory)
    (clear : space.BrkClear newBrk)
    (effect : AddressSpace.BrkEffect space memory newBrk answer nextSpace next) :
    Accounted next roots pool := by
  have newBelow := alignUp_le clear.user
  have oldAligned := alignUp_aligned tidy.brkBelow
  have populates : ∀ {count ok}, alignUp space.brk + count * 4096 = alignUp newBrk →
      mapRange memory space.pml4 (alignUp space.brk) count ⟨true, true, false, true⟩ =
        some (ok, next) → Accounted next roots pool := by
    intro count ok range mapped
    have inside := range.trans_le newBelow
    refine accounted.populate isRoot inside (.inr rfl) ?_ mapped
    intro number touched
    rcases (touched_iff inside oldAligned).mp touched with ⟨lower, upper⟩
    have user : number < userPages := by
      rcases touched with ⟨index, below, same⟩
      exact same ▸ pageNumber_user inside below
    cases present : memory.page space.pml4 number with
    | none => rfl
    | some entry =>
      rcases backed.covered user present with ⟨region, member, covers⟩
      cases kind : AddressSpace.isHeap region with
      | true =>
        have stop := (tidy.heap region member (AddressSpace.isHeap_iff.mp kind)).2.2.2.2
        rw [VmaRegion.Covers] at covers
        omega
      | false =>
        have start : space.brkStart ≤ number * 4096 := by
          have ordered := tidy.brkOrdered
          have oldEnd := alignUp_eq tidy.brkBelow
          omega
        exact absurd covers (VmaRegion.not_covers_of_meets (clear.clear region member kind)
          start (range ▸ upper))
  cases effect with
  | idle => exact accounted
  | shrunk lower smaller range =>
    refine accounted.cutPages isRoot ?_
    rw [range]
    exact alignUp_le tidy.brkBelow
  | failed larger range undone => exact populates range undone
  | grown larger range populated => exact populates range populated

end Calls

end Accounted

end Qunix.Memory.Vmm
