import Qunix.Memory.Vmm.SpaceInvariant

/-! # Write faults and fork

A write fault gives the faulting page a frame of its own. A fork makes the child
share the frames of the parent, and leaves no private page writable in either.
-/

namespace Qunix.Memory.Vmm.AddressSpace

open Foundation Arch MemoryState VmaRegion

variable {allocator : FrameAllocator} {memory next : MemoryState allocator}
variable {space : AddressSpace} {roots : Nat → Prop}

/-! ## Write faults -/

theorem pageNumber_alignDown {addr : Nat} (user : addr < userTop) :
    pageNumber (alignDown addr) = addr / 4096 ∧ addr / 4096 < userPages := by
  rw [userTop_eq] at user
  rw [pageNumber, alignDown, pageSize_eq, userPages_eq]
  omega

variable {flags : PageFlags} {faultAddr : Nat}

variable {number root frame virt : Nat}

theorem Renews.evolves (isRoot : roots space.pml4) (tidy : space.Tidy)
    (backed : Backed memory space) (renews : Renews memory next roots space.pml4 number flags)
    (covered : ∃ region ∈ space.regions, region.Covers number ∧ region.prot.write = true) :
    Evolves memory space next space roots := by
  rcases covered with ⟨region, member, covers, writable⟩
  have kept : ∀ {other entry}, other < userPages → other ≠ number →
      next.page space.pml4 other = some entry → memory.page space.pml4 other = some entry := by
    intro other entry user different present
    rwa [renews.page isRoot user fun same => different same.2] at present
  refine ⟨renews.sound, rfl, tidy, ⟨?_, ?_⟩, (renews.refreshes isRoot).elsewhere, ?_⟩
  · intro other entry user present
    by_cases same : other = number
    · exact ⟨region, member, same ▸ covers⟩
    · exact backed.covered user (kept user same present)
  · intro other entry user present allows
    by_cases same : other = number
    · exact ⟨region, member, same ▸ covers, writable⟩
    · exact backed.writable user (kept user same present) allows
  · intro other entry user present
    rcases (renews.refreshes isRoot).here user present with old | sole
    · exact .inl ⟨old, Iff.rfl⟩
    · exact .inr sole

def uncount (memory : MemoryState allocator) (frame : Nat) : MemoryState allocator :=
  { memory with
    refcounts := Function.update memory.refcounts frame (memory.refcounts frame - 1) }

theorem uncount_layout (sound : memory.Sound roots) (frame : Nat) :
    (uncount memory frame).Layout roots :=
  sound.layout.transfer rfl rfl

variable {entry : PageTableEntry}

theorem takeOver_spec (sound : memory.Sound roots) (isRoot : roots root)
    (numberEq : pageNumber virt = number) (user : number < userPages)
    (present : memory.page root number = some entry) (last : memory.refcounts entry.frame - 1 = 0)
    (mapped : (uncount memory entry.frame).mapPage root virt entry.frame flags = some next) :
    Renews memory next roots root number flags := by
  subst numberEq
  have inUse : (uncount memory entry.frame).InUse roots entry.frame :=
    (sound.layout.pageUsed isRoot user present).transfer rfl rfl
  have remaps := mapPage_spec (uncount_layout sound entry.frame) isRoot user inUse mapped
  have isHolder : memory.Maps roots entry.frame (root, pageNumber virt) :=
    ⟨isRoot, user, entry, present, rfl⟩
  refine Renews.of_remaps remaps isRoot user (fun _ _ => rfl) ?_ ?_
  · intro holder old
    exact (sound.counted entry.frame).unique (by omega) old isHolder
  · intro other same
    rw [uncount]
    simp only [Function.update_of_ne same]
    exact sound.others _ other

theorem copy_spec {copy : Nat} {content : Nat → UInt8} {taken : MemoryState allocator}
    (sound : memory.Sound roots) (isRoot : roots root) (numberEq : pageNumber virt = number)
    (user : number < userPages) (present : memory.page root number = some entry)
    (allocated : (uncount memory entry.frame).allocFrame = (some copy, taken))
    (mapped : (taken.fillFrame copy content).mapPage root virt copy flags = some next) :
    Renews memory next roots root number flags := by
  subst numberEq
  have isHolder : memory.Maps roots entry.frame (root, pageNumber virt) :=
    ⟨isRoot, user, entry, present, rfl⟩
  have counted : ∀ other, HeldBy (fun holder =>
      (uncount memory entry.frame).Maps roots other holder ∧ holder ≠ (root, pageNumber virt))
      ((uncount memory entry.frame).refcounts other) := by
    intro other
    by_cases same : other = entry.frame
    · rw [same]
      simp only [uncount, Function.update_self]
      exact (sound.counted entry.frame).drop isHolder
    · simp only [uncount, Function.update_of_ne same]
      exact sound.others _ other
  have renews := mapFreshPage_spec (uncount_layout sound entry.frame) counted isRoot user
    allocated mapped
  exact ⟨renews.sound, renews.page, renews.own⟩

/-- The flags a resolved write fault gives to the page. -/
def faultFlags (space : AddressSpace) (faultAddr : Nat) : PageFlags :=
  protToFlags { ((space.findRegion faultAddr).map VmaRegion.prot).getD ⟨true, true, false⟩ with
    write := true }

/-- The write fault is taken for a copy-on-write fault. -/
def CowFault (space : AddressSpace) (entry : PageTableEntry) (faultAddr : Nat) : Prop :=
  entry.flags.cow = true ∨ ∃ region, space.findRegion faultAddr = some region ∧ region.cow = true

/-- What a write fault comes to. -/
inductive FaultEffect (space : AddressSpace) (memory : MemoryState allocator) (faultAddr : Nat) :
    Bool → MemoryState allocator → Prop
  | ignored : FaultEffect space memory faultAddr false memory
  | takenOver {entry : PageTableEntry} {next : MemoryState allocator}
      (present : memory.page space.pml4 (faultAddr / 4096) = some entry)
      (isCow : space.CowFault entry faultAddr) (last : memory.refcounts entry.frame - 1 = 0)
      (mapped : (uncount memory entry.frame).mapPage space.pml4 (alignDown faultAddr) entry.frame
        (space.faultFlags faultAddr) = some next) :
      FaultEffect space memory faultAddr true next
  | starved {entry : PageTableEntry} {taken : MemoryState allocator}
      (present : memory.page space.pml4 (faultAddr / 4096) = some entry)
      (isCow : space.CowFault entry faultAddr) (shared : ¬memory.refcounts entry.frame - 1 = 0)
      (failed : (uncount memory entry.frame).allocFrame = (none, taken)) :
      FaultEffect space memory faultAddr false taken
  | copied {entry : PageTableEntry} {copy : Nat} {taken next : MemoryState allocator}
      (present : memory.page space.pml4 (faultAddr / 4096) = some entry)
      (isCow : space.CowFault entry faultAddr) (shared : ¬memory.refcounts entry.frame - 1 = 0)
      (allocated : (uncount memory entry.frame).allocFrame = (some copy, taken))
      (mapped : (taken.fillFrame copy (taken.bytes entry.frame)).mapPage space.pml4
        (alignDown faultAddr) copy (space.faultFlags faultAddr) = some next) :
      FaultEffect space memory faultAddr true next

theorem handleCowFault_effect {handled : Bool} (layout : memory.Layout roots)
    (isRoot : roots space.pml4) (user : faultAddr < userTop)
    (called : space.handleCowFault memory faultAddr = some (handled, next)) :
    FaultEffect space memory faultAddr handled next := by
  rcases pageNumber_alignDown user with ⟨numberEq, pageUser⟩
  simp only [handleCowFault, translate_eq, getFlags_eq, numberEq] at called
  cases present : memory.page space.pml4 (faultAddr / 4096) with
  | none =>
    rw [present] at called
    cases called
    exact .ignored
  | some entry =>
    rw [present] at called
    have inUse := layout.pageUsed isRoot pageUser present
    simp only [Option.map_some, Option.getD_some, cowDec_eq inUse] at called
    split at called
    next =>
      cases called
      exact .ignored
    next marked =>
      have isCow : space.CowFault entry faultAddr := by
        rw [Bool.and_eq_true, not_and_or, Bool.not_eq_true, Bool.not_eq_true,
          Bool.not_eq_false'] at marked
        refine marked.imp_right ?_
        intro regionCow
        cases found : space.findRegion faultAddr with
        | none => simp [found] at regionCow
        | some region => exact ⟨region, rfl, by simpa [found] using regionCow⟩
      split at called
      next last =>
        rcases Option.bind_eq_some_iff.mp called with ⟨reached, mapped, finished⟩
        cases finished
        exact .takenOver present isCow (beq_iff_eq.mp last) mapped
      next shared =>
        rw [beq_iff_eq] at shared
        rcases allocated : (uncount memory entry.frame).allocFrame with ⟨answer, taken⟩
        have sameAllocation := allocated
        rw [uncount] at sameAllocation
        rw [sameAllocation] at called
        cases answer with
        | none =>
          cases called
          exact .starved present isCow shared allocated
        | some copy =>
          rcases Option.bind_eq_some_iff.mp called with ⟨reached, mapped, finished⟩
          cases finished
          exact .copied present isCow shared allocated mapped

/-- A fault that is not a copy-on-write fault is not the kernel's to resolve. -/
theorem handleCowFault_ignored (user : faultAddr < userTop)
    (notCow : ∀ entry, memory.page space.pml4 (faultAddr / 4096) = some entry →
      ¬space.CowFault entry faultAddr) :
    space.handleCowFault memory faultAddr = some (false, memory) := by
  simp only [handleCowFault, translate_eq, getFlags_eq, (pageNumber_alignDown user).1]
  cases present : memory.page space.pml4 (faultAddr / 4096) with
  | none => rfl
  | some entry =>
    have unmarked := notCow entry present
    rw [CowFault, not_or] at unmarked
    have noRegion : ((space.findRegion faultAddr).map VmaRegion.cow).getD false = false := by
      cases found : space.findRegion faultAddr with
      | none => rfl
      | some region =>
        rw [Option.map_some]
        exact Bool.eq_false_iff.mpr fun isCow => unmarked.2 ⟨region, found, isCow⟩
    simp [unmarked.1, noRegion]

/-- The fault has to copy a frame and there is none to copy it to. -/
def Starves (space : AddressSpace) (memory : MemoryState allocator) (faultAddr : Nat) : Prop :=
  ∃ entry, memory.page space.pml4 (faultAddr / 4096) = some entry ∧
    space.CowFault entry faultAddr ∧ 1 < memory.refcounts entry.frame ∧
    memory.allocFrame.1 = none

theorem CowFault.covered (tidy : space.Tidy) (backed : Backed memory space)
    (user : faultAddr / 4096 < userPages)
    (present : memory.page space.pml4 (faultAddr / 4096) = some entry)
    (isCow : space.CowFault entry faultAddr) :
    ∃ region ∈ space.regions, region.Covers (faultAddr / 4096) ∧ region.prot.write = true := by
  rcases isCow with pteCow | ⟨region, found, regionCow⟩
  · exact backed.writable user present (.inr pteCow)
  have member := List.mem_of_find?_eq_some found
  have contains := List.find?_some found
  exact ⟨region, member, (contains_iff (tidy.placed _ member)).mp contains,
    tidy.cowWritable _ member regionCow⟩

theorem handleCowFault_evolves {handled : Bool} (sound : memory.Sound roots)
    (isRoot : roots space.pml4) (tidy : space.Tidy) (backed : Backed memory space)
    (user : faultAddr < userTop) (fed : ¬space.Starves memory faultAddr)
    (called : space.handleCowFault memory faultAddr = some (handled, next)) :
    Evolves memory space next space roots := by
  rcases pageNumber_alignDown user with ⟨numberEq, pageUser⟩
  cases handleCowFault_effect sound.layout isRoot user called with
  | ignored => exact .refl sound tidy backed
  | takenOver present isCow last mapped =>
    exact Renews.evolves isRoot tidy backed
      (takeOver_spec sound isRoot numberEq pageUser present last mapped)
      (isCow.covered tidy backed pageUser present)
  | starved present isCow shared failed =>
    exact absurd ⟨_, present, isCow, by omega, congrArg Prod.fst failed⟩ fed
  | copied present isCow shared allocated mapped =>
    exact Renews.evolves isRoot tidy backed
      (copy_spec sound isRoot numberEq pageUser present allocated mapped)
      (isCow.covered tidy backed pageUser present)

/-! ## Fork -/

def forkFlags (region : VmaRegion) : PageFlags :=
  if canCow region then { protToFlags { region.prot with write := false } with cow := true }
  else protToFlags region.prot

/-- A count that has reached the end of its range says nothing any more. -/
def Tallied (memory : MemoryState allocator) (roots : Nat → Prop) (frame : Nat) : Prop :=
  maxRefcount ≤ memory.refcounts frame ∨
    HeldBy (memory.Maps roots frame) (memory.refcounts frame)

theorem cowShare_tallied {mapped : MemoryState allocator} {joining : Nat × Nat}
    (tallied : ∀ other, Tallied memory roots other)
    (refcounts : mapped.refcounts = memory.refcounts) (below : frame < Vmm.maxFrames)
    (holders : ∀ other holder, mapped.Maps roots other holder →
      memory.Maps roots other holder ∨ (other = frame ∧ holder = joining)) :
    ∀ other, Tallied (mapped.cowShare frame) roots other := by
  intro other
  rw [cowShare, if_pos below, Tallied]
  simp only [refcounts]
  by_cases same : other = frame
  · subst same
    rw [Function.update_self]
    by_cases full : maxRefcount ≤ memory.refcounts other
    · left
      have large : maxRefcount = 65535 := by decide
      rw [if_neg (by omega), if_neg (by omega)]
      exact full
    · right
      apply (((tallied other).resolve_left full).share joining).mono
      · intro holder isHolder
        exact (holders other holder isHolder).imp id And.right
      · rw [sharedCount]
        split
        · exact le_rfl
        · rw [if_pos (by omega)]
  · rw [Function.update_of_ne same]
    apply (tallied other).imp id
    intro held
    apply held.mono _ le_rfl
    intro holder isHolder
    rcases holders other holder isHolder with old | ⟨sameFrame, _⟩
    · exact old
    · exact absurd sameFrame same

/-- A fork that has handled the pages in `done`. -/
structure Forked (before memory : MemoryState allocator) (roots : Nat → Prop)
    (parent child : Nat) (done : VmaRegion → Nat → Prop) : Prop where
  layout : memory.Layout roots
  tallied : ∀ frame, Tallied memory roots frame
  elsewhere : ∀ {other number}, roots other → number < userPages →
    other ≠ parent → other ≠ child → memory.page other number = before.page other number
  childPage : ∀ {number entry}, number < userPages → memory.page child number = some entry →
    ∃ old region, before.page parent number = some old ∧ entry.frame = old.frame ∧
      done region number ∧ entry.flags = forkFlags region
  parentPage : ∀ {number entry}, number < userPages → memory.page parent number = some entry →
    ∃ old, before.page parent number = some old ∧ entry.frame = old.frame ∧
      ((entry.flags = old.flags ∧ ∀ region, done region number → canCow region = false) ∨
      ∃ region, done region number ∧ canCow region = true ∧
        entry.flags = forkFlags region)

section ForkPage

variable {before : MemoryState allocator} {parent child virt : Nat} {region : VmaRegion}
variable {done : VmaRegion → Nat → Prop}

def handled (done : VmaRegion → Nat → Prop) (region : VmaRegion) (number : Nat) :
    VmaRegion → Nat → Prop :=
  fun otherRegion otherNumber => done otherRegion otherNumber ∨
    (otherRegion = region ∧ otherNumber = number)

theorem history_handled {flags oldFlags : PageFlags} {page : Nat}
    (history : (flags = oldFlags ∧ ∀ cause, done cause number → canCow cause = false) ∨
      ∃ cause, done cause number ∧ canCow cause = true ∧ flags = forkFlags cause)
    (harmless : number = page → canCow region = false) :
    (flags = oldFlags ∧ ∀ cause, handled done region page cause number → canCow cause = false) ∨
      ∃ cause, handled done region page cause number ∧ canCow cause = true ∧
        flags = forkFlags cause := by
  rcases history with ⟨unchanged, none⟩ | ⟨cause, isDone, causeCow, causeFlags⟩
  · refine .inl ⟨unchanged, ?_⟩
    intro cause isHandled
    rcases isHandled with isDone | ⟨sameRegion, samePage⟩
    · exact none cause isDone
    · exact sameRegion ▸ harmless samePage
  · exact .inr ⟨cause, .inl isDone, causeCow, causeFlags⟩

/-- The parent's page was perhaps mapped again to the same frame. -/
structure Reprotected (memory reached : MemoryState allocator) (roots : Nat → Prop)
    (parent number : Nat) (region : VmaRegion) (entry : PageTableEntry) : Prop where
  present : memory.page parent number = some entry
  layout : reached.Layout roots
  refcounts : reached.refcounts = memory.refcounts
  inUse : reached.InUse roots entry.frame
  others : ∀ {other otherNumber}, roots other → otherNumber < userPages →
    ¬(other = parent ∧ otherNumber = number) →
    reached.page other otherNumber = memory.page other otherNumber
  flags : ∃ flags, reached.page parent number = some ⟨entry.frame, flags⟩ ∧
    ((flags = entry.flags ∧ canCow region = false) ∨
      (canCow region = true ∧ flags = forkFlags region))

variable {reached mapped : MemoryState allocator} {old entry : PageTableEntry}

variable {holder : Nat × Nat} {fresh nextSpace : AddressSpace}

theorem Reprotected.maps
    (reprotected : Reprotected memory reached roots parent number region entry)
    (isHolder : reached.Maps roots frame holder) : memory.Maps roots frame holder := by
  rcases isHolder with ⟨isOther, otherUser, value, found, valueFrame⟩
  by_cases here : holder.1 = parent ∧ holder.2 = number
  · rcases reprotected.flags with ⟨flags, parentPresent, _⟩
    rw [here.1, here.2, parentPresent] at found
    rw [← Option.some.inj found] at valueFrame
    refine ⟨isOther, otherUser, entry, ?_, valueFrame⟩
    rw [here.1, here.2]
    exact reprotected.present
  · rw [reprotected.others isOther otherUser here] at found
    exact ⟨isOther, otherUser, value, found, valueFrame⟩

theorem page_cowShare (mapped : MemoryState allocator) (frame root number : Nat) :
    (mapped.cowShare frame).page root number = mapped.page root number := by
  rw [cowShare]
  split <;> rfl

theorem layout_cowShare (layout : mapped.Layout roots) (frame : Nat) :
    (mapped.cowShare frame).Layout roots := by
  rw [cowShare]
  split
  · exact layout.transfer rfl rfl
  · exact layout

theorem Reprotected.history {flags : PageFlags}
    (reprotected : Reprotected memory reached roots parent number region entry)
    (forked : Forked before memory roots parent child done) (user : number < userPages)
    (origin : before.page parent number = some old)
    (now : reached.page parent number = some ⟨entry.frame, flags⟩) :
    (flags = old.flags ∧ ∀ cause, handled done region number cause number →
      canCow cause = false) ∨
      ∃ cause, handled done region number cause number ∧ canCow cause = true ∧
        flags = forkFlags cause := by
  rcases reprotected.flags with ⟨reachedFlags, parentPresent, flagCases⟩
  rw [parentPresent, Option.some.injEq, PageTableEntry.mk.injEq] at now
  rw [← now.2]
  rcases flagCases with ⟨kept, notCow⟩ | ⟨isCow, forkedFlags⟩
  · rcases forked.parentPage user reprotected.present with ⟨oldEntry, source, _, history⟩
    rw [origin] at source
    rw [← Option.some.inj source] at history
    rw [kept]
    exact history_handled history fun _ => notCow
  · exact .inr ⟨region, .inr ⟨rfl, rfl⟩, isCow, forkedFlags⟩

theorem Forked.share (isParent : roots parent) (isChild : roots child) (different : child ≠ parent)
    (user : pageNumber virt < userPages) (forked : Forked before memory roots parent child done)
    (reprotected : Reprotected memory reached roots parent (pageNumber virt) region entry)
    (origin : before.page parent (pageNumber virt) = some old) (oldFrame : entry.frame = old.frame)
    (childMapped : reached.mapPage child virt entry.frame (forkFlags region) = some mapped) :
    Forked before (mapped.cowShare entry.frame) roots parent child
      (handled done region (pageNumber virt)) := by
  have remaps := mapPage_spec reprotected.layout isChild user reprotected.inUse childMapped
  refine ⟨layout_cowShare remaps.layout _, ?_, ?_, ?_, ?_⟩
  · apply cowShare_tallied forked.tallied (remaps.refcounts.trans reprotected.refcounts)
    · rw [maxFrames_eq]
      exact reprotected.inUse.below
    · intro other holder isHolder
      rcases remaps.maps isHolder with ⟨same, value, isValue, valueFrame⟩ | ⟨_, reachedHolder⟩
      · rw [← Option.some.inj isValue] at valueFrame
        exact .inr ⟨valueFrame.symm, same⟩
      · exact .inl (reprotected.maps reachedHolder)
  · intro other number isOther numberUser notParent notChild
    rw [page_cowShare, remaps.page isOther numberUser, if_neg fun same => notChild same.1,
      reprotected.others isOther numberUser fun same => notParent same.1]
    exact forked.elsewhere isOther numberUser notParent notChild
  · intro number value numberUser found
    rw [page_cowShare, remaps.page isChild numberUser] at found
    split at found
    next same =>
      rw [← Option.some.inj found, same.2]
      exact ⟨old, region, origin, oldFrame, .inr ⟨rfl, rfl⟩, rfl⟩
    next =>
      rw [reprotected.others isChild numberUser fun same => different same.1] at found
      rcases forked.childPage numberUser found with ⟨oldEntry, cause, source, frames, isDone, flags⟩
      exact ⟨oldEntry, cause, source, frames, .inl isDone, flags⟩
  · intro number value numberUser found
    rw [page_cowShare, remaps.page isParent numberUser,
      if_neg fun same => different same.1.symm] at found
    by_cases same : number = pageNumber virt
    · subst same
      rcases reprotected.flags with ⟨flags, parentPresent, _⟩
      have isValue := Option.some.inj (found.symm.trans parentPresent)
      rw [isValue] at found ⊢
      exact ⟨old, origin, oldFrame, reprotected.history forked user origin found⟩
    · rw [reprotected.others isParent numberUser fun both => same both.2] at found
      rcases forked.parentPage numberUser found with ⟨oldEntry, source, frames, history⟩
      exact ⟨oldEntry, source, frames, history_handled history fun isPage => absurd isPage same⟩

theorem Forked.skip (forked : Forked before memory roots parent child done)
    (absent : memory.page parent (pageNumber virt) = none) :
    Forked before memory roots parent child (handled done region (pageNumber virt)) := by
  refine ⟨forked.layout, forked.tallied, forked.elsewhere, ?_, ?_⟩
  · intro number entry user present
    rcases forked.childPage user present with ⟨old, cause, source, frames, isDone, flags⟩
    exact ⟨old, cause, source, frames, .inl isDone, flags⟩
  · intro number entry user present
    rcases forked.parentPage user present with ⟨old, source, frames, history⟩
    refine ⟨old, source, frames, history_handled history ?_⟩
    intro isPage
    rw [isPage, absent] at present
    cases present

theorem forkPage_spec (isParent : roots parent) (isChild : roots child) (different : child ≠ parent)
    (user : pageNumber virt < userPages) (forked : Forked before memory roots parent child done)
    (stepped : forkPage parent child region memory virt = some next) :
    Forked before next roots parent child (handled done region (pageNumber virt)) := by
  rw [forkPage, translate_eq] at stepped
  cases present : memory.page parent (pageNumber virt) with
  | none =>
    rw [present] at stepped
    cases stepped
    exact forked.skip present
  | some entry =>
    rw [present] at stepped
    rcases forked.parentPage user present with ⟨old, origin, oldFrame, _⟩
    have inUse := forked.layout.pageUsed isParent user present
    cases isCow : canCow region with
    | true =>
      simp only [Option.map_some, isCow, if_true, Option.bind_eq_bind,
        Option.bind_eq_some_iff, Option.some.injEq] at stepped
      rcases stepped with ⟨marked, parentMapped, mapped, childMapped, finished⟩
      have flags : forkFlags region =
          { protToFlags { region.prot with write := false } with cow := true } := by
        rw [forkFlags, isCow, if_pos rfl]
      rw [← flags] at parentMapped childMapped
      have remaps := mapPage_spec forked.layout isParent user inUse parentMapped
      rw [← finished]
      have reprotected :
          Reprotected memory marked roots parent (pageNumber virt) region entry := by
        refine ⟨present, remaps.layout, remaps.refcounts, remaps.inUse inUse, ?_,
          forkFlags region, ?_, .inr ⟨isCow, rfl⟩⟩
        · intro other number isOther numberUser outside
          rw [remaps.page isOther numberUser, if_neg outside]
        · rw [remaps.page isParent user, if_pos ⟨rfl, rfl⟩]
      exact forked.share isParent isChild different user reprotected origin oldFrame childMapped
    | false =>
      simp only [Option.map_some, isCow, Bool.false_eq_true, if_false, Option.bind_eq_bind,
        Option.bind_eq_some_iff, Option.some.injEq] at stepped
      rcases stepped with ⟨mapped, childMapped, finished⟩
      have flags : forkFlags region = protToFlags region.prot := by
        rw [forkFlags, isCow, if_neg Bool.false_ne_true]
      rw [← flags] at childMapped
      rw [← finished]
      have reprotected :
          Reprotected memory memory roots parent (pageNumber virt) region entry :=
        ⟨present, forked.layout, rfl, inUse, fun _ _ _ => rfl, entry.flags, present,
          .inl ⟨rfl, isCow⟩⟩
      exact forked.share isParent isChild different user reprotected origin oldFrame childMapped

theorem region_range (placed : region.Placed) :
    region.start + Word.sub region.stop region.start / pageSize * 4096 = region.stop := by
  have bounds := placed.user
  have start := placed.start
  have stop := placed.stop
  have ordered := placed.ordered
  rw [userTop_eq] at bounds
  rw [Word.sub_eq ordered (by rw [modulus_eq]; omega), pageSize_eq]
  omega

theorem touched_region (placed : region.Placed) :
    Touched region.start (Word.sub region.stop region.start / pageSize) number ↔
      region.Covers number := by
  have range := region_range placed
  rw [touched_iff (by rw [range]; exact placed.user) placed.start, range, Covers]

def forkWork (regions : List VmaRegion) : List (VmaRegion × Nat) :=
  regions.flatMap fun region =>
    (List.range (Word.sub region.stop region.start / pageSize)).map fun index =>
      (region, pageAddress region.start index)

theorem forkPages_eq (count : Nat) : forkPages parent child region memory count =
    ((List.range count).map fun index => (region, pageAddress region.start index)).foldlM
      (fun memory task => forkPage parent child task.1 memory task.2) memory := by
  induction count with
  | zero => rfl
  | succ count induction =>
    rw [forkPages, induction, List.range_succ, List.map_append]
    simp

theorem forkRegions_eq (regions : List VmaRegion) : forkRegions parent child regions memory =
    (forkWork regions).foldlM (fun memory task => forkPage parent child task.1 memory task.2)
      memory := by
  induction regions generalizing memory with
  | nil => rfl
  | cons region rest induction =>
    rw [forkRegions, forkWork, List.flatMap_cons, List.foldlM_append, forkPages_eq]
    simp only [induction]
    rfl

section Work

variable {regions : List VmaRegion} (placed : ∀ region ∈ regions, region.Placed)

include placed

theorem mem_forkWork :
    (∃ task ∈ forkWork regions, region = task.1 ∧ number = pageNumber task.2) ↔
      region ∈ regions ∧ region.Covers number := by
  simp only [forkWork, List.mem_flatMap, List.mem_map, List.mem_range]
  constructor
  · rintro ⟨_, ⟨owner, member, index, below, rfl⟩, rfl, rfl⟩
    exact ⟨member, (touched_region (placed _ member)).mp ⟨index, below, rfl⟩⟩
  · rintro ⟨member, covers⟩
    rcases (touched_region (placed region member)).mpr covers with ⟨index, below, rfl⟩
    exact ⟨_, ⟨region, member, index, below, rfl⟩, rfl, rfl⟩

theorem forkWork_user : ∀ task ∈ forkWork regions, pageNumber task.2 < userPages := by
  intro task member
  rcases (mem_forkWork placed).mp ⟨task, member, rfl, rfl⟩ with ⟨isRegion, covers⟩
  have bounds := (placed _ isRegion).user
  rw [userTop_eq] at bounds
  rw [Covers] at covers
  have pages : userPages = 34359738368 := rfl
  omega

end Work

theorem forkWork_spec (isParent : roots parent) (isChild : roots child) (different : child ≠ parent)
    {work : List (VmaRegion × Nat)} (user : ∀ task ∈ work, pageNumber task.2 < userPages)
    (forked : Forked before memory roots parent child done)
    (stepped : work.foldlM (fun memory task => forkPage parent child task.1 memory task.2) memory =
      some next) :
    Forked before next roots parent child fun region number =>
      done region number ∨ ∃ task ∈ work, region = task.1 ∧ number = pageNumber task.2 := by
  induction work generalizing memory done with
  | nil =>
    cases stepped
    simpa using forked
  | cons task rest induction =>
    rcases Option.bind_eq_some_iff.mp stepped with ⟨reached, first, later⟩
    have here := forkPage_spec isParent isChild different (user task List.mem_cons_self) forked
      first
    have all := induction (fun other member => user other (List.mem_cons_of_mem task member)) here
      later
    simpa only [handled, or_assoc, List.exists_mem_cons_iff] using all

def withRoot (roots : Nat → Prop) (root : Nat) : Nat → Prop := fun other =>
  roots other ∨ other = root

/-- A new address space has a root of its own and an empty user half. -/
structure Creates (memory next : MemoryState allocator) (roots : Nat → Prop)
    (root : Nat) : Prop where
  fresh : ¬roots root
  layout : next.Layout (withRoot roots root)
  refcounts : next.refcounts = memory.refcounts
  old : ∀ {other number}, roots other → number < userPages →
    next.page other number = memory.page other number
  new : ∀ {number}, number < userPages → next.page root number = none

theorem isTable_root (layout : memory.Layout roots) (isRoot : roots root) :
    memory.IsTable roots root :=
  ⟨root, 0, 0, isRoot, by decide, by rw [layout.forest.single]; decide, rfl⟩

variable {cr3 : Nat}

theorem newUser_some (layout : memory.Layout roots)
    (created : newUser memory cr3 = (some fresh, next)) :
    Creates memory next roots fresh.pml4 ∧
      fresh = ⟨fresh.pml4, [], initialBrkStart, initialBrkStart, initialMmapBase⟩ := by
  rw [newUser] at created
  rcases allocated : memory.allocFrame with ⟨answer, taken⟩
  rw [allocated] at created
  cases answer with
  | none => cases created
  | some pml4 =>
    rw [Prod.mk.injEq, Option.some.injEq] at created
    rcases created with ⟨sameSpace, sameMemory⟩
    subst sameSpace
    rcases allocFrame_some layout allocated with ⟨grows, inUse, wasFree, _⟩
    have notRoot : ¬roots pml4 := by
      intro isRoot
      exact layout.tableUsed pml4 (isTable_root layout isRoot) wasFree
    have unmapped : ∀ {other number entry}, roots other → number < userPages →
        taken.page other number = some entry → entry.frame ≠ pml4 := by
      intro other number entry isOther user present same
      rw [grows.page isOther user] at present
      exact (layout.pageUsed isOther user present).notFree (same ▸ wasFree)
    have planted := @plant_spec _ taken pml4 roots
      (fun slot => if 256 ≤ slot then taken.tables cr3 slot else none) grows.layout inUse
      unmapped (fun slot below => if_neg (not_le_of_gt below))
    rw [sameMemory] at planted
    rcases planted with ⟨plantedLayout, old, new⟩
    refine ⟨⟨notRoot, plantedLayout, ?_, ?_, new⟩, rfl⟩
    · rw [← sameMemory]
      exact grows.refcounts
    · intro other number isOther user
      exact (old isOther user).trans (grows.page isOther user)

theorem newUser_failed (failed : newUser memory cr3 = (none, next)) :
    memory.allocFrame = (none, next) := by
  rw [newUser] at failed
  rcases allocated : memory.allocFrame with ⟨answer, taken⟩
  rw [allocated] at failed
  cases answer with
  | some pml4 => cases failed
  | none =>
    cases failed
    rfl

theorem newUser_none (layout : memory.Layout roots)
    (failed : newUser memory cr3 = (none, next)) : Grows memory next roots :=
  (allocFrame_none layout (newUser_failed failed)).1

theorem Creates.maps (creates : Creates memory next roots root)
    (isHolder : next.Maps (withRoot roots root) frame holder) :
    memory.Maps roots frame holder := by
  rcases isHolder with ⟨isRoot, user, entry, present, sameFrame⟩
  rcases isRoot with isRoot | same
  · exact ⟨isRoot, user, entry, (creates.old isRoot user).symm.trans present, sameFrame⟩
  · rw [same, creates.new user] at present
    cases present

theorem newUser_shape (valid : allocator.Valid memory.frames)
    (created : newUser memory cr3 = (some fresh, next)) :
    next.tables = Function.update memory.tables fresh.pml4
      (fun slot => if 256 ≤ slot then memory.tables cr3 slot else none) ∧
    allocator.IsFree memory.frames fresh.pml4 ∧
    ∀ other, allocator.IsFree next.frames other ↔
      allocator.IsFree memory.frames other ∧ ¬other = fresh.pml4 := by
  rw [newUser] at created
  rcases allocated : memory.allocFrame with ⟨answer, taken⟩
  rw [allocated] at created
  cases answer with
  | none => cases created
  | some pml4 =>
    cases created
    rw [Prod.mk.injEq] at allocated
    rcases allocated with ⟨answer, nextEq⟩
    subst nextEq
    exact ⟨rfl, (allocator.alloc_some valid (Prod.ext answer rfl)).2⟩

theorem Creates.forked (creates : Creates memory next roots root) (sound : memory.Sound roots)
    (isRoot : roots space.pml4) :
    Forked memory next (withRoot roots root) space.pml4 root fun _ _ => False := by
  refine ⟨creates.layout, ?_, ?_, ?_, ?_⟩
  · intro frame
    right
    rw [creates.refcounts]
    exact (sound.counted frame).mono (fun _ isHolder => creates.maps isHolder) le_rfl
  · intro other number isOther user _ notChild
    rcases isOther with isOther | same
    · exact creates.old isOther user
    · exact absurd same notChild
  · intro number entry user present
    rw [creates.new user] at present
    cases present
  · intro number entry user present
    rw [creates.old isRoot user] at present
    exact ⟨entry, present, rfl, .inl ⟨rfl, fun _ never => never.elim⟩⟩

/-- Both sides of a fork: the same space with marked regions, under some root. -/
def marked (space : AddressSpace) (root : Nat) : AddressSpace :=
  { space with pml4 := root, regions := space.regions.map markCow }

theorem copyOnFork_some {child : AddressSpace}
    (called : space.copyOnFork memory = some (some child, nextSpace, next)) :
    ∃ fresh planted, newUser memory space.pml4 = (some fresh, planted) ∧
      forkRegions space.pml4 fresh.pml4 space.regions planted = some next ∧
      child = space.marked fresh.pml4 ∧ nextSpace = space.marked space.pml4 := by
  rw [copyOnFork] at called
  rcases created : newUser memory space.pml4 with ⟨answer, planted⟩
  rw [created] at called
  cases answer with
  | none => cases called
  | some fresh =>
    rcases Option.bind_eq_some_iff.mp called with ⟨reached, forkedRegions, finished⟩
    cases finished
    exact ⟨fresh, planted, rfl, forkedRegions, rfl, rfl⟩

theorem copyOnFork_failed {parent : AddressSpace}
    (called : space.copyOnFork memory = some (none, parent, next)) :
    parent = space ∧ newUser memory space.pml4 = (none, next) := by
  rw [copyOnFork] at called
  rcases created : newUser memory space.pml4 with ⟨answer, planted⟩
  rw [created] at called
  cases answer with
  | none =>
    cases called
    exact ⟨rfl, rfl⟩
  | some fresh =>
    rcases Option.bind_eq_some_iff.mp called with ⟨_, _, finished⟩
    cases finished

theorem copyOnFork_spec {child : AddressSpace} (sound : memory.Sound roots)
    (isRoot : roots space.pml4) (placed : ∀ region ∈ space.regions, region.Placed)
    (called : space.copyOnFork memory = some (some child, nextSpace, next)) :
    ¬roots child.pml4 ∧
    child = space.marked child.pml4 ∧ nextSpace = space.marked space.pml4 ∧
    Forked memory next (withRoot roots child.pml4) space.pml4 child.pml4
      fun region number => region ∈ space.regions ∧ region.Covers number := by
  rcases copyOnFork_some called with ⟨fresh, planted, created, forkedRegions, rfl, rfl⟩
  rcases newUser_some sound.layout created with ⟨creates, _⟩
  have different : fresh.pml4 ≠ space.pml4 := by
    intro same
    exact creates.fresh (same ▸ isRoot)
  rw [forkRegions_eq] at forkedRegions
  have forked := forkWork_spec (.inl isRoot) (.inr rfl) different (forkWork_user placed)
    (creates.forked sound isRoot) forkedRegions
  simp only [false_or, mem_forkWork placed] at forked
  exact ⟨creates.fresh, rfl, rfl, forked⟩

end ForkPage

/-! ## The two address spaces after a fork -/

section Marked

variable {region : VmaRegion} {number : Nat} {before : MemoryState allocator}

theorem markCow_alike (region : VmaRegion) : (markCow region).prot = region.prot ∧
    (markCow region).kind = region.kind ∧ (markCow region).start = region.start ∧
    (markCow region).stop = region.stop ∧ (markCow region).flags = region.flags := by
  rw [markCow]
  split <;> exact ⟨rfl, rfl, rfl, rfl, rfl⟩

theorem markCow_covers : (markCow region).Covers number ↔ region.Covers number := by
  rcases markCow_alike region with ⟨_, _, start, stop, _⟩
  rw [Covers, Covers, start, stop]

theorem markCow_isShared : (markCow region).isShared = region.isShared := by
  rcases markCow_alike region with ⟨_, kind, _, _, flags⟩
  rw [isShared, isShared, kind, flags]

theorem marked_private : (space.marked root).Private number ↔
    space.Private number := by
  simp only [Private, marked, List.mem_map, exists_exists_and_eq_and, markCow_covers,
    markCow_isShared]

theorem Tidy.marked (tidy : space.Tidy) (root : Nat) : (space.marked root).Tidy := by
  have origin : ∀ part ∈ (space.marked root).regions, ∃ region ∈ space.regions,
      markCow region = part := by
    intro part member
    exact List.mem_map.mp member
  refine ⟨?_, ?_, ?_, ?_, tidy.brkStart, tidy.brkOrdered, tidy.brkBelow, tidy.mmapBase⟩
  · intro part member
    rcases origin part member with ⟨region, isRegion, same⟩
    rcases markCow_alike region with ⟨_, _, start, stop, _⟩
    rcases tidy.placed region isRegion with ⟨startAligned, stopAligned, ordered, user⟩
    rw [← same]
    rw [← start] at startAligned ordered
    rw [← stop] at stopAligned ordered user
    exact ⟨startAligned, stopAligned, ordered, user⟩
  · intro leftPart leftMember rightPart rightMember number leftCovers rightCovers
    rcases origin leftPart leftMember with ⟨left, isLeft, sameLeft⟩
    rcases origin rightPart rightMember with ⟨right, isRight, sameRight⟩
    rw [← sameLeft, markCow_covers] at leftCovers
    rw [← sameRight, markCow_covers] at rightCovers
    rw [← sameLeft, ← sameRight, markCow_isShared, markCow_isShared]
    exact tidy.separated left isLeft right isRight number leftCovers rightCovers
  · intro part member isCow
    rcases origin part member with ⟨region, isRegion, same⟩
    rw [← same, (markCow_alike region).1]
    rw [← same, markCow] at isCow
    split at isCow
    next can =>
      rw [canCow_eq, Bool.and_eq_true] at can
      exact can.1
    next => exact tidy.cowWritable region isRegion isCow
  · intro part member isHeap
    rcases origin part member with ⟨region, isRegion, same⟩
    rcases markCow_alike region with ⟨prot, kind, start, stop, _⟩
    rw [← same] at isHeap ⊢
    rw [markCow_isShared, prot, start, stop]
    exact tidy.heap region isRegion (kind.symm.trans isHeap)

theorem forkFlags_writable (allowed : (forkFlags region).writable = true ∨
    (forkFlags region).cow = true) : region.prot.write = true := by
  rw [forkFlags] at allowed
  split at allowed
  next can =>
    rw [canCow_eq, Bool.and_eq_true] at can
    exact can.1
  next => simpa [protToFlags] using allowed

theorem forkFlags_private (unshared : region.isShared = false) :
    (forkFlags region).writable = false := by
  rw [forkFlags]
  split
  next => simp [protToFlags]
  next cannot => simpa [canCow_eq, unshared, protToFlags] using cannot

variable {parent child : Nat}
variable (forked : Forked before memory roots parent child
  fun region number => region ∈ space.regions ∧ region.Covers number)

include forked

theorem Forked.child_backed : Backed memory (space.marked child) := by
  constructor
  · intro number entry user present
    rcases forked.childPage user present with ⟨_, region, _, _, ⟨isRegion, covers⟩, _⟩
    exact ⟨markCow region, List.mem_map_of_mem isRegion, markCow_covers.mpr covers⟩
  · intro number entry user present allowed
    rcases forked.childPage user present with ⟨_, region, _, _, ⟨isRegion, covers⟩, flags⟩
    rw [flags] at allowed
    exact ⟨markCow region, List.mem_map_of_mem isRegion, markCow_covers.mpr covers,
      (markCow_alike region).1 ▸ forkFlags_writable allowed⟩

theorem Forked.parent_backed (isParent : space.pml4 = parent) (backed : Backed before space) :
    Backed memory (space.marked parent) := by
  subst isParent
  constructor
  · intro number entry user present
    rcases forked.parentPage user present with ⟨old, source, _, _⟩
    rcases backed.covered user source with ⟨region, isRegion, covers⟩
    exact ⟨markCow region, List.mem_map_of_mem isRegion, markCow_covers.mpr covers⟩
  · intro number entry user present allowed
    rcases forked.parentPage user present with ⟨old, source, _, history⟩
    rcases history with ⟨unchanged, _⟩ | ⟨region, ⟨isRegion, covers⟩, _, flags⟩
    · rw [unchanged] at allowed
      rcases backed.writable user source allowed with ⟨region, isRegion, covers, write⟩
      exact ⟨markCow region, List.mem_map_of_mem isRegion, markCow_covers.mpr covers,
        (markCow_alike region).1 ▸ write⟩
    · rw [flags] at allowed
      exact ⟨markCow region, List.mem_map_of_mem isRegion, markCow_covers.mpr covers,
        (markCow_alike region).1 ▸ forkFlags_writable allowed⟩

variable {entry : PageTableEntry}

theorem Forked.child_protected (tidy : space.Tidy) (user : number < userPages)
    (present : memory.page child number = some entry) (isPrivate : space.Private number) :
    entry.flags.writable = false := by
  rcases forked.childPage user present with ⟨_, region, _, _, ⟨isRegion, covers⟩, flags⟩
  rcases isPrivate with ⟨cause, isCause, causeCovers, unshared⟩
  rw [flags]
  exact forkFlags_private
    ((tidy.separated region isRegion cause isCause number covers causeCovers).trans unshared)

/-- So is a private page of the parent: if it was writable, its region allows the
copy, and the fork has marked it. -/
theorem Forked.parent_protected (tidy : space.Tidy) (isParent : space.pml4 = parent)
    (backed : Backed before space) (user : number < userPages)
    (present : memory.page parent number = some entry) (isPrivate : space.Private number) :
    entry.flags.writable = false := by
  subst isParent
  rcases isPrivate with ⟨cause, isCause, causeCovers, unshared⟩
  have alike : ∀ region ∈ space.regions, region.Covers number → region.isShared = false := by
    intro region isRegion covers
    exact (tidy.separated region isRegion cause isCause number covers causeCovers).trans unshared
  rcases forked.parentPage user present with ⟨old, source, _, history⟩
  rcases history with ⟨unchanged, none⟩ | ⟨region, ⟨isRegion, covers⟩, _, flags⟩
  · rw [unchanged]
    cases wasWritable : old.flags.writable with
    | false => rfl
    | true =>
      rcases backed.writable user source (.inl wasWritable) with
        ⟨region, isRegion, covers, write⟩
      have cannot := none region ⟨isRegion, covers⟩
      rw [canCow_eq, write, alike region isRegion covers] at cannot
      cases cannot
  · rw [flags]
    exact forkFlags_private (alike region isRegion covers)

end Marked

end Qunix.Memory.Vmm.AddressSpace
