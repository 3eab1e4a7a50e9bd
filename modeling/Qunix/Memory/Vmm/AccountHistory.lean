import Qunix.Memory.Vmm.Accounting
import Qunix.Memory.Vmm.Isolation

/-! # Frame accounts over whole runs

Write faults and forks keep the accounts of frames too, and so does every run of
the memory calls in which a copy-on-write fault finds a frame for its copy, no
count is at the end of its range when a fork raises it, and nothing is mapped over
pages that are mapped.
-/

namespace Qunix.Memory.Vmm

open Foundation Arch MemoryState AddressSpace Function List Option

variable {allocator : FrameAllocator} {memory next : MemoryState allocator}
variable {roots : Nat → Prop} {pool : Nat → Prop} {root number frame : Nat}

variable {cr3 newBrk : Nat} {nextSpace : AddressSpace}

namespace Accounted

/-! ## Write faults -/

variable {entry : PageTableEntry} {virt : Nat}

variable {space : AddressSpace}

section

variable (accounted : Accounted memory roots pool)

include accounted

theorem uncount_last (isHolder : memory.Maps roots entry.frame (root, number))
    (last : memory.refcounts entry.frame - 1 = 0) :
    Accounted (uncount memory entry.frame) roots pool where
  layout := accounted.layout.transfer rfl rfl
  counted := by
    intro other
    change Tally (memory.Maps roots other) (Function.update memory.refcounts entry.frame _ other)
    by_cases same : other = entry.frame
    · rw [same, update_self, last]
      exact (accounted.counted entry.frame).lone isHolder (by omega)
    · rw [update_of_ne same]
      exact accounted.counted other
  level := accounted.level
  kept := accounted.kept

theorem copy {copied : Nat} {flags : PageFlags} {content : Nat → UInt8}
    {taken : MemoryState allocator} (isRoot : roots root)
    (user : pageNumber virt < userPages) (present : memory.page root (pageNumber virt) = some entry)
    (shared : ¬memory.refcounts entry.frame - 1 = 0)
    (allocated : (uncount memory entry.frame).allocFrame = (some copied, taken))
    (mapped : (taken.fillFrame copied content).mapPage root virt copied flags = some next) :
    Accounted next roots pool := by
  have isHolder : memory.Maps roots entry.frame (root, pageNumber virt) :=
    ⟨isRoot, user, entry, present, rfl⟩
  rw [Prod.mk.injEq] at allocated
  rcases allocated with ⟨answer, rfl⟩
  rcases accounted.take (Prod.ext answer rfl) with ⟨takenAccounted, inUse, unmapped, _⟩
  have remaps := mapPage_spec (by exact takenAccounted.layout.transfer rfl rfl) isRoot user
    (by exact inUse.transfer rfl rfl) mapped
  have conserves := mapPage_conserves (by exact takenAccounted.layout.transfer rfl rfl) isRoot
    user mapped
  have different : copied ≠ entry.frame := fun same => unmapped _ (same ▸ isHolder)
  refine of_remaps isRoot user remaps conserves ?_ accounted.level ?_ ?_
  · intro other
    rw [remaps.refcounts]
    change Tally (fun holder => (holder = (root, pageNumber virt) ∧
        (some (PageTableEntry.mk copied flags)).map PageTableEntry.frame = some other) ∨
      (holder ≠ (root, pageNumber virt) ∧ memory.Maps roots other holder))
      (Function.update memory.refcounts entry.frame _ other)
    by_cases isCopy : copied = other
    · subst isCopy
      rw [update_of_ne different, (accounted.counted copied).count_eq_zero unmapped]
      apply @Tally.single _ _ (root, pageNumber virt)
      intro holder
      have vacant : ¬memory.Maps roots copied holder := unmapped holder
      simp [vacant]
    · by_cases isOld : other = entry.frame
      · subst isOld
        rw [update_self]
        exact ((accounted.counted entry.frame).drop isHolder).congr (by simp [isCopy, and_comm])
      · rw [update_of_ne isOld]
        exact (accounted.counted other).congr
          (elsewhere_iff (not_maps_of_frame_ne present isOld) (by simp [isCopy]))
  · intro other holder isEntry held
    cases isEntry
    exact absurd held (unmapped holder)
  · intro other pooled
    by_cases isCopy : copied = other
    · exact .inl (congrArg some isCopy)
    by_cases isOld : other = entry.frame
    · -- The frame was shared, so another page still maps it.
      rcases (accounted.counted entry.frame).remaining (root, pageNumber virt) (by omega) with
        ⟨another, stillHeld, elsewhere⟩
      exact .inr (.inr (.inr ⟨another, elsewhere, isOld ▸ stillHeld⟩))
    · exact .inr (kept_elsewhere (not_maps_of_frame_ne present isOld)
        (takenAccounted.kept other ⟨pooled, Ne.symm isCopy⟩))

theorem handleCowFault {faultAddr : Nat} {handled : Bool} (isRoot : roots space.pml4)
    (user : faultAddr < userTop) (fed : ¬space.Starves memory faultAddr)
    (effect : FaultEffect space memory faultAddr handled next) : Accounted next roots pool := by
  rcases pageNumber_alignDown user with ⟨numberEq, pageUser⟩
  rw [← numberEq] at pageUser
  cases effect with
  | ignored => exact accounted
  | takenOver present isCow last mapped =>
    rw [← numberEq] at present
    have lowered := accounted.uncount_last ⟨isRoot, pageUser, _, present, rfl⟩ last
    exact (lowered.reflag isRoot pageUser present mapped).1
  | starved present isCow shared failed =>
    exact absurd ⟨_, present, isCow, by omega, congrArg Prod.fst failed⟩ fed
  | copied present isCow shared allocated mapped =>
    rw [← numberEq] at present
    exact accounted.copy isRoot pageUser present shared allocated mapped

/-! ## Fork -/

variable {child : Nat}

theorem share {flags : PageFlags} {mapped : MemoryState allocator} (isRoot : roots root)
    (isChild : roots child) (user : pageNumber virt < userPages)
    (present : memory.page root (pageNumber virt) = some entry) (sameFrame : entry.frame = frame)
    (vacant : memory.page child (pageNumber virt) = none)
    (room : memory.refcounts frame < maxRefcount)
    (childMapped : memory.mapPage child virt frame flags = some mapped) :
    Accounted (mapped.cowShare frame) roots pool := by
  subst sameFrame
  have inUse := accounted.layout.pageUsed isRoot user present
  have isHolder : memory.Maps roots entry.frame (root, pageNumber virt) :=
    ⟨isRoot, user, entry, present, rfl⟩
  have remaps := mapPage_spec accounted.layout isChild user inUse childMapped
  have conserves := mapPage_conserves accounted.layout isChild user childMapped
  have absent : ∀ other, ¬memory.Maps roots other (child, pageNumber virt) :=
    not_maps_vacant vacant
  have counted : mapped.cowShare entry.frame = { mapped with
      refcounts := Function.update mapped.refcounts entry.frame
        (sharedCount (memory.refcounts entry.frame)) } := by
    rw [cowShare, if_pos (maxFrames_eq ▸ inUse.below), remaps.refcounts, if_pos room, sharedCount]
  rw [counted]
  refine of_remaps isChild user remaps conserves ?_ accounted.level ?_ ?_
  · intro other
    by_cases same : other = entry.frame
    · subst same
      rw [update_self]
      refine ((accounted.counted entry.frame).share isHolder (absent _)).congr ?_
      intro holder
      by_cases here : holder = (child, pageNumber virt) <;> simp [here]
    · rw [update_of_ne same, remaps.refcounts]
      exact (accounted.counted other).congr
        (elsewhere_iff (absent other) fun isEntry => same (Option.some.inj isEntry).symm)
  · intro other holder isEntry held
    cases isEntry
    exact accounted.level held isHolder
  · intro other pooled
    exact .inr (kept_elsewhere (absent other) (accounted.kept other pooled))

theorem forkPage {parent : Nat} {region : VmaRegion} (isParent : roots parent)
    (isChild : roots child) (different : child ≠ parent) (user : pageNumber virt < userPages)
    (vacant : memory.page child (pageNumber virt) = none)
    (room : ∀ entry, memory.page parent (pageNumber virt) = some entry →
      memory.refcounts entry.frame < maxRefcount)
    (stepped : AddressSpace.forkPage parent child region memory virt = some next) :
    Accounted next roots pool := by
  rw [AddressSpace.forkPage, translate_eq] at stepped
  cases present : memory.page parent (pageNumber virt) with
  | none =>
    rw [present] at stepped
    cases stepped
    exact accounted
  | some entry =>
    rw [present] at stepped
    simp only [map_some] at stepped
    split at stepped
    next =>
      simp only [bind_eq_bind, bind_eq_some_iff] at stepped
      rcases stepped with ⟨reached, parentMapped, mapped, childMapped, finished⟩
      cases finished
      rcases accounted.reflag isParent user present parentMapped with
        ⟨reachedAccounted, refcounts, _, remaps⟩
      have stillVacant : reached.page child (pageNumber virt) = none := by
        rw [remaps.page isChild user, if_neg fun same => different same.1, vacant]
      have now := remaps.page isParent user
      rw [if_pos ⟨rfl, rfl⟩] at now
      have stillRoom : reached.refcounts entry.frame < maxRefcount := by
        rw [refcounts]
        exact room entry present
      exact reachedAccounted.share isParent isChild user now rfl stillVacant stillRoom childMapped
    next =>
      simp only [bind_eq_bind, bind_eq_some_iff] at stepped
      rcases stepped with ⟨mapped, childMapped, finished⟩
      cases finished
      exact accounted.share isParent isChild user present rfl vacant (room entry present)
        childMapped

end

section Fork

variable {before : MemoryState allocator} {parent child : Nat} {region : VmaRegion}
variable {done : VmaRegion → Nat → Prop}
variable (isParent : roots parent) (isChild : roots child) (different : child ≠ parent)
variable (few : ∀ {number entry}, number < userPages → before.page parent number = some entry →
  ∃ cover : Finset (Nat × Nat),
    (∀ holder, holder.1 ≠ child → before.Maps roots entry.frame holder → holder ∈ cover) ∧
    cover.card < maxRefcount)

include isParent few in
/-- Until the child has the page, a frame has the holders it had before the fork. -/
theorem room (accounted : Accounted memory roots pool)
    (forked : Forked before memory roots parent child done) (user : number < userPages)
    {entry : PageTableEntry} (present : memory.page parent number = some entry)
    (vacant : memory.page child number = none) :
    memory.refcounts entry.frame < maxRefcount := by
  have isHolder : memory.Maps roots entry.frame (parent, number) :=
    ⟨isParent, user, entry, present, rfl⟩
  rcases forked.parentPage user present with ⟨origin, originPresent, originFrame, _⟩
  rcases few user originPresent with ⟨cover, covers, small⟩
  rw [← originFrame] at covers
  refine lt_of_le_of_lt ((accounted.counted entry.frame).le_card ?_) small
  intro holder maps
  have sameNumber : holder.2 = number := accounted.level maps isHolder
  rcases maps with ⟨isRoot, holderUser, value, found, sameFrame⟩
  have notChild : holder.1 ≠ child := by
    intro same
    rw [same, sameNumber, vacant] at found
    cases found
  refine covers holder notChild ⟨isRoot, holderUser, ?_⟩
  by_cases isParentPage : holder.1 = parent
  · rw [isParentPage] at found
    rcases forked.parentPage holderUser found with ⟨old, oldPresent, oldFrame, _⟩
    exact ⟨old, isParentPage ▸ oldPresent, oldFrame ▸ sameFrame⟩
  · rw [forked.elsewhere isRoot holderUser isParentPage notChild] at found
    exact ⟨value, found, sameFrame⟩

include isParent isChild different few in
theorem forkWork {work : List (VmaRegion × Nat)}
    (user : ∀ task ∈ work, pageNumber task.2 < userPages)
    (apart : work.Pairwise fun left right => pageNumber left.2 ≠ pageNumber right.2)
    (accounted : Accounted memory roots pool)
    (forked : Forked before memory roots parent child done)
    (ahead : ∀ task ∈ work, ∀ cause, ¬done cause (pageNumber task.2))
    (stepped : work.foldlM (fun memory task =>
      AddressSpace.forkPage parent child task.1 memory task.2) memory = some next) :
    Accounted next roots pool := by
  induction work generalizing memory done with
  | nil =>
    cases stepped
    exact accounted
  | cons task rest induction =>
    rcases List.pairwise_cons.mp apart with ⟨headApart, restApart⟩
    rcases bind_eq_some_iff.mp stepped with ⟨reached, first, later⟩
    have here := user task mem_cons_self
    have vacant : memory.page child (pageNumber task.2) = none := by
      cases found : memory.page child (pageNumber task.2) with
      | none => rfl
      | some entry =>
        rcases forked.childPage here found with ⟨_, cause, _, _, isDone, _⟩
        exact absurd isDone (ahead task mem_cons_self cause)
    have reachedAccounted := accounted.forkPage isParent isChild different here vacant
      (fun entry present => room isParent few accounted forked here present vacant) first
    refine induction (fun other member => user other (mem_cons_of_mem task member)) restApart
      reachedAccounted (forkPage_spec isParent isChild different here forked first) ?_ later
    rintro other member cause (isDone | ⟨_, same⟩)
    · exact ahead other (mem_cons_of_mem task member) cause isDone
    · exact headApart other member same.symm

theorem forkWork_apart {regions : List VmaRegion} (placed : ∀ region ∈ regions, region.Placed)
    (apart : regions.Pairwise VmaRegion.Apart) :
    (AddressSpace.forkWork regions).Pairwise fun left right =>
      pageNumber left.2 ≠ pageNumber right.2 := by
  refine List.pairwise_flatMap.mpr ⟨?_, apart.imp_of_mem ?_⟩
  · intro region member
    have range := region_range (placed region member)
    have bounds := (placed region member).user
    rw [← range] at bounds
    refine List.pairwise_map.mpr (List.pairwise_lt_range.imp_of_mem ?_)
    intro left right isLeft isRight less
    rw [pageNumber_eq bounds (mem_range.mp isLeft), pageNumber_eq bounds (mem_range.mp isRight)]
    omega
  · intro left right isLeft isRight separate first isFirst second isSecond same
    rcases List.mem_map.mp isFirst with ⟨index, below, rfl⟩
    rcases List.mem_map.mp isSecond with ⟨other, otherBelow, rfl⟩
    apply VmaRegion.covers_of_apart separate
    · exact (touched_region (placed left isLeft)).mp ⟨index, mem_range.mp below, same⟩
    · exact (touched_region (placed right isRight)).mp ⟨other, mem_range.mp otherBelow, rfl⟩

end Fork

theorem create {fresh : AddressSpace} (accounted : Accounted memory roots pool)
    (created : newUser memory cr3 = (some fresh, next)) :
    Accounted next (withRoot roots fresh.pml4) pool := by
  rcases newUser_some accounted.layout created with ⟨creates, _⟩
  rcases newUser_shape accounted.layout.valid created with ⟨tables, wasFree, isFree⟩
  have notTable : ¬memory.IsTable roots fresh.pml4 := fun isTable =>
    accounted.layout.tableUsed _ isTable wasFree
  have emptyUser : ∀ slot, slot < pathWidth 1 →
      (fun slot => if 256 ≤ slot then memory.tables cr3 slot else none) slot = none :=
    fun slot below => if_neg (not_le_of_gt below)
  have isTable : ∀ candidate, next.IsTable (withRoot roots fresh.pml4) candidate ↔
      memory.IsTable roots candidate ∨ candidate = fresh.pml4 := by
    intro candidate
    rw [IsTable, tables]
    exact accounted.layout.forest.isTable_plant notTable emptyUser candidate
  have maps : ∀ frame holder, next.Maps (withRoot roots fresh.pml4) frame holder ↔
      memory.Maps roots frame holder := by
    intro frame holder
    refine ⟨creates.maps, ?_⟩
    intro isHolder
    rcases isHolder with ⟨isRoot, user, entry, present, sameFrame⟩
    exact ⟨.inl isRoot, user, entry, (creates.old isRoot user).trans present, sameFrame⟩
  refine ⟨creates.layout, ?_, ?_, ?_⟩
  · intro frame
    rw [creates.refcounts]
    exact (accounted.counted frame).congr (maps frame)
  · intro frame left right isLeft isRight
    exact accounted.level ((maps _ _).mp isLeft) ((maps _ _).mp isRight)
  · intro frame pooled
    rcases accounted.kept frame pooled with free | wasTable | ⟨holder, isHolder⟩
    · by_cases same : frame = fresh.pml4
      · exact .inr (.inl ((isTable frame).mpr (.inr same)))
      · exact .inl ((isFree frame).mpr ⟨free, same⟩)
    · exact .inr (.inl ((isTable frame).mpr (.inl wasTable)))
    · exact .inr (.inr ⟨holder, (maps _ _).mpr isHolder⟩)

theorem copyOnFork {child : AddressSpace} (accounted : Accounted memory roots pool)
    (isRoot : roots space.pml4) (placed : ∀ region ∈ space.regions, region.Placed)
    (neat : Neat space.regions)
    (roomy : ∀ {number entry}, number < userPages → memory.page space.pml4 number = some entry →
      memory.refcounts entry.frame < maxRefcount)
    (called : space.copyOnFork memory = some (some child, nextSpace, next)) :
    Accounted next (withRoot roots child.pml4) pool := by
  rcases copyOnFork_some called with ⟨fresh, planted, created, forkedRegions, rfl, rfl⟩
  rcases newUser_some accounted.layout created with ⟨creates, _⟩
  have different : fresh.pml4 ≠ space.pml4 := fun same => creates.fresh (same ▸ isRoot)
  change Accounted next (withRoot roots fresh.pml4) pool
  rw [forkRegions_eq] at forkedRegions
  refine forkWork (.inl isRoot) (.inr rfl) different ?_ (forkWork_user placed)
    (forkWork_apart placed neat.apart) (accounted.create created)
    (creates.forked accounted.sound isRoot) (fun _ _ _ never => never.elim) forkedRegions
  intro number entry user present
  rcases accounted.counted entry.frame with ⟨cover, covers, size⟩
  have limit : maxRefcount = 65535 := rfl
  refine ⟨cover, ?_, by have below := roomy user present; omega⟩
  intro holder notChild isHolder
  refine (covers holder).mpr ?_
  rcases isHolder with ⟨isHolderRoot, holderUser, mapped⟩
  rcases isHolderRoot with isOld | isChild
  · exact ⟨isOld, holderUser, mapped⟩
  · exact absurd isChild notChild

end Accounted

/-! ## Runs -/

variable {space : AddressSpace}

theorem AddressSpace.BrkClear.fits (tidy : space.Tidy) (clear : space.BrkClear newBrk) :
    space.BrkFits newBrk where
  user := clear.user
  unshared := by
    intro region member isShared
    refine clear.clear region member ?_
    cases kind : isHeap region with
    | false => rfl
    | true =>
      rw [(tidy.heap region member (isHeap_iff.mp kind)).1] at isShared
      cases isShared

theorem AddressSpace.Tidy.heapInside (tidy : space.Tidy) :
    space.HeapInside := by
  intro region member heap
  exact (tidy.heap region member (isHeap_iff.mp heap)).2.2.2

namespace Machine

/-- `brk` is asked for what it has, or for less than the start of the heap. -/
def BrkIdle (space : AddressSpace) (newBrk : Nat) : Prop :=
  newBrk < space.brkStart ∨ newBrk = space.brk

/-- The call stays in the user half and maps nothing over what is there. -/
def Clear (self : Machine allocator) : MemoryCall → Prop
  | .spawn .. => True
  | .fork .. => True
  | .writeFault _ addr => addr < userTop
  | .mmap pid hint len _ mapFlags _ => ∀ space, self.spaces pid = some space →
      space.MmapClear self.memory hint len mapFlags
  | .munmap _ addr len => addr + len ≤ userTop
  | .brk pid newBrk => ∀ space, self.spaces pid = some space →
      BrkIdle space newBrk ∨ space.BrkClear newBrk
  | .store .. => True

/-- A fork can still raise the count of every frame it shares. -/
def Roomy (self : Machine allocator) : MemoryCall → Prop
  | .fork pid _ => ∀ space number entry, self.spaces pid = some space → number < userPages →
      self.memory.page space.pml4 number = some entry →
      self.memory.refcounts entry.frame < maxRefcount
  | _ => True

structure Orderly (machine : Machine allocator) (pool : Nat → Prop) : Prop where
  safe : machine.Safe
  accounted : Accounted machine.memory machine.roots pool
  neat : ∀ {pid space}, machine.spaces pid = some space → Neat space.regions

variable {machine after : Machine allocator} {call : MemoryCall} {pid : Nat}

variable {space : AddressSpace} {entry : PageTableEntry}

theorem setBrk_idle (idle : BrkIdle space newBrk) :
    space.setBrk memory newBrk = some (space.brk, space, memory) := by
  rw [AddressSpace.setBrk]
  rcases idle with below | same
  · rw [if_pos below]
  · split
    next => rfl
    subst same
    simp only [lt_irrefl, if_false, beq_self_eq_true, if_true]

theorem Clear.effect (clear : machine.Clear call) (safe : machine.Safe)
    (sound : machine.memory.Sound machine.roots) (fed : machine.Fed call)
    (taken : machine.exec call = some after) : machine.Effect call after := by
  cases call with
  | brk pid newBrk =>
    rcases withSpace_map taken with ⟨space, ⟨answer, nextSpace, memory⟩, found, called, same⟩
    rw [same]
    rcases clear space found with idle | brkClear
    · rw [setBrk_idle idle] at called
      cases called
      exact .evolve found (.refl sound (safe.tidy found) (safe.backed found))
    · exact .evolve found (setBrk_evolves sound (isRoot found) (safe.tidy found)
        (safe.backed found) (brkClear.fits (safe.tidy found)) called)
  | mmap pid hint len prot mapFlags fileData =>
    exact safe.exec sound fed (fun space found => (clear space found).fits) taken
  | spawn pid cr3 | fork pid child | writeFault pid addr | munmap pid addr len
  | store pid addr byte => exact safe.exec sound fed clear taken

section

variable (orderly : machine.Orderly pool)
include orderly

theorem Orderly.replace (found : machine.spaces pid = some space)
    (sameRoot : nextSpace.pml4 = space.pml4) (safe : (machine.replace pid nextSpace next).Safe)
    (accounted : Accounted next machine.roots pool) (neat : Neat nextSpace.regions) :
    (machine.replace pid nextSpace next).Orderly pool where
  safe := safe
  accounted := by
    rw [replace_roots found sameRoot]
    exact accounted
  neat := by
    intro other otherSpace owner
    rw [replace_spaces] at owner
    split at owner
    next => exact Option.some.inj owner ▸ neat
    next => exact orderly.neat owner

theorem Orderly.onCpu (cpu : Nat) :
    (machine.onCpu cpu).Orderly pool where
  safe := orderly.safe.onCpu cpu
  accounted := orderly.accounted.transfer rfl rfl rfl
  neat := orderly.neat

theorem Orderly.spawn (safe : after.Safe)
    (taken : machine.exec (.spawn pid cr3) = some after) : after.Orderly pool := by
  simp only [Machine.exec] at taken
  split at taken
  next => cases taken
  next memory _ failed =>
    cases taken
    exact ⟨safe, orderly.accounted.starve (newUser_failed failed), orderly.neat⟩
  next space memory absent created =>
    cases taken
    refine ⟨safe, ?_, ?_⟩
    · rw [replace_roots_new absent]
      exact orderly.accounted.create created
    · intro other otherSpace owner
      rw [replace_spaces] at owner
      split at owner
      next =>
        rw [← Option.some.inj owner, (newUser_some orderly.safe.layout created).2]
        exact .nil
      next => exact orderly.neat owner

omit orderly in
theorem neat_marked (neat : Neat space.regions) (root : Nat) :
    Neat (space.marked root).regions :=
  neat.map (fun region => (markCow_alike region).2.2.1) fun region =>
    (markCow_alike region).2.2.2.1

theorem Orderly.fork {child : Nat} (roomy : machine.Roomy (.fork pid child)) (safe : after.Safe)
    (taken : machine.exec (.fork pid child) = some after) : after.Orderly pool := by
  simp only [Machine.exec] at taken
  split at taken
  next space found absent =>
    split at taken
    next => cases taken
    next parent memory called =>
      cases taken
      rcases copyOnFork_failed called with ⟨unchanged, failed⟩
      subst unchanged
      exact orderly.replace found rfl safe
        (orderly.accounted.starve (newUser_failed failed)) (orderly.neat found)
    next fresh parent memory called =>
      cases taken
      have neat := orderly.neat found
      rcases copyOnFork_spec orderly.accounted.sound (isRoot found)
        (orderly.safe.tidy found).placed called with ⟨notRoot, isChild, isParent, forked⟩
      have accounted := orderly.accounted.copyOnFork (isRoot found)
        (orderly.safe.tidy found).placed neat
        (fun {number entry} => roomy space number entry found) called
      rw [isChild, isParent] at safe ⊢
      refine ⟨safe, ?_, ?_⟩
      · have roots := @forked_roots _ machine memory pid space child fresh.pml4 found absent
        rw [forkedMachine] at roots
        rw [roots]
        exact accounted
      · intro other otherSpace owner
        rw [replace_spaces, replace_spaces] at owner
        split at owner
        next => exact Option.some.inj owner ▸ neat_marked neat _
        split at owner
        next => exact Option.some.inj owner ▸ neat_marked neat _
        next => exact orderly.neat owner
  next => cases taken

theorem Orderly.exec (clear : machine.Clear call)
    (fed : machine.Fed call) (roomy : machine.Roomy call)
    (taken : machine.exec call = some after) : after.Orderly pool := by
  have safe := (clear.effect orderly.safe orderly.accounted.sound fed taken).safe orderly.safe
  cases call with
  | spawn pid cr3 => exact orderly.spawn safe taken
  | fork pid child => exact orderly.fork roomy safe taken
  | writeFault pid addr =>
    rcases withSpace_map taken with ⟨space, ⟨handled, memory⟩, found, called, same⟩
    subst same
    refine orderly.replace found rfl safe ?_ (orderly.neat found)
    exact orderly.accounted.handleCowFault (isRoot found) clear (fed space found)
      (handleCowFault_effect orderly.safe.layout (isRoot found) clear called)
  | mmap pid hint len prot mapFlags fileData =>
    rcases withSpace_map taken with ⟨space, ⟨answer, nextSpace, memory⟩, found, called, same⟩
    subst same
    have mmapClear := clear space found
    have tidy := orderly.safe.tidy found
    have effect := mmapFull_effect mmapClear.user called
    exact orderly.replace found effect.sameRoot safe
      (orderly.accounted.mmapFull (isRoot found) tidy (orderly.safe.backed found) mmapClear effect)
      (effect.neat mmapClear tidy.mmapBase (orderly.neat found))
  | munmap pid addr len =>
    rcases withSpace_some taken with ⟨space, nextSpace, memory, found, result, same⟩
    subst same
    have inside : addr + len ≤ userTop := clear
    rw [munmap_eq inside, Option.some.injEq] at result
    have sameSpace := congrArg Prod.fst result
    have sameMemory := congrArg Prod.snd result
    subst sameSpace sameMemory
    refine orderly.replace found (by rw [cutPages_space]) safe
      (orderly.accounted.cutPages (isRoot found) (unmapCount_user inside)) ?_
    exact (orderly.neat found).cutPages _ (alignDown_aligned addr)
  | brk pid newBrk =>
    rcases withSpace_map taken with ⟨space, ⟨answer, nextSpace, memory⟩, found, called, same⟩
    subst same
    have tidy := orderly.safe.tidy found
    rcases clear space found with idle | brkClear
    · rw [setBrk_idle idle] at called
      cases called
      exact orderly.replace found rfl safe orderly.accounted (orderly.neat found)
    · have effect := setBrk_effect tidy.heapBounds brkClear.user called
      exact orderly.replace found effect.sameRoot safe
        (orderly.accounted.setBrk (isRoot found) tidy (orderly.safe.backed found) brkClear effect)
        (effect.neat tidy.heapBounds tidy.heapInside brkClear (orderly.neat found))
  | store pid addr byte =>
    rcases store_some taken with ⟨_, _, _, _, rfl⟩
    exact ⟨safe, orderly.accounted.transfer rfl rfl rfl, orderly.neat⟩

end

/-- A machine before its first process, with a pool of frames of the allocator. -/
structure Booted (machine : Machine allocator) (pool : Nat → Prop) : Prop where
  started : machine.Started
  uncounted : ∀ frame, machine.memory.refcounts frame = 0
  pooled : ∀ frame, pool frame → allocator.IsFree machine.memory.frames frame

def openSystem (pool : Nat → Prop) :
    TransitionSystem (Machine allocator) (Nat × MemoryCall) where
  Initial := fun machine => machine.Booted pool
  Step := fun machine label next => (machine.onCpu label.1).exec label.2 = some next

/-- The calls map nothing over what is there, copies find a frame, and forks find room
in the counts. -/
structure ClearStep (machine : Machine allocator) (label : Nat × MemoryCall)
    (next : Machine allocator) : Prop where
  clear : (machine.onCpu label.1).Clear label.2
  fed : (machine.onCpu label.1).Fed label.2
  roomy : (machine.onCpu label.1).Roomy label.2
  taken : (machine.onCpu label.1).exec label.2 = some next

def clearSystem (pool : Nat → Prop) :
    TransitionSystem (Machine allocator) (Nat × MemoryCall) where
  Initial := fun machine => machine.Booted pool
  Step := ClearStep

theorem Booted.orderly (booted : machine.Booted pool) : machine.Orderly pool := by
  have noSpace : ∀ {pid space}, ¬machine.spaces pid = some space := by
    intro pid space found
    rw [booted.started.spaces pid] at found
    cases found
  have unmapped : ∀ frame holder, ¬machine.memory.Maps machine.roots frame holder := by
    intro frame holder isHolder
    rcases isHolder with ⟨⟨pid, space, found, _⟩, _⟩
    exact noSpace found
  refine ⟨booted.started.safe, ⟨booted.started.safe.layout, ?_, ?_, ?_⟩, ?_⟩
  · intro frame
    rw [booted.uncounted frame]
    exact Tally.empty (unmapped frame)
  · exact fun isLeft => absurd isLeft (unmapped _ _)
  · exact fun frame pooled => .inl (booted.pooled frame pooled)
  · exact fun found => absurd found noSpace

theorem clear_orderly (reachable : (clearSystem pool).Reachable machine) :
    machine.Orderly pool := by
  apply reachable.invariant
  · intro state booted
    exact Booted.orderly booted
  · intro state label next orderly step
    exact (orderly.onCpu label.1).exec step.clear step.fed step.roomy step.taken

/-- The count of a frame is the number of pages that map it, and a frame of the pool that
is no page table is free exactly when no page maps it. -/
structure Exact (machine : Machine allocator) (pool : Nat → Prop) (frame : Nat) : Prop where
  counted : Tally (machine.memory.Maps machine.roots frame) (machine.memory.refcounts frame)
  returned : pool frame → ¬machine.memory.IsTable machine.roots frame →
    (allocator.IsFree machine.memory.frames frame ↔
      ∀ holder, ¬machine.memory.Maps machine.roots frame holder)

theorem clear_exact (reachable : (clearSystem pool).Reachable machine) (frame : Nat) :
    machine.Exact pool frame := by
  have accounted := (clear_orderly reachable).accounted
  exact ⟨accounted.counted frame, fun pooled notTable => accounted.free_iff pooled notTable⟩

/-! ## A write fault without memory -/

def sixteenPool (frame : Nat) : Prop := 256 ≤ frame ∧ frame < 272

theorem sixteenFrames_booted : sixteenFrames.Booted sixteenPool where
  started := sixteenFrames_started
  uncounted := fun _ => rfl
  pooled := by
    intro frame pooled
    exact ((@FrameAllocator.freeRange_spec Phys.allocator _ 256 Phys.emptyState_valid (by decide)
      Phys.emptyState_taken 16 (by decide)).2 frame).mpr pooled

theorem onePage_clear : (clearSystem sixteenPool).Reachable onePage := by
  have spawned : (clearSystem sixteenPool).Reachable (sixteenFrames.advance (.spawn 1 0)) :=
    @TransitionSystem.Reachable.step _ _ _ _ _ (0, .spawn 1 0) (.initial sixteenFrames_booted)
      ⟨trivial, trivial, trivial, advance_taken (by decide +kernel)⟩
  refine @TransitionSystem.Reachable.step _ _ _ _ _ (0, .brk 1 (initialBrkStart + 4096)) spawned
    ⟨?_, trivial, trivial, advance_taken (by decide +kernel)⟩
  intro space found
  exact .inr (brkClear_empty (spawned_regions found) (by decide)).2

theorem Orderly.roomy (orderly : machine.Orderly pool) (unshared : machine.Unshared)
    (call : MemoryCall) : machine.Roomy call := by
  cases call with
  | fork pid child =>
    intro space number entry found user present
    have small : machine.memory.refcounts entry.frame ≤ 1 := by
      rw [← Finset.card_singleton (space.pml4, number)]
      refine (orderly.accounted.counted entry.frame).le_card ?_
      intro holder isHolder
      exact Finset.mem_singleton.mpr
        (unshared.sole (isRoot found) user present holder isHolder)
    exact lt_of_le_of_lt small (by decide)
  | _ => trivial

theorem forkedPage_clear : (clearSystem sixteenPool).Reachable forkedPage := by
  refine @TransitionSystem.Reachable.step _ _ _ _ _ (0, .fork 1 2) onePage_clear
    ⟨trivial, trivial, ?_, advance_taken (by decide +kernel)⟩
  exact ((clear_orderly onePage_clear).onCpu 0).roomy (onePage_solo.unshared.onCpu 0) _

/-- Two processes share a heap page and the count says so. -/
theorem clear_exact_fork :
    (clearSystem sixteenPool).Reachable forkedPage ∧ forkedPage.memory.refcounts 270 = 2 ∧
    forkedPage.Exact sixteenPool 270 :=
  ⟨forkedPage_clear, by decide +kernel, clear_exact forkedPage_clear 270⟩

/-- The fault has lowered the count when it finds no frame, and it leaves it at that. -/
theorem exec_starved {addr : Nat} (found : machine.spaces pid = some space) (user : addr < userTop)
    (below : entry.frame < Vmm.maxFrames)
    (present : machine.memory.page space.pml4 (addr / 4096) = some entry)
    (isCow : entry.flags.cow = true) (shared : 1 < machine.memory.refcounts entry.frame)
    (failed : machine.memory.allocFrame.1 = none) :
    ∃ next, machine.exec (.writeFault pid addr) = some next ∧ next.spaces = machine.spaces ∧
      (∀ other address, next.entry other address = machine.entry other address) ∧
      next.memory.refcounts entry.frame = machine.memory.refcounts entry.frame - 1 := by
  have number := (pageNumber_alignDown user).1
  have lowered : machine.memory.cowDec entry.frame =
      (machine.memory.refcounts entry.frame - 1, uncount machine.memory entry.frame) := by
    rw [cowDec, if_pos below]
    rfl
  have stillFailed : (uncount machine.memory entry.frame).allocFrame =
      (none, (uncount machine.memory entry.frame).allocFrame.2) := Prod.ext failed rfl
  have positive : (machine.memory.refcounts entry.frame - 1 == 0) = false := by
    rw [beq_eq_false_iff_ne]
    omega
  have called : space.handleCowFault machine.memory addr =
      some (false, (uncount machine.memory entry.frame).allocFrame.2) := by
    simp only [handleCowFault, translate_eq, getFlags_eq, number, present, map_some,
      getD_some, isCow, Bool.not_true, Bool.false_and, Bool.false_eq_true, if_false,
      lowered, positive]
    rw [stillFailed]
  refine ⟨machine.replace pid space (uncount machine.memory entry.frame).allocFrame.2, ?_, ?_,
    ?_, ?_⟩
  · simp [Machine.exec, withSpace, found, called]
  · exact update_eq_self_iff.mpr found.symm
  · intro other address
    rw [Machine.entry, replace_spaces]
    split
    next same =>
      rw [same, Machine.entry, found]
      rfl
    next => rfl
  · exact update_self ..

def nineFrames : Machine Phys.allocator where
  memory :=
    { frames := Phys.allocator.freeRange Phys.emptyState 256 9
      cpu := 0
      tables := fun _ _ => none
      bytes := fun _ _ => 0
      refcounts := fun _ => 0 }
  spaces := fun _ => none

def ninePool (frame : Nat) : Prop := 256 ≤ frame ∧ frame < 265

/-- A process with one heap page has forked, and all nine frames are in use. -/
def exhausted : Machine Phys.allocator :=
  ((nineFrames.advance (.spawn 1 0)).advance (.brk 1 (initialBrkStart + 4096))).advance
    (.fork 1 2)

theorem exhausted_reachable : (openSystem ninePool).Reachable exhausted := by
  have booted : nineFrames.Booted ninePool := by
    have spec := @FrameAllocator.freeRange_spec Phys.allocator _ 256 Phys.emptyState_valid
      (by decide) Phys.emptyState_taken 9 (by decide)
    exact ⟨⟨spec.1, fun _ => rfl⟩, fun _ => rfl, fun frame pooled => (spec.2 frame).mpr pooled⟩
  have spawned := @TransitionSystem.Reachable.step _ _ (openSystem ninePool) _
    (nineFrames.advance (.spawn 1 0)) (0, .spawn 1 0) (.initial booted)
    (advance_taken (by decide +kernel))
  have grown := @TransitionSystem.Reachable.step _ _ (openSystem ninePool) _
    ((nineFrames.advance (.spawn 1 0)).advance (.brk 1 (initialBrkStart + 4096)))
    (0, .brk 1 (initialBrkStart + 4096)) spawned (advance_taken (by decide +kernel))
  exact @TransitionSystem.Reachable.step _ _ (openSystem ninePool) _ exhausted
    (0, .fork 1 2) grown (advance_taken (by decide +kernel))

theorem allocFrame_exhausted {memory : MemoryState Phys.allocator}
    (magazine : (memory.frames.magazines (Phys.PhysState.slot memory.cpu)).top = 0)
    (bitmaps : memory.frames.buddy.freeBitmaps = fun _ => WordBitmap.empty) :
    memory.allocFrame.1 = none := by
  have failed := Phys.PhysState.allocFrame_exhausted magazine bitmaps
  change (memory.frames.allocFrame memory.cpu).1.map _ = none
  rw [failed, map_none]

theorem exhausted_allocFrame : (exhausted.onCpu 0).memory.allocFrame.1 = none := by
  apply allocFrame_exhausted
  · decide +kernel
  · rfl

variable {address left right : Nat} {leftEntry : PageTableEntry}

theorem entry_maps (user : address < userTop) (found : machine.entry pid address = some entry) :
    ∃ space, machine.spaces pid = some space ∧
      machine.memory.Maps machine.roots entry.frame (space.pml4, address / 4096) := by
  rcases bind_eq_some_iff.mp found with ⟨space, owner, present⟩
  have number : address / 4096 < userPages := by
    rw [userTop_eq] at user
    rw [userPages_eq]
    omega
  exact ⟨space, owner, isRoot owner, number, entry, present, rfl⟩

theorem not_exact {rightEntry : PageTableEntry} (user : address < userTop)
    (leftFound : machine.entry left address = some leftEntry)
    (rightFound : machine.entry right address = some rightEntry)
    (leftFrame : leftEntry.frame = frame) (rightFrame : rightEntry.frame = frame)
    (count : machine.memory.refcounts frame = 1)
    (different : (machine.spaces left).map AddressSpace.pml4 ≠
      (machine.spaces right).map AddressSpace.pml4) : ¬machine.Exact pool frame := by
  intro exact
  rcases entry_maps user leftFound with ⟨leftSpace, leftOwner, leftMaps⟩
  rcases entry_maps user rightFound with ⟨rightSpace, rightOwner, rightMaps⟩
  rw [leftFrame] at leftMaps
  rw [rightFrame] at rightMaps
  have same := exact.counted.heldBy.unique (le_of_eq count) leftMaps rightMaps
  rw [leftOwner, rightOwner] at different
  exact different (congrArg some (Prod.mk.inj same).1)

/-- Two processes share a frame, and one of them faults without a frame for its copy. -/
theorem starve_miscounts {addr : Nat} (reachable : (openSystem pool).Reachable machine)
    (user : addr < userTop) (leftFound : machine.entry left addr = some leftEntry)
    (found : machine.entry right addr = some entry) (leftFrame : leftEntry.frame = frame)
    (sameFrame : entry.frame = frame) (below : frame < Vmm.maxFrames)
    (isCow : entry.flags.cow = true) (count : machine.memory.refcounts frame = 2)
    (different : (machine.spaces left).map AddressSpace.pml4 ≠
      (machine.spaces right).map AddressSpace.pml4)
    (failed : (machine.onCpu 0).memory.allocFrame.1 = none) :
    ∃ next : Machine allocator, (openSystem pool).Reachable next ∧
      next.entry left addr = some leftEntry ∧
      next.entry right addr = some entry ∧ next.memory.refcounts frame = 1 ∧
      ¬next.Exact pool frame := by
  subst sameFrame
  rcases bind_eq_some_iff.mp found with ⟨space, owner, present⟩
  have shared : 1 < (machine.onCpu 0).memory.refcounts entry.frame := by
    change 1 < machine.memory.refcounts entry.frame
    omega
  rcases @exec_starved _ (machine.onCpu 0) right space entry addr owner user below present isCow
    shared failed with ⟨next, taken, spaces, entries, lowered⟩
  have nextLeft := (entries left addr).trans leftFound
  have nextRight := (entries right addr).trans found
  have nextCount : next.memory.refcounts entry.frame = 1 := by
    rw [lowered]
    change machine.memory.refcounts entry.frame - 1 = 1
    omega
  have stillDifferent : (next.spaces left).map AddressSpace.pml4 ≠
      (next.spaces right).map AddressSpace.pml4 := by
    rw [spaces]
    exact different
  exact ⟨next, @TransitionSystem.Reachable.step _ _ (openSystem pool) _ next
    (0, .writeFault right addr) reachable taken, nextLeft, nextRight, nextCount,
    not_exact user nextLeft nextRight leftFrame rfl nextCount stillDifferent⟩

/-- The child writes to the shared page and finds no frame for the copy. Both processes
still map the frame, and the count says one. -/
theorem starved_miscounted :
    ∃ machine : Machine Phys.allocator, (openSystem ninePool).Reachable machine ∧
      machine.entry 1 initialBrkStart = some ⟨263, ⟨false, true, true, true⟩⟩ ∧
      machine.entry 2 initialBrkStart = some ⟨263, ⟨false, true, true, true⟩⟩ ∧
      machine.memory.refcounts 263 = 1 ∧ ¬machine.Exact ninePool 263 := by
  have parent : exhausted.entry 1 initialBrkStart = some ⟨263, ⟨false, true, true, true⟩⟩ := by
    decide +kernel
  have child : exhausted.entry 2 initialBrkStart = some ⟨263, ⟨false, true, true, true⟩⟩ := by
    decide +kernel
  have count : exhausted.memory.refcounts 263 = 2 := by decide +kernel
  have different : (exhausted.spaces 1).map AddressSpace.pml4 ≠
      (exhausted.spaces 2).map AddressSpace.pml4 := by decide +kernel
  exact starve_miscounts exhausted_reachable (by decide) parent child rfl rfl (by decide) rfl
    count different exhausted_allocFrame

end Machine

end Qunix.Memory.Vmm
