import Qunix.Memory.Vmm.WriteProtection

/-! # Runs with `mprotect`

All processes, with every call that changes an address space. A page that `mprotect`
made read-only is followed through the run, into the children of its process as well.
-/

namespace Qunix.Memory.Vmm

open Foundation Arch MemoryState AddressSpace VmaRegion Option

inductive SpaceCall
  | memory (call : MemoryCall)
  | protect (pid : Nat) (call : ProtectCall)

namespace AddressSpace

variable {allocator : FrameAllocator} {memory next : MemoryState allocator}
variable {roots : Nat → Prop} {root : Nat}

theorem Reflags.maps {touched : Nat → Prop} {flags : PageFlags} {frame : Nat} {holder : Nat × Nat}
    (reflags : Reflags memory next roots root touched flags)
    (isHolder : next.Maps roots frame holder) : memory.Maps roots frame holder := by
  rcases isHolder with ⟨isRoot, user, entry, present, sameFrame⟩
  refine ⟨isRoot, user, ?_⟩
  by_cases same : holder.1 = root
  · have frames := @reflags.frame _ _ _ _ _ _ _ holder.2 (same ▸ isRoot) user
    rw [← same, present] at frames
    rcases map_eq_some_iff.mp frames.symm with ⟨old, wasPresent, oldFrame⟩
    exact ⟨old, wasPresent, oldFrame.trans sameFrame⟩
  · rw [reflags.outside isRoot user fun both => same both.1] at present
    exact ⟨entry, present, sameFrame⟩

end AddressSpace

namespace Machine

variable {allocator : FrameAllocator} {machine after : Machine allocator} {pid : Nat}
variable {space nextSpace : AddressSpace} {next : MemoryState allocator} {call : SpaceCall}
  (self : Machine allocator)

def perform : SpaceCall → Option (Machine allocator)
  | .memory call => self.exec call
  | .protect pid call => self.protect pid call

/-- What the calls rely on and do not check. -/
def Heedful : SpaceCall → Prop
  | .memory (.brk pid newBrk) => ∀ space, self.spaces pid = some space →
      BrkIdle space newBrk ∨ (space.HeapInside ∧ space.BrkClear newBrk)
  | .memory call => self.Clear call
  | .protect pid (.mprotect addr len prot) => ∀ space, self.spaces pid = some space →
      space.ProtectClear self.memory addr len prot
  | .protect pid (.mremap oldAddr oldLen newLen flags newAddr) => ∀ space,
      self.spaces pid = some space → space.RemapClear oldAddr oldLen newLen flags newAddr ∧
        space.RemapWhole oldAddr oldLen newLen

/-- A write fault that has to copy finds a free frame. -/
def WellFed : SpaceCall → Prop
  | .memory call => self.Fed call
  | .protect .. => True

/-- The call is one of the process that maps the page anew, gives it up or makes it
writable. -/
def Names : SpaceCall → Nat → Nat → Prop
  | .memory (.mmap caller hint len _ mapFlags _), pid, number => caller = pid ∧
      ∃ space, self.spaces pid = some space ∧ space.MmapRange self.memory hint len mapFlags number
  | .memory (.munmap caller addr len), pid, number => caller = pid ∧
      Within (alignDown addr) (unmapCount addr len) number
  | .memory (.brk caller newBrk), pid, number => caller = pid ∧
      ∃ space, self.spaces pid = some space ∧ space.BrkRange newBrk number
  | .memory _, _, _ => False
  | .protect caller (.mprotect addr len prot), pid, number => caller = pid ∧
      prot.write = true ∧ Touched addr (pageCount len) number
  | .protect caller (.mremap oldAddr oldLen newLen flags newAddr), pid, number => caller = pid ∧
      ∃ space, self.spaces pid = some space ∧
        space.RemapRange oldAddr oldLen newLen flags newAddr number

structure Governing (machine : Machine allocator) : Prop where
  rooted : machine.Rooted
  governed : ∀ {pid space}, machine.spaces pid = some space → Governed machine.memory space

/-- What one step does, in the terms that the proofs need. -/
inductive SpaceEffect (machine : Machine allocator) : SpaceCall → Machine allocator → Prop
  | retain {call : SpaceCall} {next : MemoryState allocator}
      (layout : next.Layout machine.roots)
      (same : ∀ {root number}, machine.roots root → number < userPages →
        next.page root number = machine.memory.page root number)
      (refcounts : next.refcounts = machine.memory.refcounts) :
      SpaceEffect machine call { machine with memory := next }
  | spawn {pid cr3 : Nat} {space : AddressSpace} {next : MemoryState allocator}
      (absent : machine.spaces pid = none)
      (creates : Creates machine.memory next machine.roots space.pml4)
      (empty : space = ⟨space.pml4, [], initialBrkStart, initialBrkStart, initialMmapBase⟩) :
      SpaceEffect machine (.memory (.spawn pid cr3)) (machine.replace pid space next)
  | confined {call : SpaceCall} {pid : Nat} {space nextSpace : AddressSpace}
      {next : MemoryState allocator} {range : Nat → Prop}
      (found : machine.spaces pid = some space)
      (footprint : Footprint machine.memory space next nextSpace machine.roots range)
      (arranged : nextSpace.Arranged)
      (named : ∀ number, range number → machine.Names call pid number ∨
        ∃ region ∈ space.regions, region.Covers number ∧ region.prot.write = true) :
      SpaceEffect machine call (machine.replace pid nextSpace next)
  | fork {pid child root : Nat} {space : AddressSpace} {next : MemoryState allocator}
      (found : machine.spaces pid = some space) (absent : machine.spaces child = none)
      (fresh : ¬machine.roots root)
      (forked : Forked machine.memory next (withRoot machine.roots root) space.pml4 root
        fun region number => region ∈ space.regions ∧ region.Covers number) :
      SpaceEffect machine (.memory (.fork pid child))
        (machine.forkedMachine pid child root space next)
  | protect {pid addr len : Nat} {prot : Prot} {space : AddressSpace}
      {next : MemoryState allocator} (found : machine.spaces pid = some space)
      (clear : space.ProtectClear machine.memory addr len prot)
      (reflags : Reflags machine.memory next machine.roots space.pml4
        (Touched addr (pageCount len)) (protToFlags prot))
      (refcounts : next.refcounts = machine.memory.refcounts) :
      SpaceEffect machine (.protect pid (.mprotect addr len prot))
        (machine.replace pid (space.protectedSpace addr (addr + len) prot) next)

variable {addr len : Nat} {prot : Prot}

theorem mprotect_taken (layout : machine.memory.Layout machine.roots)
    (heedful : machine.Heedful (.protect pid (.mprotect addr len prot)))
    (taken : machine.protect pid (.mprotect addr len prot) = some after) :
    ∃ space next, machine.spaces pid = some space ∧
      space.ProtectClear machine.memory addr len prot ∧
      Reflags machine.memory next machine.roots space.pml4 (Touched addr (pageCount len))
        (protToFlags prot) ∧
      next.refcounts = machine.memory.refcounts ∧
      after = machine.replace pid (space.protectedSpace addr (addr + len) prot) next := by
  rcases withSpace_some taken with ⟨space, nextSpace, next, found, called, same⟩
  have clear := heedful space found
  rcases mprotect_effect layout (isRoot found) clear called with ⟨isProtected, reflags⟩
  rcases bind_eq_some_iff.mp called with ⟨reached, changed, finished⟩
  cases finished
  have refcounts := (protectPages_spec layout (isRoot found)
    (fun index below => pageNumber_user clear.user below) changed).2
  rw [isProtected] at same
  exact ⟨space, _, found, clear, reflags, refcounts, same⟩

section Effect

variable (governing : machine.Governing) (sound : machine.memory.Sound machine.roots)

include governing sound

theorem Governing.writeFault {addr : Nat} (user : addr < userTop)
    (fed : machine.Fed (.writeFault pid addr))
    (taken : machine.exec (.writeFault pid addr) = some after) :
    machine.SpaceEffect (.memory (.writeFault pid addr)) after := by
  rcases withSpace_map taken with ⟨space, ⟨handled, reached⟩, found, called, same⟩
  rw [same]
  have governed := governing.governed found
  have effect := handleCowFault_effect sound.layout (isRoot found) user called
  have footprint := effect.footprint sound (isRoot found) user (fed space found)
  have writes : ∀ {entry}, machine.memory.page space.pml4 (addr / 4096) = some entry →
      space.CowFault entry addr →
      machine.SpaceEffect (.memory (.writeFault pid addr)) (machine.replace pid space reached) := by
    intro entry present isCow
    refine .confined found footprint governed.arranged ?_
    intro number isNumber
    rcases governed.writable user present isCow with ⟨region, isRegion, write⟩
    rcases governed.arranged.found isRegion with ⟨member, covers⟩
    exact .inr ⟨region, member, isNumber ▸ covers, write⟩
  cases effect with
  | ignored =>
    have idle : Footprint machine.memory space machine.memory space machine.roots
        (fun _ => False) := .refl sound
    exact .confined found idle governed.arranged fun _ impossible => impossible.elim
  | takenOver present isCow | copied present isCow => exact writes present isCow
  | starved present isCow shared failed =>
    exact absurd ⟨_, present, isCow, by omega, congrArg Prod.fst failed⟩ (fed space found)

omit governing in
theorem Governing.spawn {cr3 : Nat} (taken : machine.exec (.spawn pid cr3) = some after) :
    machine.SpaceEffect (.memory (.spawn pid cr3)) after := by
  simp only [Machine.exec] at taken
  split at taken
  next => cases taken
  next memory _ created =>
    cases taken
    have grows := newUser_none sound.layout created
    exact .retain grows.layout grows.page grows.refcounts
  next space memory absent created =>
    cases taken
    rcases newUser_some sound.layout created with ⟨creates, empty⟩
    exact .spawn absent creates empty

theorem Governing.fork {child : Nat} (taken : machine.exec (.fork pid child) = some after) :
    machine.SpaceEffect (.memory (.fork pid child)) after := by
  simp only [Machine.exec] at taken
  split at taken
  next space found absent =>
    have arranged := (governing.governed found).arranged
    split at taken
    next => cases taken
    next parent memory called =>
      cases taken
      rcases copyOnFork_none sound.layout called with ⟨unchanged, grows⟩
      rw [unchanged]
      have idle : Footprint machine.memory space memory space machine.roots (fun _ => False) :=
        Grows.footprint sound (isRoot found) grows
      exact .confined found idle arranged fun _ impossible => impossible.elim
    next fresh parent memory called =>
      cases taken
      rcases copyOnFork_spec sound (isRoot found) arranged.placed called with
        ⟨notRoot, isChild, isParent, forked⟩
      rw [isChild, isParent]
      exact .fork found absent notRoot forked
  next => cases taken

theorem Governing.mmap {hint : Option Nat} {len mapFlags : Nat} {prot : Prot}
    {fileData : Option (List UInt8)}
    (clear : machine.Clear (.mmap pid hint len prot mapFlags fileData))
    (taken : machine.exec (.mmap pid hint len prot mapFlags fileData) = some after) :
    machine.SpaceEffect (.memory (.mmap pid hint len prot mapFlags fileData)) after := by
  rcases withSpace_map taken with ⟨space, ⟨answer, nextSpace, next⟩, found, called, same⟩
  rw [same]
  have clear := clear space found
  have arranged := (governing.governed found).arranged
  have effect := mmapFull_effect clear.user called
  refine .confined found (effect.footprint sound (isRoot found) arranged.base clear.user)
    (arranged.mmap clear effect) ?_
  intro number isIn
  exact .inl ⟨rfl, space, found, isIn⟩

theorem Governing.munmap {addr len : Nat} (inside : addr + len ≤ userTop)
    (taken : machine.exec (.munmap pid addr len) = some after) :
    machine.SpaceEffect (.memory (.munmap pid addr len)) after := by
  rcases withSpace_some taken with ⟨space, nextSpace, next, found, result, same⟩
  have arranged := (governing.governed found).arranged
  have footprint := munmap_footprint sound (isRoot found) inside
  have munmapped := arranged.munmap machine.memory inside
  rw [Option.some.inj result] at footprint munmapped
  rw [same]
  refine .confined found footprint munmapped ?_
  intro number isIn
  exact .inl ⟨rfl, isIn⟩

theorem Governing.brk {newBrk : Nat} (heedful : machine.Heedful (.memory (.brk pid newBrk)))
    (taken : machine.exec (.brk pid newBrk) = some after) :
    machine.SpaceEffect (.memory (.brk pid newBrk)) after := by
  rcases withSpace_map taken with ⟨space, ⟨answer, nextSpace, next⟩, found, called, same⟩
  rw [same]
  have arranged := (governing.governed found).arranged
  rcases heedful space found with idle | ⟨inside, clear⟩
  · rw [setBrk_idle idle] at called
    cases called
    have idle : Footprint machine.memory space machine.memory space machine.roots
        (fun _ => False) := .refl sound
    exact .confined found idle arranged fun _ impossible => impossible.elim
  · have effect := setBrk_effect arranged.heap clear.user called
    refine .confined found (effect.footprint sound (isRoot found) arranged.heap inside
      arranged.neat clear.user) (arranged.brk inside clear effect) ?_
    intro number isIn
    exact .inl ⟨rfl, space, found, isIn⟩

theorem Governing.mremap {oldAddr oldLen newLen flags newAddr : Nat}
    (heedful : machine.Heedful (.protect pid (.mremap oldAddr oldLen newLen flags newAddr)))
    (taken : machine.protect pid (.mremap oldAddr oldLen newLen flags newAddr) = some after) :
    machine.SpaceEffect (.protect pid (.mremap oldAddr oldLen newLen flags newAddr)) after := by
  rcases withSpace_map taken with ⟨space, ⟨answer, nextSpace, next⟩, found, called, same⟩
  rw [same]
  rcases heedful space found with ⟨clear, whole⟩
  have arranged := (governing.governed found).arranged
  have effect := mremap_effect clear.within called
  refine .confined found (effect.footprint sound (isRoot found) arranged.base clear.within whole)
    (arranged.mremap clear effect) ?_
  intro number isIn
  exact .inl ⟨rfl, space, found, isIn⟩

theorem Governing.effect (fed : machine.WellFed call) (heedful : machine.Heedful call)
    (taken : machine.perform call = some after) : machine.SpaceEffect call after := by
  cases call with
  | memory call =>
    cases call with
    | spawn pid cr3 => exact Governing.spawn sound taken
    | fork pid child => exact governing.fork sound taken
    | writeFault pid addr => exact governing.writeFault sound heedful fed taken
    | mmap pid hint len prot mapFlags fileData => exact governing.mmap sound heedful taken
    | munmap pid addr len => exact governing.munmap sound heedful taken
    | brk pid newBrk => exact governing.brk sound heedful taken
    | store pid addr byte =>
      rcases store_some taken with ⟨_, _, _, _, same⟩
      rw [same]
      exact .retain (sound.layout.transfer rfl rfl) (fun _ _ => rfl) rfl
  | protect pid call =>
    cases call with
    | mprotect addr len prot =>
      rcases mprotect_taken sound.layout heedful taken with
        ⟨space, next, found, clear, reflags, refcounts, same⟩
      rw [same]
      exact .protect found clear reflags refcounts
    | mremap oldAddr oldLen newLen flags newAddr => exact governing.mremap sound heedful taken

end Effect

namespace Governing

section

variable (governing : machine.Governing)
include governing

theorem replace (found : machine.spaces pid = some space)
    (rooted : (machine.replace pid nextSpace next).Rooted)
    (elsewhere : ∀ {other number}, machine.roots other → number < userPages →
      other ≠ space.pml4 → next.page other number = machine.memory.page other number)
    (governed : Governed next nextSpace) : (machine.replace pid nextSpace next).Governing := by
  refine ⟨rooted, ?_⟩
  intro other otherSpace isOther
  rw [replace_spaces] at isOther
  split at isOther
  next => exact Option.some.inj isOther ▸ governed
  next notPid =>
    apply (governing.governed isOther).samePages
    intro number user
    exact elsewhere (isRoot isOther) user
      fun same => notPid (governing.rooted.distinct isOther found same)

theorem spawned (absent : machine.spaces pid = none)
    (creates : Creates machine.memory next machine.roots space.pml4)
    (empty : space = ⟨space.pml4, [], initialBrkStart, initialBrkStart, initialMmapBase⟩) :
    (machine.replace pid space next).Governing := by
  refine ⟨governing.rooted.spawn absent creates, ?_⟩
  intro other otherSpace isOther
  rw [replace_spaces] at isOther
  split at isOther
  next =>
    rw [← Option.some.inj isOther, empty]
    exact Governed.new next creates.new
  next =>
    apply (governing.governed isOther).samePages
    intro number user
    exact creates.old (isRoot isOther) user

theorem forked {child root : Nat}
    (found : machine.spaces pid = some space) (absent : machine.spaces child = none)
    (fresh : ¬machine.roots root)
    (forked : Forked machine.memory next (withRoot machine.roots root) space.pml4 root
      fun region number => region ∈ space.regions ∧ region.Covers number) :
    (machine.forkedMachine pid child root space next).Governing := by
  refine ⟨governing.rooted.fork found absent fresh forked.layout forked.tallied, ?_⟩
  intro other otherSpace owner
  have governed := governing.governed found
  rw [forked_spaces] at owner
  split at owner
  next => exact Option.some.inj owner ▸ governed.forkChild forked
  split at owner
  next => exact Option.some.inj owner ▸ governed.forkParent forked rfl
  next notPid =>
    apply (governing.governed owner).samePages
    intro number user
    exact governing.rooted.fork_elsewhere found fresh forked owner notPid user

end

theorem onCpu (governing : machine.Governing) (cpu : Nat) : (machine.onCpu cpu).Governing :=
  ⟨governing.rooted.onCpu cpu, fun found => (governing.governed found).samePages fun _ => rfl⟩

end Governing

theorem SpaceEffect.governing (governing : machine.Governing)
    (effect : machine.SpaceEffect call after) : after.Governing := by
  cases effect with
  | retain layout same refcounts =>
    refine ⟨governing.rooted.retain layout same refcounts, ?_⟩
    intro pid space found
    apply (governing.governed found).samePages
    intro number user
    exact same (isRoot found) user
  | spawn absent creates empty => exact governing.spawned absent creates empty
  | confined found footprint arranged =>
    have rooted := governing.rooted.replace found footprint.root footprint.sound.layout
      (tallied_of_sound footprint.sound)
    exact governing.replace found rooted footprint.elsewhere
      ((governing.governed found).footprint footprint arranged)
  | fork found absent fresh forked => exact governing.forked found absent fresh forked
  | @protect _ _ _ _ space next found clear reflags refcounts =>
    have tallied : ∀ frame, Tallied next machine.roots frame := by
      intro frame
      apply (governing.rooted.tallied frame).imp
      · intro saturated
        rw [refcounts]
        exact saturated
      · intro held
        rw [refcounts]
        exact held.mono (fun _ isHolder => reflags.maps isHolder) le_rfl
    refine governing.replace found (governing.rooted.replace found rfl reflags.layout tallied) ?_
      ((governing.governed found).mprotect (isRoot found) clear reflags)
    intro other number isOther user different
    exact reflags.outside isOther user fun both => different both.1

/-! ## Runs -/

/-- Every process may make every call, on any CPU. -/
def openSpaces : TransitionSystem (Machine allocator) (Nat × SpaceCall) where
  Initial := Started
  Step := fun machine label next => (machine.onCpu label.1).perform label.2 = some next

structure GuardedStep (machine : Machine allocator) (label : Nat × SpaceCall)
    (next : Machine allocator) : Prop where
  few : machine.FewSharers
  fed : (machine.onCpu label.1).WellFed label.2
  heedful : (machine.onCpu label.1).Heedful label.2
  taken : (machine.onCpu label.1).perform label.2 = some next

def guardedSpaces : TransitionSystem (Machine allocator) (Nat × SpaceCall) where
  Initial := Started
  Step := GuardedStep

theorem Governing.guarded {label : Nat × SpaceCall} (governing : machine.Governing)
    (step : machine.GuardedStep label after) :
    (machine.onCpu label.1).SpaceEffect label.2 after :=
  (governing.onCpu label.1).effect ((governing.onCpu label.1).rooted.sound step.few) step.fed
    step.heedful step.taken

theorem Started.governing (started : machine.Started) : machine.Governing where
  rooted := started.safe.rooted
  governed := by
    intro pid space found
    rw [started.spaces pid] at found
    cases found

theorem guarded_governing (reachable : guardedSpaces.Reachable machine) : machine.Governing := by
  apply reachable.invariant
  · intro state started
    exact started.governing
  · intro state label next governing step
    exact (governing.guarded step).governing (governing.onCpu label.1)

/-! ## Pages that were made read-only -/

/-- The page of the process is read-only, and so is its region. -/
def ReadOnly (machine : Machine allocator) (pid number : Nat) : Prop :=
  ∃ space, machine.spaces pid = some space ∧ Sealed machine.memory space number

namespace ReadOnly

variable {number : Nat}

variable (readOnly : machine.ReadOnly pid number)

include readOnly

theorem onCpu (cpu : Nat) :
    (machine.onCpu cpu).ReadOnly pid number := by
  rcases readOnly with ⟨space, found, isSealed⟩
  exact ⟨space, found, isSealed.samePage rfl⟩

theorem replaceOther {caller : Nat}
    (notCaller : pid ≠ caller) (same : ∀ space, machine.spaces pid = some space →
      next.page space.pml4 number = machine.memory.page space.pml4 number) :
    (machine.replace caller nextSpace next).ReadOnly pid number := by
  rcases readOnly with ⟨space, found, isSealed⟩
  refine ⟨space, ?_, isSealed.samePage (same space found)⟩
  rw [replace_spaces, if_neg notCaller]
  exact found

section

variable (governing : machine.Governing) (user : number < userPages)

include governing user

theorem confined {range : Nat → Prop} {caller : Nat} (found : machine.spaces caller = some space)
    (footprint : Footprint machine.memory space next nextSpace machine.roots range)
    (named : range number → machine.Names call caller number ∨
      ∃ region ∈ space.regions, region.Covers number ∧ region.prot.write = true)
    (unnamed : ¬machine.Names call pid number) :
    (machine.replace caller nextSpace next).ReadOnly pid number := by
  by_cases isCaller : pid = caller
  · subst isCaller
    rcases readOnly with ⟨old, isOld, isSealed⟩
    rw [found, Option.some.injEq] at isOld
    subst isOld
    have outside : ¬range number := by
      intro isIn
      rcases named isIn with isNamed | ⟨region, member, covers, write⟩
      · exact unnamed isNamed
      rcases isSealed.region with ⟨only, isOnly, onlyCovers, noWrite⟩
      have neat := (governing.governed found).arranged.neat
      rw [neat.unique isOnly member onlyCovers covers, write] at noWrite
      cases noWrite
    refine ⟨nextSpace, ?_, isSealed.kept footprint.root (footprint.outside user outside)⟩
    rw [replace_spaces, if_pos rfl]
  · apply readOnly.replaceOther isCaller
    intro other isOther
    exact footprint.elsewhere (isRoot isOther) user
      fun same => isCaller (governing.rooted.distinct isOther found same)

theorem fork {parent child root : Nat} (found : machine.spaces parent = some space)
    (absent : machine.spaces child = none) (fresh : ¬machine.roots root)
    (forked : Forked machine.memory next (withRoot machine.roots root) space.pml4 root
      fun region number => region ∈ space.regions ∧ region.Covers number) :
    (machine.forkedMachine parent child root space next).ReadOnly pid number := by
  rcases readOnly with ⟨old, isOld, isSealed⟩
  have notChild : pid ≠ child := by
    intro isChild
    rw [isChild, absent] at isOld
    cases isOld
  by_cases isParent : pid = parent
  · rw [isParent, found, Option.some.injEq] at isOld
    subst isOld
    refine ⟨space.marked space.pml4, ?_, isSealed.forkParent forked user rfl⟩
    rw [forked_spaces, if_neg notChild, if_pos isParent]
  · refine ⟨old, ?_, ?_⟩
    · rw [forked_spaces, if_neg notChild, if_neg isParent]
      exact isOld
    · exact isSealed.samePage
        (governing.rooted.fork_elsewhere found fresh forked isOld isParent user)

/-- A page that stays read-only unless a call of its process names it. -/
theorem step (effect : machine.SpaceEffect call after) (unnamed : ¬machine.Names call pid number) :
    after.ReadOnly pid number := by
  cases effect with
  | retain _ same _ =>
    rcases readOnly with ⟨space, found, isSealed⟩
    exact ⟨space, found, isSealed.samePage (same (isRoot found) user)⟩
  | spawn absent creates _ =>
    apply readOnly.replaceOther
    · intro isNew
      rcases readOnly with ⟨space, found, _⟩
      rw [isNew, absent] at found
      cases found
    · intro space found
      exact creates.old (isRoot found) user
  | confined found footprint _ named =>
    exact readOnly.confined governing user found footprint (named number) unnamed
  | fork found absent fresh forked =>
    exact readOnly.fork governing user found absent fresh forked
  | @protect caller addr len prot space next found clear reflags _ =>
    by_cases isCaller : pid = caller
    · subst isCaller
      rcases readOnly with ⟨old, isOld, isSealed⟩
      rw [found, Option.some.injEq] at isOld
      subst isOld
      have spared : prot.write = false ∨ ¬Touched addr (pageCount len) number := by
        rw [← Bool.not_eq_true, ← not_and_or]
        exact fun both => unnamed ⟨rfl, both.1, both.2⟩
      refine ⟨_, ?_, isSealed.mprotect (isRoot found) clear reflags user
        (governing.governed found).arranged spared⟩
      rw [replace_spaces, if_pos rfl]
    · apply readOnly.replaceOther isCaller
      intro other isOther
      exact reflags.outside (isRoot isOther) user
        fun both => isCaller (governing.rooted.distinct isOther found both.1)

/-- The child that a fork creates has the page read-only too. -/
theorem inherit {child : Nat} (effect : machine.SpaceEffect (.memory (.fork pid child)) after)
    (absent : machine.spaces child = none) (born : after.spaces child ≠ none) :
    after.ReadOnly child number := by
  cases effect with
  | retain => exact absurd absent born
  | confined found _ _ _ =>
    rw [replace_spaces, if_neg] at born
    · exact absurd absent born
    · intro isCaller
      rw [← isCaller, absent] at found
      cases found
  | fork found _ _ forked =>
    rcases readOnly with ⟨old, isOld, isSealed⟩
    rw [found, Option.some.injEq] at isOld
    subst isOld
    refine ⟨_, ?_, isSealed.forkChild forked user (governing.governed found).arranged⟩
    rw [forked_spaces, if_pos rfl]

end

end ReadOnly

/-- The pages that `mprotect` made read-only in the course of the run and that their
process has not named since. A child gets them from its parent. -/
inductive MadeReadOnly : Machine allocator → Nat → Nat → Prop
  | protect {machine next : Machine allocator} {cpu pid addr len number : Nat} {prot : Prot}
      {space : AddressSpace} {entry : PageTableEntry}
      (reachable : guardedSpaces.Reachable machine)
      (step : machine.GuardedStep (cpu, .protect pid (.mprotect addr len prot)) next)
      (noWrite : prot.write = false) (touched : Touched addr (pageCount len) number)
      (mapped : machine.Mapped pid number space entry) : MadeReadOnly next pid number
  | keep {machine next : Machine allocator} {label : Nat × SpaceCall} {pid number : Nat}
      (made : MadeReadOnly machine pid number) (step : machine.GuardedStep label next)
      (unnamed : ¬(machine.onCpu label.1).Names label.2 pid number) :
      MadeReadOnly next pid number
  | inherit {machine next : Machine allocator} {cpu pid child number : Nat}
      (made : MadeReadOnly machine pid number)
      (step : machine.GuardedStep (cpu, .memory (.fork pid child)) next)
      (absent : machine.spaces child = none) (born : next.spaces child ≠ none) :
      MadeReadOnly next child number

theorem Governing.protect_readOnly {number : Nat} {entry : PageTableEntry}
    (governing : machine.Governing)
    (heedful : machine.Heedful (.protect pid (.mprotect addr len prot)))
    (taken : machine.protect pid (.mprotect addr len prot) = some after)
    (noWrite : prot.write = false) (touched : Touched addr (pageCount len) number)
    (mapped : machine.Mapped pid number space entry) : after.ReadOnly pid number := by
  rcases mprotect_taken governing.rooted.layout heedful taken with
    ⟨caller, next, found, clear, reflags, _, same⟩
  rw [mapped.owner, Option.some.injEq] at found
  subst found
  have present : machine.memory.page space.pml4 number ≠ none := by
    rw [mapped.present]
    exact some_ne_none entry
  rw [same]
  refine ⟨_, ?_, Sealed.protect clear reflags mapped.user
    (governing.governed mapped.owner).arranged noWrite touched present⟩
  rw [replace_spaces, if_pos rfl]

theorem MadeReadOnly.readOnly {number : Nat} (made : machine.MadeReadOnly pid number) :
    guardedSpaces.Reachable machine ∧ number < userPages ∧ machine.ReadOnly pid number := by
  induction made with
  | @protect machine _ cpu _ _ _ _ _ _ _ reachable step noWrite touched mapped =>
    have governing := (guarded_governing reachable).onCpu cpu
    refine ⟨reachable.step step, mapped.user, ?_⟩
    exact governing.protect_readOnly step.heedful step.taken noWrite touched
      ⟨mapped.owner, mapped.user, mapped.present⟩
  | @keep machine _ label _ _ _ step unnamed induction =>
    rcases induction with ⟨reachable, user, readOnly⟩
    have governing := guarded_governing reachable
    refine ⟨reachable.step step, user, ?_⟩
    exact (readOnly.onCpu label.1).step (governing.onCpu label.1) user (governing.guarded step)
      unnamed
  | @inherit machine _ cpu _ _ _ _ step absent born induction =>
    rcases induction with ⟨reachable, user, readOnly⟩
    have governing := guarded_governing reachable
    refine ⟨reachable.step step, user, ?_⟩
    exact (readOnly.onCpu cpu).inherit (governing.onCpu cpu) user (governing.guarded step) absent
      born

/-- Write faults ask for the permission of the region. -/
structure WritesChecked (machine : Machine allocator) : Prop where
  permitted : ∀ {cpu pid space addr handled next}, machine.spaces pid = some space →
    addr < userTop →
    space.handleCowFault (machine.onCpu cpu).memory addr = some (handled, next) →
    handled = true ∨ next.page space.pml4 (addr / 4096) ≠
      machine.memory.page space.pml4 (addr / 4096) →
    ∃ region, space.findRegion addr = some region ∧ region.prot.write = true
  refused : ∀ {pid number}, machine.MadeReadOnly pid number →
    ∃ space, machine.spaces pid = some space ∧
      (∀ entry, machine.memory.page space.pml4 number = some entry →
        entry.flags.writable = false) ∧
      ∀ cpu addr, addr / 4096 = number →
        space.handleCowFault (machine.onCpu cpu).memory addr =
          some (false, (machine.onCpu cpu).memory)

theorem guarded_writes_checked (reachable : guardedSpaces.Reachable machine) :
    machine.WritesChecked where
  permitted := by
    intro cpu pid space addr handled next found user called changed
    have governing := (guarded_governing reachable).onCpu cpu
    have governed := governing.governed found
    have effect := handleCowFault_effect governing.rooted.layout (isRoot found) user called
    cases effect with
    | ignored =>
      rcases changed with impossible | impossible
      · cases impossible
      · exact absurd rfl impossible
    | takenOver present isCow | starved present isCow | copied present isCow =>
      exact governed.writable user present isCow
  refused := by
    intro pid number made
    rcases made.readOnly with ⟨_, isUser, space, found, isSealed⟩
    refine ⟨space, found, isSealed.page, ?_⟩
    intro cpu addr same
    subst same
    have governed := ((guarded_governing reachable).onCpu cpu).governed found
    have user : addr < userTop := by
      rw [userPages_eq] at isUser
      rw [userTop_eq]
      omega
    exact Sealed.refuses ⟨isSealed.region, isSealed.page⟩ governed user

/-! ## A heap page made read-only -/

def obey (machine : Machine allocator) (call : SpaceCall) : Machine allocator :=
  ((machine.onCpu 0).perform call).getD machine

theorem obey_taken (succeeds : ((machine.onCpu 0).perform call).isSome = true) :
    (machine.onCpu 0).perform call = some (machine.obey call) := by
  rcases isSome_iff_exists.mp succeeds with ⟨next, taken⟩
  rw [obey, taken, getD_some]

theorem obey_memory (machine : Machine allocator) (call : MemoryCall) :
    machine.obey (.memory call) = machine.advance call := rfl

theorem guarded_obey (reachable : guardedSpaces.Reachable machine) (few : machine.FewSharers)
    (fed : (machine.onCpu 0).WellFed call) (heedful : (machine.onCpu 0).Heedful call)
    (succeeds : ((machine.onCpu 0).perform call).isSome = true) :
    guardedSpaces.Reachable (machine.obey call) :=
  reachable.step (⟨few, fed, heedful, obey_taken succeeds⟩ :
    machine.GuardedStep (0, call) (machine.obey call))

theorem onePage_guarded : guardedSpaces.Reachable onePage := by
  have spawned : guardedSpaces.Reachable (sixteenFrames.advance (.spawn 1 0)) := by
    rw [← obey_memory]
    apply guarded_obey (.initial sixteenFrames_started) sixteenFrames_started.unshared.few
    · trivial
    · trivial
    · decide +kernel
  rw [onePage, ← obey_memory _ (.brk _ _)]
  apply guarded_obey spawned spawned_solo.unshared.few
  · trivial
  · intro space found
    exact .inr (brkClear_empty (spawned_regions found) (by decide))
  · decide +kernel

theorem Unshared.mprotect (unshared : machine.Unshared)
    (layout : machine.memory.Layout machine.roots)
    (heedful : machine.Heedful (.protect pid (.mprotect addr len prot)))
    (taken : machine.protect pid (.mprotect addr len prot) = some after) : after.Unshared := by
  rcases mprotect_taken layout heedful taken with ⟨space, next, found, _, reflags, _, same⟩
  have sameRoots : after.roots = machine.roots := by
    rw [same]
    exact replace_roots found rfl
  constructor
  intro root number entry isRoot user present holder isHolder
  rw [sameRoots] at isRoot isHolder
  rw [same] at present isHolder
  have wasMapped : machine.memory.Maps machine.roots entry.frame (root, number) :=
    reflags.maps ⟨isRoot, user, entry, present, rfl⟩
  rcases wasMapped with ⟨_, _, old, wasPresent, sameFrame⟩
  exact unshared.sole isRoot user wasPresent holder (sameFrame.symm ▸ reflags.maps isHolder)

def lockHeap : SpaceCall := .protect 1 (.mprotect initialBrkStart 4096 ⟨true, false, false⟩)

theorem lockHeap_heedful : (onePage.onCpu 0).Heedful lockHeap := by
  intro space found
  have regions : ((onePage.onCpu 0).spaces 1).map AddressSpace.regions =
      some [heapRegion initialBrkStart (initialBrkStart + 4096)] := by decide +kernel
  rw [found, map_some, Option.some.injEq] at regions
  refine ⟨by decide, by decide, ?_, ?_⟩
  · intro _ region member _
    rw [regions, List.mem_singleton] at member
    rw [member]
    decide
  · intro _ number touched _
    refine ⟨_, regions ▸ List.mem_singleton_self _, ?_⟩
    have one : pageCount 4096 = 1 := by decide
    have aligned : initialBrkStart % 4096 = 0 := by decide
    rw [touched_number (by decide)] at touched
    simp only [VmaRegion.Covers, heapRegion]
    omega

def lockedPage : Machine Phys.allocator := onePage.obey lockHeap

theorem lockHeap_step : onePage.GuardedStep (0, lockHeap) lockedPage :=
  ⟨onePage_solo.unshared.few, trivial, lockHeap_heedful, obey_taken (by decide +kernel)⟩

def lockedChild : Machine Phys.allocator := lockedPage.obey (.memory (.fork 1 2))

theorem fork_step : lockedPage.GuardedStep (0, .memory (.fork 1 2)) lockedChild := by
  have layout := ((guarded_governing onePage_guarded).onCpu 0).rooted.layout
  have unshared := (onePage_solo.unshared.onCpu 0).mprotect layout lockHeap_heedful
    lockHeap_step.taken
  exact ⟨unshared.few, trivial, trivial, obey_taken (by decide +kernel)⟩

theorem lockedChild_made : lockedChild.MadeReadOnly 2 (initialBrkStart / 4096) := by
  have mapped : ∃ space entry, onePage.Mapped 1 (initialBrkStart / 4096) space entry := by
    have present : (onePage.entry 1 initialBrkStart).isSome = true := by decide +kernel
    rcases isSome_iff_exists.mp present with ⟨entry, found⟩
    rcases bind_eq_some_iff.mp found with ⟨space, owner, isEntry⟩
    exact ⟨space, entry, owner, by decide, isEntry⟩
  rcases mapped with ⟨space, entry, isMapped⟩
  have made : lockedPage.MadeReadOnly 1 (initialBrkStart / 4096) :=
    .protect onePage_guarded lockHeap_step rfl ⟨0, by decide, by decide⟩ isMapped
  have absent : (lockedPage.spaces 2).isNone = true := by decide +kernel
  have born : (lockedChild.spaces 2).isSome = true := by decide +kernel
  apply made.inherit fork_step (Option.isNone_iff_eq_none.mp absent)
  rcases isSome_iff_exists.mp born with ⟨child, isChild⟩
  rw [isChild]
  exact some_ne_none child

/-- The page stays read-only in a child of the process that called `mprotect`. -/
theorem guarded_writes_checked_child :
    guardedSpaces.Reachable lockedChild ∧
    lockedChild.MadeReadOnly 2 (initialBrkStart / 4096) ∧
    lockedChild.entry 2 initialBrkStart = some ⟨270, ⟨false, true, false, true⟩⟩ ∧
    lockedChild.WritesChecked :=
  ⟨lockedChild_made.readOnly.1, lockedChild_made, by decide +kernel,
    guarded_writes_checked lockedChild_made.readOnly.1⟩

theorem open_obey (reachable : openSpaces.Reachable machine)
    (succeeds : ((machine.onCpu 0).perform call).isSome = true) :
    openSpaces.Reachable (machine.obey call) := by
  have taken : openSpaces.Step machine (0, call) (machine.obey call) := obey_taken succeeds
  exact reachable.step taken

/-- `mprotect` after the fork: the page loses its mark, its region keeps the mark, and
the next write fault makes the page writable. -/
theorem mprotect_write_through :
    ∃ before machine : Machine Phys.allocator, openSpaces.Reachable before ∧
      (before.onCpu 0).perform lockHeap = some machine ∧
      machine.entry 1 initialBrkStart = some ⟨270, ⟨false, true, false, true⟩⟩ ∧
      ((machine.spaces 1).bind fun space => space.findRegion initialBrkStart).map
        (fun region => (region.prot, region.cow)) = some (⟨true, false, false⟩, true) ∧
      ((machine.spaces 1).bind fun space =>
        space.handleCowFault machine.memory initialBrkStart).map Prod.fst = some true ∧
      ((machine.obey (.memory (.writeFault 1 initialBrkStart))).entry 1 initialBrkStart).map
        (fun entry => entry.flags.writable) = some true := by
  have reachable : openSpaces.Reachable forkedPage := by
    have start : openSpaces.Reachable sixteenFrames := .initial sixteenFrames_started
    have spawned := @open_obey _ _ (.memory (.spawn 1 0)) start (by decide +kernel)
    have grown := @open_obey _ _ (.memory (.brk 1 (initialBrkStart + 4096))) spawned
      (by decide +kernel)
    simp only [forkedPage, onePage, ← obey_memory]
    exact open_obey grown (by decide +kernel)
  exact ⟨forkedPage, forkedPage.obey lockHeap, reachable, obey_taken (by decide +kernel),
    by decide +kernel, by decide +kernel, by decide +kernel, by decide +kernel⟩

end Machine

end Qunix.Memory.Vmm
