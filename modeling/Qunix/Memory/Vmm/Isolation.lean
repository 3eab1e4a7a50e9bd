import Qunix.Memory.Vmm.Machine

/-! # Private memory stays private

In a run of confined calls no process can store to a page of another process's
private memory. The run at the end shows what an overlap of a shared region with
the heap does.
-/

namespace Qunix.Memory.Vmm.Machine

open Foundation Arch MemoryState AddressSpace Option TransitionSystem.Reachable

variable {allocator : FrameAllocator} {machine : Machine allocator}

/-- A frame of a private page that a second process maps is writable in neither,
and no store of another process changes what is read from a private page. -/
structure Isolated (machine : Machine allocator) : Prop where
  guarded : ∀ {left right leftNumber rightNumber leftSpace rightSpace leftEntry rightEntry},
    machine.Mapped left leftNumber leftSpace leftEntry →
    machine.Mapped right rightNumber rightSpace rightEntry →
    left ≠ right → leftEntry.frame = rightEntry.frame → leftSpace.Private leftNumber →
    leftEntry.flags.writable = false ∧ rightEntry.flags.writable = false
  unseen : ∀ {pid addr byte next}, machine.exec (.store pid addr byte) = some next →
    ∀ {reader space address}, reader ≠ pid → machine.spaces reader = some space →
      address < userTop → space.Private (address / 4096) →
      next.load reader address = machine.load reader address

variable {address pid : Nat} {space : AddressSpace} {byte : UInt8} {next : MemoryState allocator}
  {call : MemoryCall}

variable {frame reader : Nat} {nextSpace : AddressSpace}

theorem load_poke {offset : Nat} {entry : PageTableEntry}
    (found : machine.entry reader address = some entry) (different : entry.frame ≠ frame) :
    (machine.poke frame offset byte).load reader address = machine.load reader address := by
  have same : (machine.poke frame offset byte).entry reader address =
      machine.entry reader address := rfl
  have bytes : (machine.poke frame offset byte).memory.bytes entry.frame =
      machine.memory.bytes entry.frame := Function.update_of_ne different _ _
  rw [load, load, same, found, map_some, map_some, bytes]

/-- A store is not read through a page whose frame the writer cannot write. -/
theorem load_store {addr : Nat} {next : Machine allocator}
    (taken : machine.exec (.store pid addr byte) = some next)
    (owner : machine.spaces reader = some space) (user : address < userTop)
    (guarded : ∀ {writerNumber writerSpace writerEntry entry},
      machine.Mapped pid writerNumber writerSpace writerEntry →
      machine.Mapped reader (address / 4096) space entry →
      entry.frame = writerEntry.frame → writerEntry.flags.writable = false) :
    next.load reader address = machine.load reader address := by
  rcases store_some taken with ⟨writerSpace, written, mapped, writable, same⟩
  subst same
  cases found : machine.entry reader address with
  | none =>
    have absent : (machine.poke written.frame (addr % 4096) byte).entry reader address =
        none := found
    rw [load, load, found, absent]
    rfl
  | some entry =>
    apply load_poke found
    intro shared
    have protection := guarded mapped (entry_mapped owner user found) shared
    rw [writable] at protection
    cases protection

theorem Safe.isolated (safe : machine.Safe) : machine.Isolated := by
  have guarded : ∀ {left right leftNumber rightNumber leftSpace rightSpace leftEntry rightEntry},
      machine.Mapped left leftNumber leftSpace leftEntry →
      machine.Mapped right rightNumber rightSpace rightEntry →
      left ≠ right → leftEntry.frame = rightEntry.frame → leftSpace.Private leftNumber →
      leftEntry.flags.writable = false ∧ rightEntry.flags.writable = false := by
    intro left right leftNumber rightNumber leftSpace rightSpace leftEntry rightEntry
      leftMapped rightMapped different shared isPrivate
    have apart : (left, leftNumber) ≠ (right, rightNumber) :=
      fun same => different (Prod.mk.inj same).1
    have otherPrivate := (safe.nature leftMapped rightMapped apart shared).mp isPrivate
    exact ⟨safe.guarded leftMapped rightMapped apart shared isPrivate,
      safe.guarded rightMapped leftMapped apart.symm shared.symm otherPrivate⟩
  refine ⟨guarded, ?_⟩
  intro pid addr byte next taken reader space address different owner user isPrivate
  apply load_store taken owner user
  intro writerNumber writerSpace writerEntry entry writes reads shared
  exact (guarded reads writes different shared isPrivate).2

/-- In a run all of whose calls are confined, private memory is isolated. -/
theorem confined_isolated (reachable : confinedSystem.Reachable machine) :
    machine.Isolated :=
  (confined_safe reachable).isolated

/-! ## Machines before their first fork -/

structure Unshared (machine : Machine allocator) : Prop where
  sole : ∀ {root number entry}, machine.roots root → number < userPages →
    machine.memory.page root number = some entry →
    machine.memory.Sole machine.roots root number entry.frame

theorem Unshared.few (unshared : machine.Unshared) : machine.FewSharers := by
  intro frame
  by_cases mapped : ∃ holder, machine.memory.Maps machine.roots frame holder
  · rcases mapped with ⟨first, isRoot, user, entry, present, sameFrame⟩
    refine ⟨{first}, ?_, by rw [Finset.card_singleton]; decide⟩
    intro holder isHolder
    have sole := unshared.sole isRoot user present
    rw [sameFrame] at sole
    rw [Finset.mem_singleton]
    exact sole holder isHolder
  · refine ⟨∅, ?_, by rw [Finset.card_empty]; decide⟩
    intro holder isHolder
    exact absurd ⟨holder, isHolder⟩ mapped

theorem Started.unshared (started : machine.Started) : machine.Unshared := by
  constructor
  intro root number entry isRoot
  rcases isRoot with ⟨pid, space, owner, _⟩
  rw [started.spaces] at owner
  cases owner

theorem Unshared.spawn (unshared : machine.Unshared) (absent : machine.spaces pid = none)
    (creates : Creates machine.memory next machine.roots space.pml4) :
    (machine.replace pid space next).Unshared := by
  constructor
  intro root number entry isRoot user present holder isHolder
  rw [replace_roots_new absent] at isRoot isHolder
  have wasHolder := creates.maps isHolder
  rcases isRoot with isRoot | isNew
  · exact unshared.sole isRoot user ((creates.old isRoot user).symm.trans present) holder wasHolder
  · have none := creates.new user
    rw [← isNew] at none
    cases present.symm.trans none

theorem Unshared.refresh (unshared : machine.Unshared) (found : machine.spaces pid = some space)
    (root : nextSpace.pml4 = space.pml4)
    (refreshes : Refreshes machine.memory next machine.roots space.pml4) :
    (machine.replace pid nextSpace next).Unshared := by
  have sameRoots : (machine.replace pid nextSpace next).roots = machine.roots :=
    replace_roots found root
  have alone : ∀ {number entry}, number < userPages →
      next.page space.pml4 number = some entry →
      next.Sole machine.roots space.pml4 number entry.frame := by
    intro number entry user present
    rcases refreshes.here user present with kept | sole
    · exact refreshes.sole user present (unshared.sole (Machine.isRoot found) user kept)
    · exact sole
  constructor
  intro other number entry isOther user present
  rw [sameRoots] at isOther ⊢
  by_cases isSpace : other = space.pml4
  · subst isSpace
    exact alone user present
  have before := present
  rw [replace, refreshes.elsewhere isOther user isSpace] at before
  intro holder isHolder
  rcases isHolder with ⟨isRoot, holderUser, value, holderPresent, sameFrame⟩
  by_cases holderSpace : holder.1 = space.pml4
  · rw [holderSpace] at holderPresent
    have same := alone holderUser holderPresent (other, number)
      ⟨isOther, user, entry, present, sameFrame.symm⟩
    exact absurd (Prod.mk.inj same).1 isSpace
  · rw [replace, refreshes.elsewhere isRoot holderUser holderSpace] at holderPresent
    exact unshared.sole isOther user before holder
      ⟨isRoot, holderUser, value, holderPresent, sameFrame⟩

theorem Unshared.onCpu (unshared : machine.Unshared) (cpu : Nat) :
    (machine.onCpu cpu).Unshared := ⟨unshared.sole⟩

theorem Effect.unshared {after : Machine allocator}
    (effect : machine.Effect call after) (unshared : machine.Unshared)
    (notFork : ∀ pid child, call ≠ .fork pid child) : after.Unshared := by
  cases effect with
  | retain _ same _ =>
    constructor
    intro root number entry isRoot user present holder isHolder
    rcases isHolder with ⟨isOther, otherUser, value, found, sameFrame⟩
    exact unshared.sole isRoot user ((same isRoot user).symm.trans present) holder
      ⟨isOther, otherUser, value, (same isOther otherUser).symm.trans found, sameFrame⟩
  | spawn absent creates _ => exact unshared.spawn absent creates
  | evolve found evolves => exact unshared.refresh found evolves.root evolves.refreshes
  | fork => exact absurd rfl (notFork _ _)

/-! ## A heap that grows over a shared mapping -/

def sixteenFrames : Machine Phys.allocator where
  memory :=
    { frames := Phys.allocator.freeRange Phys.emptyState 256 16
      cpu := 0
      tables := fun _ _ => none
      bytes := fun _ _ => 0
      refcounts := fun _ => 0 }
  spaces := fun _ => none

theorem sixteenFrames_started : sixteenFrames.Started where
  valid := (@FrameAllocator.freeRange_spec Phys.allocator _ 256 Phys.emptyState_valid (by decide)
    Phys.emptyState_taken 16 (by decide)).1
  spaces := fun _ => rfl

def advance (machine : Machine allocator) (call : MemoryCall) : Machine allocator :=
  ((machine.onCpu 0).exec call).getD machine

theorem advance_taken (succeeds : ((machine.onCpu 0).exec call).isSome = true) :
    (machine.onCpu 0).exec call = some (machine.advance call) := by
  rcases isSome_iff_exists.mp succeeds with ⟨next, taken⟩
  rw [advance, taken, getD_some]

/-- A confined run that has not forked. -/
structure Solo (machine : Machine allocator) : Prop where
  reachable : confinedSystem.Reachable machine
  unshared : machine.Unshared

theorem Solo.advance (solo : machine.Solo) (supplied : (machine.onCpu 0).Supplied call)
    (confined : (machine.onCpu 0).Confined call) (notFork : ∀ pid child, call ≠ .fork pid child)
    (succeeds : ((machine.onCpu 0).exec call).isSome = true) : (machine.advance call).Solo := by
  have taken := advance_taken succeeds
  have few := solo.unshared.few
  have safe := (confined_safe solo.reachable).onCpu 0
  have effect := safe.exec (safe.sound few) supplied.fed confined taken
  exact ⟨@step _ _ _ _ _ (0, call) solo.reachable
    ⟨confined, few, supplied, taken⟩, effect.unshared (solo.unshared.onCpu 0) notFork⟩

def onePage : Machine Phys.allocator :=
  (sixteenFrames.advance (.spawn 1 0)).advance (.brk 1 (initialBrkStart + 4096))

theorem spawned_solo : (sixteenFrames.advance (.spawn 1 0)).Solo := by
  have started : sixteenFrames.Solo :=
    ⟨.initial sixteenFrames_started, sixteenFrames_started.unshared⟩
  apply @Solo.advance _ _ (.spawn 1 0) started trivial trivial
  · intro pid child same
    cases same
  · decide +kernel

theorem spawned_regions
    (found : ((sixteenFrames.advance (.spawn 1 0)).onCpu 0).spaces 1 = some space) :
    space.regions = [] := by
  have regions : (((sixteenFrames.advance (.spawn 1 0)).onCpu 0).spaces 1).map
      AddressSpace.regions = some [] := by decide +kernel
  rw [found, map_some, Option.some.injEq] at regions
  exact regions

theorem onePage_solo : onePage.Solo := by
  apply @Solo.advance _ _ (.brk 1 (initialBrkStart + 4096)) spawned_solo trivial
  · intro space found
    refine ⟨by decide, ?_⟩
    rw [spawned_regions found]
    exact List.forall_mem_nil _
  · intro pid child same
    cases same
  · decide +kernel

def forkedPage : Machine Phys.allocator := onePage.advance (.fork 1 2)

theorem forkedPage_reachable : confinedSystem.Reachable forkedPage :=
  @step _ _ _ _ _ (0, .fork 1 2) onePage_solo.reachable
    ⟨trivial, onePage_solo.unshared.few, trivial, advance_taken (by decide +kernel)⟩

/-- The heap page is shared after a fork, and writable in neither process. -/
theorem confined_isolated_fork :
    confinedSystem.Reachable forkedPage ∧
    forkedPage.entry 1 initialBrkStart = some ⟨270, ⟨false, true, true, true⟩⟩ ∧
    forkedPage.entry 2 initialBrkStart = some ⟨270, ⟨false, true, true, true⟩⟩ ∧
    forkedPage.Isolated :=
  ⟨forkedPage_reachable, by decide +kernel, by decide +kernel,
    confined_isolated forkedPage_reachable⟩

/-- A shared page right after the heap, as a process may ask for it. -/
def overlaid : Machine Phys.allocator :=
  onePage.advance (.mmap 1 (some (initialBrkStart + 4096)) 4096 ⟨true, true, false⟩ 0x21 none)

theorem overlaid_solo : overlaid.Solo := by
  apply @Solo.advance _ _
    (.mmap 1 (some (initialBrkStart + 4096)) 4096 ⟨true, true, false⟩ 0x21 none)
    onePage_solo trivial
  · intro space found
    have place : ((onePage.onCpu 0).spaces 1).map (fun space => (space.mmapPlace
        (onePage.onCpu 0).memory (some (initialBrkStart + 4096)) 4096 0x21).1) =
        some (some (initialBrkStart + 4096)) := by decide +kernel
    have regions : ((onePage.onCpu 0).spaces 1).map (fun space => (space.mmapPlace
        (onePage.onCpu 0).memory (some (initialBrkStart + 4096)) 4096 0x21).2.1.regions) =
        some [⟨initialBrkStart, initialBrkStart + 4096, ⟨true, true, false⟩, .heap, mapPrivate,
          false⟩] := by decide +kernel
    rw [found, map_some, Option.some.injEq] at place regions
    refine ⟨by decide, ?_, ?_⟩
    · intro addr isPlace
      rw [place] at isPlace
      rw [← Option.some.inj isPlace]
      decide
    · intro addr isPlace region member
      rw [regions, List.mem_singleton] at member
      rw [place] at isPlace
      rw [← Option.some.inj isPlace, member]
      decide
  · intro pid child same
    cases same
  · decide +kernel

/-- The heap grows over the shared page, which `brk` does not look for. -/
def regrown : Machine Phys.allocator := overlaid.advance (.brk 1 (initialBrkStart + 8192))

theorem setBrk_refreshes {memory : MemoryState allocator} {roots : Nat → Prop}
    {newBrk answer : Nat} (sound : memory.Sound roots) (isRoot : roots space.pml4)
    (tidy : space.Tidy) (user : newBrk ≤ userTop) (larger : space.brk < newBrk)
    (called : space.setBrk memory newBrk = some (answer, nextSpace, next)) :
    nextSpace.pml4 = space.pml4 ∧ Refreshes memory next roots space.pml4 := by
  have ordered := tidy.brkOrdered
  have newBelow := alignUp_le user
  cases setBrk_effect tidy.heapBounds user called with
  | idle unmoved | shrunk _ smaller => omega
  | failed _ range populated | grown _ range populated =>
    exact ⟨rfl, mapRange_refreshes sound isRoot (by rw [range]; exact newBelow) populated⟩

theorem regrown_unshared : regrown.Unshared := by
  have solo := overlaid_solo
  have safe := (confined_safe solo.reachable).onCpu 0
  have taken : (overlaid.onCpu 0).exec (.brk 1 (initialBrkStart + 8192)) = some regrown :=
    advance_taken (by decide +kernel)
  rcases withSpace_map taken with ⟨space, ⟨answer, nextSpace, memory⟩, found, called, same⟩
  have small : ((overlaid.onCpu 0).spaces 1).map AddressSpace.brk =
      some (initialBrkStart + 4096) := by decide +kernel
  rw [found, map_some, Option.some.injEq] at small
  have sound := safe.sound (solo.unshared.onCpu 0).few
  rcases setBrk_refreshes sound (isRoot found) (safe.tidy found) (by decide) (by omega) called with
    ⟨root, refreshes⟩
  rw [same]
  exact (solo.unshared.onCpu 0).refresh found root refreshes

instance {region : VmaRegion} {number : Nat} : Decidable (region.Covers number) :=
  inferInstanceAs (Decidable (_ ∧ _))

instance {space : AddressSpace} {number : Nat} : Decidable (space.Private number) :=
  inferInstanceAs (Decidable (∃ region ∈ space.regions, _))

theorem not_isolated {left right : Nat} {rightEntry : PageTableEntry} (different : left ≠ right)
    (user : address < userTop)
    (isPrivate : (machine.spaces left).any (fun space => space.Private (address / 4096)) = true)
    (leftFrame : (machine.entry left address).map PageTableEntry.frame = some frame)
    (rightFound : machine.entry right address = some rightEntry)
    (shared : rightEntry.frame = frame) (writable : rightEntry.flags.writable = true) :
    ¬machine.Isolated := by
  intro isolated
  rw [any_eq_true] at isPrivate
  rcases isPrivate with ⟨leftSpace, leftOwner, covered⟩
  rw [map_eq_some_iff] at leftFrame
  rcases leftFrame with ⟨leftEntry, leftFound, leftShared⟩
  cases rightOwner : machine.spaces right with
  | none =>
    rw [Machine.entry, rightOwner] at rightFound
    cases rightFound
  | some rightSpace =>
    have protection := isolated.guarded (entry_mapped leftOwner user leftFound)
      (entry_mapped rightOwner user rightFound) different (leftShared.trans shared.symm)
      (of_decide_eq_true covered)
    rw [writable] at protection
    cases protection.2

/-- After a fork the child has the parent's second heap page writable, and what it
stores there the parent reads. -/
theorem overlap_not_isolated :
    ∃ machine : Machine Phys.allocator, system.Reachable machine ∧
      (machine.spaces 1).any (fun space => space.Private ((initialBrkStart + 4096) / 4096)) ∧
      (machine.entry 1 (initialBrkStart + 4096)).map PageTableEntry.frame = some 265 ∧
      machine.entry 2 (initialBrkStart + 4096) = some ⟨265, ⟨true, true, false, true⟩⟩ ∧
      machine.load 1 (initialBrkStart + 4096) = some 0 ∧
      (machine.advance (.store 2 (initialBrkStart + 4096) 7)).load 1 (initialBrkStart + 4096) =
        some 7 ∧
      ¬machine.Isolated := by
  have before : system.Reachable overlaid := by
    apply overlaid_solo.reachable.mono
    · intro state started
      exact started
    · intro state label next step
      exact step.2
  have grown : system.Reachable regrown :=
    @step _ _ _ _ _ (0, .brk 1 (initialBrkStart + 8192)) before
      ⟨overlaid_solo.unshared.few, trivial, advance_taken (by decide +kernel)⟩
  have forked : system.Reachable (regrown.advance (.fork 1 2)) :=
    @step _ _ _ _ _ (0, .fork 1 2) grown
      ⟨regrown_unshared.few, trivial, advance_taken (by decide +kernel)⟩
  have isPrivate : ((regrown.advance (.fork 1 2)).spaces 1).any
      (fun space => space.Private ((initialBrkStart + 4096) / 4096)) = true := by decide +kernel
  have leftFrame : ((regrown.advance (.fork 1 2)).entry 1 (initialBrkStart + 4096)).map
      PageTableEntry.frame = some 265 := by decide +kernel
  have rightEntry : (regrown.advance (.fork 1 2)).entry 2 (initialBrkStart + 4096) =
      some ⟨265, ⟨true, true, false, true⟩⟩ := by decide +kernel
  refine ⟨_, forked, isPrivate, leftFrame, rightEntry, by decide +kernel, by decide +kernel, ?_⟩
  exact not_isolated (by decide) (by decide) isPrivate leftFrame rightEntry rfl rfl

end Qunix.Memory.Vmm.Machine
