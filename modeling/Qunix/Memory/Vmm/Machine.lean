import Qunix.Foundation.Reachability
import Qunix.Memory.Vmm.CopyOnWrite

/-! # Runs of the memory system calls

Any number of processes fork, fault, map, unmap and move their breaks. A process
stores and loads through its own page table.
-/

namespace Qunix.Memory.Vmm

open Foundation Arch MemoryState AddressSpace

inductive MemoryCall
  | spawn (pid cr3 : Nat)
  | fork (pid child : Nat)
  | writeFault (pid addr : Nat)
  | mmap (pid : Nat) (hint : Option Nat) (len : Nat) (prot : Prot) (mapFlags : Nat)
      (fileData : Option (List UInt8))
  | munmap (pid addr len : Nat)
  | brk (pid newBrk : Nat)
  | store (pid addr : Nat) (byte : UInt8)

structure Machine (allocator : FrameAllocator) where
  memory : MemoryState allocator
  spaces : Nat → Option AddressSpace

namespace Machine

variable {allocator : FrameAllocator} (self : Machine allocator)

def roots (root : Nat) : Prop :=
  ∃ pid space, self.spaces pid = some space ∧ space.pml4 = root

def onCpu (cpu : Nat) : Machine allocator :=
  { self with memory := { self.memory with cpu := cpu } }

def replace (pid : Nat) (space : AddressSpace)
    (memory : MemoryState allocator) : Machine allocator where
  memory := memory
  spaces := Function.update self.spaces pid (some space)

def entry (pid addr : Nat) : Option PageTableEntry :=
  (self.spaces pid).bind fun space => self.memory.page space.pml4 (addr / 4096)

def load (pid addr : Nat) : Option UInt8 :=
  (self.entry pid addr).map fun entry => self.memory.bytes entry.frame (addr % 4096)

def poke (frame offset : Nat) (byte : UInt8) : Machine allocator :=
  { self with
    memory := { self.memory with
      bytes := Function.update self.memory.bytes frame
        (Function.update (self.memory.bytes frame) offset byte) } }

def withSpace (pid : Nat) (call : AddressSpace → Option (AddressSpace × MemoryState allocator)) :
    Option (Machine allocator) := do
  let space ← self.spaces pid
  let (space, memory) ← call space
  some (self.replace pid space memory)

/-- One call, or nothing if there is no such process, or if the kernel panics. A
store that the page table does not allow has no effect of its own: the page fault
is a call like the others. -/
def exec : MemoryCall → Option (Machine allocator)
  | .spawn pid cr3 =>
    match self.spaces pid, newUser self.memory cr3 with
    | some _, _ => none
    | none, (none, memory) => some { self with memory := memory }
    | none, (some space, memory) => some (self.replace pid space memory)
  | .fork pid child =>
    match self.spaces pid, self.spaces child with
    | some space, none =>
      match space.copyOnFork self.memory with
      | none => none
      | some (none, parent, memory) => some (self.replace pid parent memory)
      | some (some fresh, parent, memory) =>
        some ((self.replace pid parent memory).replace child fresh memory)
    | _, _ => none
  | .writeFault pid addr => self.withSpace pid fun space =>
    (space.handleCowFault self.memory addr).map fun result => (space, result.2)
  | .mmap pid hint len prot mapFlags fileData => self.withSpace pid fun space =>
    (space.mmapFull self.memory hint len prot mapFlags fileData).map Prod.snd
  | .munmap pid addr len => self.withSpace pid fun space =>
    some (space.munmap self.memory addr len)
  | .brk pid newBrk => self.withSpace pid fun space =>
    (space.setBrk self.memory newBrk).map Prod.snd
  | .store pid addr byte =>
    match self.entry pid addr with
    | none => none
    | some entry =>
      if addr < userTop ∧ entry.flags.writable ∧ entry.flags.user then
        some (self.poke entry.frame (addr % 4096) byte)
      else none

/-- A page that a write fault copies needs a frame. -/
def Supplied : MemoryCall → Prop
  | .writeFault .. => self.memory.allocFrame.1 ≠ none
  | _ => True

/-- Every frame has fewer than 65535 mappings. -/
def FewSharers : Prop :=
  ∀ frame, ∃ cover : Finset (Nat × Nat),
    (∀ holder, self.memory.Maps self.roots frame holder → holder ∈ cover) ∧
    cover.card < maxRefcount

/-- Calls happen on any CPU. -/
structure Step (machine : Machine allocator) (label : Nat × MemoryCall)
    (next : Machine allocator) : Prop where
  few : machine.FewSharers
  supplied : (machine.onCpu label.1).Supplied label.2
  taken : (machine.onCpu label.1).exec label.2 = some next

structure Started (machine : Machine allocator) : Prop where
  valid : allocator.Valid machine.memory.frames
  spaces : ∀ pid, machine.spaces pid = none

def system : TransitionSystem (Machine allocator) (Nat × MemoryCall) where
  Initial := Started
  Step := Step

/-- The call stays in the user half and puts no page under both a shared and a
private region. -/
def Confined : MemoryCall → Prop
  | .spawn .. => True
  | .fork .. => True
  | .writeFault _ addr => addr < userTop
  | .mmap pid hint len _ mapFlags _ => ∀ space, self.spaces pid = some space →
      space.MmapFits self.memory hint len mapFlags
  | .munmap _ addr len => addr + len ≤ userTop
  | .brk pid newBrk => ∀ space, self.spaces pid = some space → space.BrkFits newBrk
  | .store .. => True

def confinedSystem : TransitionSystem (Machine allocator) (Nat × MemoryCall) where
  Initial := Started
  Step := fun machine label next =>
    (machine.onCpu label.1).Confined label.2 ∧ machine.Step label next

/-! ## The invariant -/

structure Mapped (machine : Machine allocator) (pid number : Nat) (space : AddressSpace)
    (entry : PageTableEntry) : Prop where
  owner : machine.spaces pid = some space
  user : number < userPages
  present : machine.memory.page space.pml4 number = some entry

structure Safe (machine : Machine allocator) : Prop where
  layout : machine.memory.Layout machine.roots
  tallied : ∀ frame, Tallied machine.memory machine.roots frame
  distinct : ∀ {left right leftSpace rightSpace}, machine.spaces left = some leftSpace →
    machine.spaces right = some rightSpace → leftSpace.pml4 = rightSpace.pml4 → left = right
  tidy : ∀ {pid space}, machine.spaces pid = some space → space.Tidy
  backed : ∀ {pid space}, machine.spaces pid = some space → Backed machine.memory space
  nature : ∀ {left right leftNumber rightNumber leftSpace rightSpace leftEntry rightEntry},
    machine.Mapped left leftNumber leftSpace leftEntry →
    machine.Mapped right rightNumber rightSpace rightEntry →
    (left, leftNumber) ≠ (right, rightNumber) → leftEntry.frame = rightEntry.frame →
    (leftSpace.Private leftNumber ↔ rightSpace.Private rightNumber)
  guarded : ∀ {left right leftNumber rightNumber leftSpace rightSpace leftEntry rightEntry},
    machine.Mapped left leftNumber leftSpace leftEntry →
    machine.Mapped right rightNumber rightSpace rightEntry →
    (left, leftNumber) ≠ (right, rightNumber) → leftEntry.frame = rightEntry.frame →
    leftSpace.Private leftNumber → leftEntry.flags.writable = false

variable {machine : Machine allocator} {next : MemoryState allocator} {pid : Nat}
variable {space nextSpace : AddressSpace}

theorem tallied_of_sound {memory : MemoryState allocator} {roots : Nat → Prop}
    (sound : memory.Sound roots) (frame : Nat) : Tallied memory roots frame :=
  .inr (sound.counted frame)

theorem isRoot (found : machine.spaces pid = some space) : machine.roots space.pml4 :=
  ⟨pid, space, found, rfl⟩

theorem replace_spaces {other : Nat} :
    (machine.replace pid nextSpace next).spaces other =
      if other = pid then some nextSpace else machine.spaces other :=
  Function.update_apply ..

/-- The process keeps its root, so the roots stay the same. -/
theorem replace_roots (found : machine.spaces pid = some space)
    (root : nextSpace.pml4 = space.pml4) :
    (machine.replace pid nextSpace next).roots = machine.roots := by
  funext other
  apply propext
  simp only [roots, replace_spaces]
  constructor
  · intro isOther
    rcases isOther with ⟨owner, ownerSpace, owns, same⟩
    split at owns
    next =>
      rw [← Option.some.inj owns, root] at same
      exact ⟨pid, space, found, same⟩
    next => exact ⟨owner, ownerSpace, owns, same⟩
  · intro isOther
    rcases isOther with ⟨owner, ownerSpace, owns, same⟩
    by_cases isPid : owner = pid
    · rw [isPid, found] at owns
      rw [← Option.some.inj owns] at same
      exact ⟨pid, nextSpace, if_pos rfl, root.trans same⟩
    · exact ⟨owner, ownerSpace, by rw [if_neg isPid]; exact owns, same⟩

theorem replace_roots_new (absent : machine.spaces pid = none) :
    (machine.replace pid nextSpace next).roots = withRoot machine.roots nextSpace.pml4 := by
  funext other
  apply propext
  simp only [roots, withRoot, replace_spaces]
  constructor
  · intro isOther
    rcases isOther with ⟨owner, ownerSpace, owns, same⟩
    split at owns
    next =>
      rw [← Option.some.inj owns] at same
      exact .inr same.symm
    next => exact .inl ⟨owner, ownerSpace, owns, same⟩
  · intro isOther
    rcases isOther with ⟨owner, ownerSpace, owns, same⟩ | same
    · have notPid : owner ≠ pid := by
        intro isPid
        rw [isPid, absent] at owns
        cases owns
      exact ⟨owner, ownerSpace, by rw [if_neg notPid]; exact owns, same⟩
    · exact ⟨pid, nextSpace, if_pos rfl, same.symm⟩

/-! ## Page tables and counts

What the invariants of the runs have in common. -/

/-- The page tables are in order, no count is too low, and no two processes have the
same tables. -/
structure Rooted (machine : Machine allocator) : Prop where
  layout : machine.memory.Layout machine.roots
  tallied : ∀ frame, Tallied machine.memory machine.roots frame
  distinct : ∀ {left right leftSpace rightSpace}, machine.spaces left = some leftSpace →
    machine.spaces right = some rightSpace → leftSpace.pml4 = rightSpace.pml4 → left = right

theorem Safe.rooted (safe : machine.Safe) : machine.Rooted :=
  ⟨safe.layout, safe.tallied, safe.distinct⟩

namespace Rooted

section

variable (rooted : machine.Rooted)
include rooted

theorem sound (few : machine.FewSharers) :
    machine.memory.Sound machine.roots := by
  refine ⟨rooted.layout, ?_⟩
  intro frame
  rcases rooted.tallied frame with saturated | held
  · rcases few frame with ⟨cover, covers, small⟩
    exact ⟨cover, covers, by omega⟩
  · exact held

theorem retain (layout : next.Layout machine.roots)
    (same : ∀ {root number}, machine.roots root → number < userPages →
      next.page root number = machine.memory.page root number)
    (refcounts : next.refcounts = machine.memory.refcounts) :
    ({ machine with memory := next } : Machine allocator).Rooted := by
  refine ⟨layout, ?_, rooted.distinct⟩
  intro frame
  apply (rooted.tallied frame).imp
  · intro saturated
    rw [refcounts]
    exact saturated
  · intro held
    rw [refcounts]
    apply held.mono _ le_rfl
    intro holder isHolder
    rcases isHolder with ⟨isRoot, user, entry, present, sameFrame⟩
    exact ⟨isRoot, user, entry, (same isRoot user).symm.trans present, sameFrame⟩

theorem distinct_replace (own : ∀ {other otherSpace}, machine.spaces other = some otherSpace →
      otherSpace.pml4 = space.pml4 → other = pid) {left right : Nat}
    {leftSpace rightSpace : AddressSpace}
    (isLeft : (machine.replace pid space next).spaces left = some leftSpace)
    (isRight : (machine.replace pid space next).spaces right = some rightSpace)
    (sameRoot : leftSpace.pml4 = rightSpace.pml4) : left = right := by
  rw [replace_spaces] at isLeft isRight
  split at isLeft <;> split at isRight
  next leftPid rightPid => exact leftPid.trans rightPid.symm
  next leftPid _ =>
    cases isLeft
    exact leftPid.trans (own isRight sameRoot.symm).symm
  next rightPid =>
    cases isRight
    exact (own isLeft sameRoot).trans rightPid.symm
  next => exact rooted.distinct isLeft isRight sameRoot

theorem replace (found : machine.spaces pid = some space)
    (root : nextSpace.pml4 = space.pml4) (layout : next.Layout machine.roots)
    (tallied : ∀ frame, Tallied next machine.roots frame) :
    (machine.replace pid nextSpace next).Rooted := by
  have sameRoots : (machine.replace pid nextSpace next).roots = machine.roots :=
    replace_roots found root
  refine ⟨?_, ?_, ?_⟩
  · rw [sameRoots]
    exact layout
  · rw [sameRoots]
    exact tallied
  · exact rooted.distinct_replace fun isOther same =>
      rooted.distinct isOther found (same.trans root)

theorem spawn (absent : machine.spaces pid = none)
    (creates : Creates machine.memory next machine.roots space.pml4) :
    (machine.replace pid space next).Rooted := by
  have newRoots : (machine.replace pid space next).roots =
      withRoot machine.roots space.pml4 := replace_roots_new absent
  refine ⟨?_, ?_, ?_⟩
  · rw [newRoots]
    exact creates.layout
  · intro frame
    rw [newRoots]
    apply (rooted.tallied frame).imp
    · intro saturated
      exact (congrFun creates.refcounts frame).symm ▸ saturated
    · intro held
      apply held.mono (fun _ isHolder => creates.maps isHolder)
      exact le_of_eq (congrFun creates.refcounts frame).symm
  · exact rooted.distinct_replace fun isOther same =>
      absurd (same ▸ isRoot isOther) creates.fresh

end

end Rooted

theorem Safe.sound (safe : machine.Safe) (few : machine.FewSharers) :
    machine.memory.Sound machine.roots :=
  safe.rooted.sound few

/-! ## One address space changes -/

section Evolve

variable (safe : machine.Safe) (found : machine.spaces pid = some space)
variable (evolves : Evolves machine.memory space next nextSpace machine.roots)

include safe found evolves

theorem replace_origin {left right leftNumber rightNumber : Nat}
    {leftSpace rightSpace : AddressSpace} {leftEntry rightEntry : PageTableEntry}
    (leftMapped : (machine.replace pid nextSpace next).Mapped left leftNumber leftSpace leftEntry)
    (rightMapped :
      (machine.replace pid nextSpace next).Mapped right rightNumber rightSpace rightEntry)
    (different : (left, leftNumber) ≠ (right, rightNumber))
    (shared : leftEntry.frame = rightEntry.frame) :
    ∃ oldSpace, machine.Mapped left leftNumber oldSpace leftEntry ∧
      (leftSpace.Private leftNumber ↔ oldSpace.Private leftNumber) := by
  rcases leftMapped with ⟨isLeft, user, present⟩
  rw [replace_spaces] at isLeft
  split at isLeft
  next isPid =>
    subst isPid
    rw [← Option.some.inj isLeft] at present ⊢
    rw [evolves.root] at present
    rcases evolves.here user present with ⟨kept, same⟩ | sole
    · exact ⟨space, ⟨found, user, kept⟩, same⟩
    · -- no other page can map the frame of a page that was just filled
      rcases rightMapped with ⟨isRight, rightUser, rightPresent⟩
      have isHolder : next.Maps machine.roots leftEntry.frame
          (rightSpace.pml4, rightNumber) := by
        refine ⟨?_, rightUser, rightEntry, rightPresent, shared.symm⟩
        rw [← replace_roots found evolves.root]
        exact @Machine.isRoot _ (machine.replace left nextSpace next) _ _ isRight
      have same := Prod.mk.inj (sole _ isHolder)
      rw [replace_spaces] at isRight
      split at isRight
      next isLeftAgain => exact absurd (by rw [isLeftAgain, same.2]) different
      next notLeft => exact absurd (safe.distinct isRight found same.1) notLeft
  next notPid =>
    rw [replace, evolves.elsewhere (Machine.isRoot isLeft) user
      fun same => notPid (safe.distinct isLeft found same)] at present
    exact ⟨leftSpace, ⟨isLeft, user, present⟩, Iff.rfl⟩

theorem Safe.replace : (machine.replace pid nextSpace next).Safe := by
  have rooted := safe.rooted.replace found evolves.root evolves.sound.layout
    (tallied_of_sound evolves.sound)
  have origin := @replace_origin _ _ _ _ _ _ safe found evolves
  refine ⟨rooted.layout, rooted.tallied, rooted.distinct, ?_, ?_, ?_, ?_⟩
  · intro other otherSpace isOther
    rw [replace_spaces] at isOther
    split at isOther
    next => exact Option.some.inj isOther ▸ evolves.tidy
    next => exact safe.tidy isOther
  · intro other otherSpace isOther
    rw [replace_spaces] at isOther
    split at isOther
    next => exact Option.some.inj isOther ▸ evolves.backed
    next notPid =>
      apply (safe.backed isOther).mono
      intro number entry user present
      exact (evolves.elsewhere (Machine.isRoot isOther) user
        fun same => notPid (safe.distinct isOther found same)).symm.trans present
  · intro _ _ _ _ _ _ _ _ leftMapped rightMapped different shared
    rcases origin leftMapped rightMapped different shared with ⟨oldLeft, wasLeft, leftNature⟩
    rcases origin rightMapped leftMapped different.symm shared.symm with
      ⟨oldRight, wasRight, rightNature⟩
    rw [leftNature, rightNature]
    exact safe.nature wasLeft wasRight different shared
  · intro _ _ _ _ _ _ _ _ leftMapped rightMapped different shared isPrivate
    rcases origin leftMapped rightMapped different shared with ⟨oldLeft, wasLeft, leftNature⟩
    rcases origin rightMapped leftMapped different.symm shared.symm with ⟨oldRight, wasRight, _⟩
    exact safe.guarded wasLeft wasRight different shared (leftNature.mp isPrivate)

end Evolve

/-! ## New processes -/

/-- A machine keeps the invariant when it maps nothing that was not mapped before. -/
theorem Safe.of_origin {after : Machine allocator} (safe : machine.Safe) (rooted : after.Rooted)
    (tidy : ∀ {pid space}, after.spaces pid = some space → space.Tidy)
    (origin : ∀ {pid number space entry}, after.Mapped pid number space entry →
      machine.Mapped pid number space entry) : after.Safe := by
  refine ⟨rooted.layout, rooted.tallied, rooted.distinct, tidy, ?_, ?_, ?_⟩
  · intro pid space owner
    constructor
    · intro number entry user present
      have old := origin ⟨owner, user, present⟩
      exact (safe.backed old.owner).covered user old.present
    · intro number entry user present
      have old := origin ⟨owner, user, present⟩
      exact (safe.backed old.owner).writable user old.present
  · intro _ _ _ _ _ _ _ _ left right
    exact safe.nature (origin left) (origin right)
  · intro _ _ _ _ _ _ _ _ left right
    exact safe.guarded (origin left) (origin right)

/-- The invariant reads the memory through the user pages and the counts only. -/
theorem Safe.retain (safe : machine.Safe) (layout : next.Layout machine.roots)
    (same : ∀ {root number}, machine.roots root → number < userPages →
      next.page root number = machine.memory.page root number)
    (refcounts : next.refcounts = machine.memory.refcounts) :
    ({ machine with memory := next } : Machine allocator).Safe := by
  apply safe.of_origin (safe.rooted.retain layout same refcounts) safe.tidy
  intro pid number space entry mapped
  exact ⟨mapped.owner, mapped.user,
    (same (isRoot mapped.owner) mapped.user).symm.trans mapped.present⟩

theorem Rooted.onCpu (rooted : machine.Rooted) (cpu : Nat) : (machine.onCpu cpu).Rooted :=
  ⟨rooted.layout.transfer rfl rfl, rooted.tallied, rooted.distinct⟩

theorem Safe.onCpu (safe : machine.Safe) (cpu : Nat) : (machine.onCpu cpu).Safe :=
  safe.retain (safe.layout.transfer rfl rfl) (fun _ _ => rfl) rfl

theorem tidy_new (root : Nat) :
    (⟨root, [], initialBrkStart, initialBrkStart, initialMmapBase⟩ : AddressSpace).Tidy := by
  have aligned : initialBrkStart % 4096 = 0 ∧ initialMmapBase % 4096 = 0 := by decide
  have below : initialBrkStart ≤ userTop := by decide
  exact ⟨nofun, nofun, nofun, nofun, aligned.1, le_rfl, below, aligned.2⟩

/-- The new process has no pages that could share a frame. -/
theorem Safe.spawn (safe : machine.Safe) (absent : machine.spaces pid = none)
    (creates : Creates machine.memory next machine.roots space.pml4)
    (empty : space = ⟨space.pml4, [], initialBrkStart, initialBrkStart, initialMmapBase⟩) :
    (machine.replace pid space next).Safe := by
  apply safe.of_origin (safe.rooted.spawn absent creates)
  · intro other otherSpace owner
    rw [replace_spaces] at owner
    split at owner
    next =>
      rw [← Option.some.inj owner, empty]
      exact tidy_new _
    next => exact safe.tidy owner
  · intro other number otherSpace entry mapped
    rcases mapped with ⟨owner, user, present⟩
    rw [replace_spaces] at owner
    split at owner
    next =>
      have none := creates.new user
      rw [Option.some.inj owner] at none
      cases present.symm.trans none
    next => exact ⟨owner, user, (creates.old (isRoot owner) user).symm.trans present⟩

/-! ## Fork -/

section Fork

variable {child root : Nat}
variable (safe : machine.Safe) (found : machine.spaces pid = some space)
variable (absent : machine.spaces child = none) (fresh : ¬machine.roots root)
variable (forked : Forked machine.memory next (withRoot machine.roots root) space.pml4 root
  fun region number => region ∈ space.regions ∧ region.Covers number)

/-- The machine after a fork: both sides have the marked regions. -/
def forkedMachine (machine : Machine allocator) (pid child root : Nat) (space : AddressSpace)
    (next : MemoryState allocator) : Machine allocator :=
  (machine.replace pid (space.marked space.pml4) next).replace child (space.marked root) next

variable {other : Nat} {otherSpace : AddressSpace}

theorem forked_spaces :
    (machine.forkedMachine pid child root space next).spaces other =
      if other = child then some (space.marked root)
      else if other = pid then some (space.marked space.pml4) else machine.spaces other := by
  rw [forkedMachine, replace_spaces, replace_spaces]

include found absent in
theorem forked_roots : (machine.forkedMachine pid child root space next).roots =
    withRoot machine.roots root := by
  have notParent : child ≠ pid := by
    intro same
    rw [same, found] at absent
    cases absent
  have parentRoots : (machine.replace pid (space.marked space.pml4) next).roots =
      machine.roots := replace_roots found rfl
  rw [forkedMachine, replace_roots_new, parentRoots]
  · rfl
  · rw [replace_spaces, if_neg notParent]
    exact absent

include found in
theorem forked_root
    (owner : (machine.forkedMachine pid child root space next).spaces other = some otherSpace) :
    (other = child ∧ otherSpace.pml4 = root) ∨
      ∃ old, machine.spaces other = some old ∧ otherSpace.pml4 = old.pml4 := by
  rw [forked_spaces] at owner
  split at owner
  next isChild => exact .inl ⟨isChild, by rw [← Option.some.inj owner]; rfl⟩
  split at owner
  next isPid => exact .inr ⟨space, isPid ▸ found, by rw [← Option.some.inj owner]; rfl⟩
  next => exact .inr ⟨otherSpace, owner, rfl⟩

theorem Rooted.fork (rooted : machine.Rooted) (found : machine.spaces pid = some space)
    (absent : machine.spaces child = none) (fresh : ¬machine.roots root)
    (layout : next.Layout (withRoot machine.roots root))
    (tallied : ∀ frame, Tallied next (withRoot machine.roots root) frame) :
    (machine.forkedMachine pid child root space next).Rooted := by
  have newRoots : (machine.forkedMachine pid child root space next).roots =
      withRoot machine.roots root := forked_roots found absent
  refine ⟨?_, ?_, ?_⟩
  · rw [newRoots]
    exact layout
  · rw [newRoots]
    exact tallied
  · intro left right leftSpace rightSpace isLeft isRight sameRoot
    rcases forked_root found isLeft with ⟨leftChild, leftRoot⟩ | ⟨oldLeft, wasLeft, leftRoot⟩
    · rcases forked_root found isRight with ⟨rightChild, _⟩ | ⟨oldRight, wasRight, rightRoot⟩
      · exact leftChild.trans rightChild.symm
      · rw [leftRoot, rightRoot] at sameRoot
        exact absurd (sameRoot ▸ isRoot wasRight) fresh
    · rcases forked_root found isRight with ⟨_, rightRoot⟩ | ⟨oldRight, wasRight, rightRoot⟩
      · rw [leftRoot, rightRoot] at sameRoot
        exact absurd (sameRoot ▸ isRoot wasLeft) fresh
      · exact rooted.distinct wasLeft wasRight (leftRoot.symm.trans (sameRoot.trans rightRoot))

omit child in
theorem Rooted.fork_elsewhere {number : Nat}
    {done : VmaRegion → Nat → Prop} (rooted : machine.Rooted)
    (found : machine.spaces pid = some space) (fresh : ¬machine.roots root)
    (forked : Forked machine.memory next (withRoot machine.roots root) space.pml4 root done)
    (owner : machine.spaces other = some otherSpace) (notPid : other ≠ pid)
    (user : number < userPages) :
    next.page otherSpace.pml4 number = machine.memory.page otherSpace.pml4 number := by
  apply forked.elsewhere (.inl (isRoot owner)) user
  · intro same
    exact notPid (rooted.distinct owner found same)
  · intro same
    exact fresh (same ▸ isRoot owner)

include safe found fresh forked

/-- A page of either side comes from the parent and is write protected if it is
private. The others keep theirs. -/
theorem forked_origin {number : Nat} {entry : PageTableEntry}
    (mapped : (machine.forkedMachine pid child root space next).Mapped
      other number otherSpace entry) :
    (other ≠ pid ∧ other ≠ child ∧ machine.Mapped other number otherSpace entry) ∨
    ((other = pid ∨ other = child) ∧ (otherSpace.Private number ↔ space.Private number) ∧
      (otherSpace.Private number → entry.flags.writable = false) ∧
      ∃ old, machine.Mapped pid number space old ∧ entry.frame = old.frame) := by
  rcases mapped with ⟨owner, user, present⟩
  have tidy := safe.tidy found
  rw [forked_spaces] at owner
  split at owner
  next isChild =>
    right
    rw [← Option.some.inj owner] at present ⊢
    rw [marked_private]
    refine ⟨.inr isChild, Iff.rfl, forked.child_protected tidy user present, ?_⟩
    rcases forked.childPage user present with ⟨old, _, source, sameFrame, _⟩
    exact ⟨old, ⟨found, user, source⟩, sameFrame⟩
  next notChild =>
    split at owner
    next isPid =>
      right
      rw [← Option.some.inj owner] at present ⊢
      rw [marked_private]
      refine ⟨.inl isPid, Iff.rfl,
        forked.parent_protected tidy rfl (safe.backed found) user present, ?_⟩
      rcases forked.parentPage user present with ⟨old, source, sameFrame, _⟩
      exact ⟨old, ⟨found, user, source⟩, sameFrame⟩
    next notPid =>
      left
      refine ⟨notPid, notChild, owner, user, ?_⟩
      rw [← safe.rooted.fork_elsewhere found fresh forked owner notPid user]
      exact present

include absent

theorem Safe.fork : (machine.forkedMachine pid child root space next).Safe := by
  have rooted := safe.rooted.fork found absent fresh forked.layout forked.tallied
  have origin := @forked_origin _ _ _ _ _ child _ safe found fresh forked
  refine ⟨rooted.layout, rooted.tallied, rooted.distinct, ?_, ?_, ?_, ?_⟩
  · intro other otherSpace owner
    rw [forked_spaces] at owner
    split at owner
    next => exact Option.some.inj owner ▸ (safe.tidy found).marked root
    split at owner
    next => exact Option.some.inj owner ▸ (safe.tidy found).marked space.pml4
    next => exact safe.tidy owner
  · intro other otherSpace owner
    rw [forked_spaces] at owner
    split at owner
    next => exact Option.some.inj owner ▸ forked.child_backed
    next notChild =>
    split at owner
    next => exact Option.some.inj owner ▸ forked.parent_backed rfl (safe.backed found)
    next notPid =>
      apply (safe.backed owner).mono
      intro number entry user present
      exact (safe.rooted.fork_elsewhere found fresh forked owner notPid user).symm.trans present
  · intro left right leftNumber rightNumber leftSpace rightSpace leftEntry rightEntry
      leftMapped rightMapped different shared
    rcases origin leftMapped with ⟨leftOther, _, wasLeft⟩ |
      ⟨_, leftNature, _, oldLeft, wasLeft, leftFrame⟩
    · rcases origin rightMapped with ⟨_, _, wasRight⟩ |
        ⟨_, rightNature, _, oldRight, wasRight, rightFrame⟩
      · exact safe.nature wasLeft wasRight different shared
      · rw [rightNature]
        exact safe.nature wasLeft wasRight (fun same => leftOther (Prod.mk.inj same).1)
          (shared.trans rightFrame)
    rw [leftNature]
    rcases origin rightMapped with ⟨rightOther, _, wasRight⟩ |
      ⟨_, rightNature, _, oldRight, wasRight, rightFrame⟩
    · exact safe.nature wasLeft wasRight (fun same => rightOther (Prod.mk.inj same).1.symm)
        (leftFrame.symm.trans shared)
    rw [rightNature]
    by_cases same : leftNumber = rightNumber
    · rw [same]
    · exact safe.nature wasLeft wasRight (fun both => same (Prod.mk.inj both).2)
        (leftFrame.symm.trans (shared.trans rightFrame))
  · intro _ _ _ _ _ _ _ _ leftMapped rightMapped different shared isPrivate
    rcases origin leftMapped with ⟨leftOther, _, wasLeft⟩ | ⟨_, _, isGuarded, _⟩
    · rcases origin rightMapped with ⟨_, _, wasRight⟩ | ⟨_, _, _, _, wasRight, rightFrame⟩
      · exact safe.guarded wasLeft wasRight different shared isPrivate
      · exact safe.guarded wasLeft wasRight (fun same => leftOther (Prod.mk.inj same).1)
          (shared.trans rightFrame) isPrivate
    · exact isGuarded isPrivate

end Fork

/-! ## Runs -/

theorem copyOnFork_none {reached : AddressSpace} (layout : machine.memory.Layout machine.roots)
    (called : space.copyOnFork machine.memory = some (none, reached, next)) :
    reached = space ∧ Grows machine.memory next machine.roots := by
  rcases copyOnFork_failed called with ⟨unchanged, failed⟩
  exact ⟨unchanged, newUser_none layout failed⟩

variable {address : Nat} {after : Machine allocator}

theorem withSpace_some {call : AddressSpace → Option (AddressSpace × MemoryState allocator)}
    (called : machine.withSpace pid call = some after) :
    ∃ space nextSpace memory, machine.spaces pid = some space ∧
      call space = some (nextSpace, memory) ∧ after = machine.replace pid nextSpace memory := by
  simp only [withSpace, Option.bind_eq_bind, Option.bind_eq_some_iff, Option.some.injEq,
    Prod.exists] at called
  rcases called with ⟨space, found, nextSpace, memory, result, same⟩
  exact ⟨space, nextSpace, memory, found, result, same.symm⟩

theorem withSpace_map {Answer : Type} {call : AddressSpace → Option Answer}
    {rest : AddressSpace → Answer → AddressSpace × MemoryState allocator}
    (called : (machine.withSpace pid fun space => (call space).map (rest space)) = some after) :
    ∃ space answer, machine.spaces pid = some space ∧ call space = some answer ∧
      after = machine.replace pid (rest space answer).1 (rest space answer).2 := by
  rcases withSpace_some called with ⟨space, nextSpace, memory, found, result, same⟩
  rcases Option.map_eq_some_iff.mp result with ⟨answer, answered, isRest⟩
  refine ⟨space, answer, found, answered, ?_⟩
  rw [isRest, same]

inductive Effect (machine : Machine allocator) : MemoryCall → Machine allocator → Prop
  | retain {call : MemoryCall} {next : MemoryState allocator}
      (layout : next.Layout machine.roots)
      (same : ∀ {root number}, machine.roots root → number < userPages →
        next.page root number = machine.memory.page root number)
      (refcounts : next.refcounts = machine.memory.refcounts) :
      Effect machine call { machine with memory := next }
  | spawn {pid cr3 : Nat} {space : AddressSpace} {next : MemoryState allocator}
      (absent : machine.spaces pid = none)
      (creates : Creates machine.memory next machine.roots space.pml4)
      (empty : space = ⟨space.pml4, [], initialBrkStart, initialBrkStart, initialMmapBase⟩) :
      Effect machine (.spawn pid cr3) (machine.replace pid space next)
  | evolve {call : MemoryCall} {pid : Nat} {space nextSpace : AddressSpace}
      {next : MemoryState allocator} (found : machine.spaces pid = some space)
      (evolves : Evolves machine.memory space next nextSpace machine.roots) :
      Effect machine call (machine.replace pid nextSpace next)
  | fork {pid child root : Nat} {space : AddressSpace} {next : MemoryState allocator}
      (found : machine.spaces pid = some space) (absent : machine.spaces child = none)
      (fresh : ¬machine.roots root)
      (forked : Forked machine.memory next (withRoot machine.roots root) space.pml4 root
        fun region number => region ∈ space.regions ∧ region.Covers number) :
      Effect machine (.fork pid child) (machine.forkedMachine pid child root space next)

variable {call : MemoryCall} {after : Machine allocator}

/-- A write fault that has to copy a frame finds a free one. -/
def Fed : MemoryCall → Prop
  | .writeFault pid addr => ∀ space, self.spaces pid = some space →
      ¬space.Starves self.memory addr
  | _ => True

theorem Supplied.fed (supplied : machine.Supplied call) : machine.Fed call := by
  cases call with
  | writeFault pid addr =>
    intro space found starves
    rcases starves with ⟨_, _, _, _, failed⟩
    exact supplied failed
  | _ => trivial

theorem number_user (user : address < userTop) : address / 4096 < userPages := by
  rw [userTop_eq] at user
  rw [userPages_eq]
  omega

theorem entry_mapped {entry : PageTableEntry} (owner : machine.spaces pid = some space)
    (user : address < userTop) (found : machine.entry pid address = some entry) :
    machine.Mapped pid (address / 4096) space entry := by
  rw [Machine.entry, owner] at found
  exact ⟨owner, number_user user, found⟩

theorem store_some {byte : UInt8} (taken : machine.exec (.store pid address byte) = some after) :
    ∃ space entry, machine.Mapped pid (address / 4096) space entry ∧
      entry.flags.writable = true ∧ after = machine.poke entry.frame (address % 4096) byte := by
  simp only [exec] at taken
  split at taken
  next => cases taken
  next entry found =>
  split at taken
  next allowed =>
    cases taken
    cases owner : machine.spaces pid with
    | none =>
      rw [Machine.entry, owner] at found
      cases found
    | some space =>
      exact ⟨space, entry, entry_mapped owner allowed.1 found, allowed.2.1, rfl⟩
  next => cases taken

theorem Safe.exec (safe : machine.Safe) (sound : machine.memory.Sound machine.roots)
    (fed : machine.Fed call) (confined : machine.Confined call)
    (taken : machine.exec call = some after) : machine.Effect call after := by
  cases call with
  | spawn pid cr3 =>
    simp only [Machine.exec] at taken
    split at taken
    next => cases taken
    next memory _ created =>
      cases taken
      have grows := newUser_none safe.layout created
      exact .retain grows.layout grows.page grows.refcounts
    next space memory absent created =>
      cases taken
      rcases newUser_some safe.layout created with ⟨creates, empty⟩
      exact .spawn absent creates empty
  | fork pid child =>
    simp only [Machine.exec] at taken
    split at taken
    next space found absent =>
      split at taken
      next => cases taken
      next parent memory called =>
        cases taken
        rcases copyOnFork_none safe.layout called with ⟨unchanged, grows⟩
        rw [unchanged]
        exact .evolve found (Evolves.grow sound (isRoot found) (safe.tidy found)
          (safe.backed found) grows)
      next fresh parent memory called =>
        cases taken
        rcases copyOnFork_spec sound (isRoot found) (safe.tidy found).placed called with
          ⟨notRoot, isChild, isParent, forked⟩
        rw [isChild, isParent]
        exact .fork found absent notRoot forked
    next => cases taken
  | writeFault pid addr =>
    rcases withSpace_map taken with ⟨space, ⟨handled, memory⟩, found, called, same⟩
    rw [same]
    exact .evolve found (handleCowFault_evolves sound (isRoot found) (safe.tidy found)
      (safe.backed found) confined (fed space found) called)
  | mmap pid hint len prot mapFlags fileData =>
    rcases withSpace_map taken with ⟨space, ⟨answer, nextSpace, memory⟩, found, called, same⟩
    rw [same]
    exact .evolve found (mmapFull_evolves sound (isRoot found) (safe.tidy found)
      (safe.backed found) (confined space found) called)
  | munmap pid addr len =>
    rcases withSpace_some taken with ⟨space, nextSpace, memory, found, result, same⟩
    have evolves := munmap_evolves sound (isRoot found) (safe.tidy found) (safe.backed found)
      confined
    rw [Option.some.inj result] at evolves
    rw [same]
    exact .evolve found evolves
  | brk pid newBrk =>
    rcases withSpace_map taken with ⟨space, ⟨answer, nextSpace, memory⟩, found, called, same⟩
    rw [same]
    exact .evolve found (setBrk_evolves sound (isRoot found) (safe.tidy found)
      (safe.backed found) (confined space found) called)
  | store pid addr byte =>
    rcases store_some taken with ⟨_, _, _, _, rfl⟩
    exact .retain (safe.layout.transfer rfl rfl) (fun _ _ => rfl) rfl

theorem Effect.safe (effect : machine.Effect call after) (safe : machine.Safe) :
    after.Safe := by
  cases effect with
  | retain layout same refcounts => exact safe.retain layout same refcounts
  | spawn absent creates empty => exact safe.spawn absent creates empty
  | evolve found evolves => exact safe.replace found evolves
  | fork found absent fresh forked => exact safe.fork found absent fresh forked

theorem Started.safe (started : machine.Started) : machine.Safe := by
  have noSpace : ∀ {pid space}, machine.spaces pid ≠ some space := by
    intro pid space found
    rw [started.spaces] at found
    cases found
  have noRoot : ∀ root, ¬machine.roots root := by
    intro root isRoot
    rcases isRoot with ⟨_, _, found, _⟩
    exact noSpace found
  refine ⟨⟨started.valid, ?_, ?_, ?_⟩, ?_, ?_, ?_, ?_, ?_, ?_⟩
  · exact ⟨by decide, pathWidth_narrow, fun isRoot => absurd isRoot (noRoot _)⟩
  · intro table isTable
    rcases isTable with ⟨root, _, _, isRoot, _⟩
    exact absurd isRoot (noRoot root)
  · intro root number entry isRoot
    exact absurd isRoot (noRoot root)
  · intro frame
    refine .inr ⟨∅, ?_, by simp⟩
    intro holder isHolder
    exact absurd isHolder.1 (noRoot _)
  · exact fun found => absurd found noSpace
  · exact fun found => absurd found noSpace
  · exact fun found => absurd found noSpace
  all_goals
    intro _ _ _ _ _ _ _ _ mapped
    exact absurd mapped.owner noSpace

theorem confined_safe (reachable : confinedSystem.Reachable machine) : machine.Safe := by
  apply reachable.invariant
  · intro state started
    exact started.safe
  · intro state label next safe step
    rcases step with ⟨confined, few, supplied, taken⟩
    have safeHere := safe.onCpu label.1
    exact (safeHere.exec (safeHere.sound few) supplied.fed confined taken).safe safeHere

end Machine

end Qunix.Memory.Vmm
