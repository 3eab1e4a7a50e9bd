import Qunix.Foundation.Reachability
import Qunix.Memory.Phys.BuddyInvariant

/-! # Histories of buddy allocator calls

The allocator together with what its callers know: which frames were ever
added, and which blocks they hold. A caller frees only what it holds.
-/

namespace Qunix.Memory.Phys

open Foundation List BuddyAlloc

inductive BuddyCall
  | addRange (first count : Nat)
  | alloc (order : Nat)
  | free (phys order : Nat)

structure HeldBlock where
  phys : Nat
  order : Nat
deriving DecidableEq

variable {next : BuddyAlloc} {order phys index : Nat} {block : HeldBlock}

namespace HeldBlock

def Contains (block : HeldBlock) (frame : Nat) : Prop :=
  block.phys / pageSize ≤ frame ∧ frame < block.phys / pageSize + 2 ^ block.order

def Disjoint (left right : HeldBlock) : Prop :=
  ∀ frame, ¬(left.Contains frame ∧ right.Contains frame)

theorem Disjoint.symm {left right : HeldBlock} (disjoint : left.Disjoint right) :
    right.Disjoint left := fun frame both => disjoint frame ⟨both.2, both.1⟩

/-- The address of an aligned block of frames inside the managed range. -/
structure Aligned (block : HeldBlock) : Prop where
  inOrders : block.order ≤ maxOrder
  inRange : block.phys / pageSize < maxFrames
  multiple : block.phys % (2 ^ block.order * pageSize) = 0

theorem Aligned.contains_iff (aligned : block.Aligned) (frame : Nat) :
    block.Contains frame ↔
      frame / 2 ^ block.order = block.phys / pageSize / 2 ^ block.order := by
  have positive : 0 < 2 ^ block.order := Nat.two_pow_pos _
  rcases Nat.dvd_of_mod_eq_zero aligned.multiple with ⟨index, physEq⟩
  have start : block.phys / pageSize = 2 ^ block.order * index := by
    rw [physEq, mul_assoc, mul_comm pageSize, ← mul_assoc,
      Nat.mul_div_cancel _ (by decide)]
  rw [Contains, start, Nat.mul_div_cancel_left _ positive]
  constructor
  · intro inside
    apply Nat.div_eq_of_lt_le
    · rw [mul_comm]
      exact inside.1
    · rw [add_mul, one_mul, mul_comm]
      exact inside.2
  · intro quotient
    have decomposition := Nat.div_add_mod frame (2 ^ block.order)
    rw [quotient] at decomposition
    omega

theorem aligned_of_allocates {buddy : BuddyAlloc}
    (allocates : buddy.Allocates next order phys index) :
    (⟨phys, order⟩ : HeldBlock).Aligned ∧ phys / pageSize / 2 ^ order = index := by
  have positive : 0 < 2 ^ order := Nat.two_pow_pos _
  have start : phys / pageSize = index * 2 ^ order := by
    rw [allocates.address, Nat.mul_div_cancel _ (by decide)]
  refine ⟨⟨allocates.inOrders, ?_, ?_⟩, ?_⟩
  · change phys / pageSize < maxFrames
    apply @BuddyAlloc.frame_lt_maxFrames (phys / pageSize) order
    rw [start, Nat.mul_div_cancel _ positive]
    exact allocates.inRange
  · change phys % (2 ^ order * pageSize) = 0
    rw [allocates.address, mul_assoc]
    exact Nat.mul_mod_left _ _
  · rw [start, Nat.mul_div_cancel _ positive]

end HeldBlock

structure BuddyHistory where
  buddy : BuddyAlloc
  added : Nat → Prop
  outstanding : List HeldBlock

namespace BuddyHistory

def start : BuddyHistory where
  buddy := BuddyAlloc.new
  added := fun _ => False
  outstanding := []

/-- `addRange` is called over frames not yet added and below `maxFrames`, and
`free` with a block still outstanding. -/
def Step (history : BuddyHistory) : BuddyCall → BuddyHistory → Prop
  | .addRange first count, next =>
    (∀ frame, first ≤ frame → frame < first + count →
      frame < maxFrames ∧ ¬history.added frame) ∧
    next = { history with
      buddy := history.buddy.addRange first count
      added := fun frame => history.added frame ∨
        (first ≤ frame ∧ frame < first + count) }
  | .alloc order, next =>
    next = { history with
      buddy := (history.buddy.alloc order).2
      outstanding := match (history.buddy.alloc order).1 with
        | some phys => ⟨phys, order⟩ :: history.outstanding
        | none => history.outstanding }
  | .free phys order, next =>
    ⟨phys, order⟩ ∈ history.outstanding ∧
    next = { history with
      buddy := history.buddy.free phys order
      outstanding := history.outstanding.erase ⟨phys, order⟩ }

def system : TransitionSystem BuddyHistory BuddyCall where
  Initial := fun history => history = start
  Step := Step

/-! ## The invariant of every history -/

/-- Outstanding blocks are aligned and disjoint, and no frame of one is free. -/
structure Consistent (history : BuddyHistory) : Prop where
  buddy : history.buddy.Invariant
  freeAdded : ∀ frame, history.buddy.FrameFree frame → history.added frame
  aligned : ∀ block ∈ history.outstanding, block.Aligned
  held : ∀ block ∈ history.outstanding, ∀ frame, block.Contains frame →
    history.added frame ∧ ¬history.buddy.FrameFree frame
  disjoint : history.outstanding.Pairwise HeldBlock.Disjoint

theorem start_consistent : start.Consistent where
  buddy := new_invariant
  freeAdded := fun frame free => new_frameFree frame free
  aligned := by simp [start]
  held := by simp [start]
  disjoint := by simp [start]

variable {history : BuddyHistory}

section

variable (consistent : history.Consistent)

include consistent

/-- A freshly allocated block meets no outstanding one: its frames were free. -/
theorem Consistent.allocated_disjoint (allocates : history.buddy.Allocates next order phys index)
    (member : block ∈ history.outstanding) :
    (⟨phys, order⟩ : HeldBlock).Disjoint block := by
  rcases HeldBlock.aligned_of_allocates allocates with ⟨aligned, indexEq⟩
  intro frame both
  have inside := (aligned.contains_iff frame).mp both.1
  rw [indexEq] at inside
  exact (consistent.held block member frame both.2).2 (allocates.wasFree frame inside)

theorem Consistent.addRange
    {first count : Nat} (fresh : ∀ frame, first ≤ frame → frame < first + count →
      frame < maxFrames ∧ ¬history.added frame) :
    Consistent { history with
      buddy := history.buddy.addRange first count
      added := fun frame => history.added frame ∨
        (first ≤ frame ∧ frame < first + count) } := by
  have frees := history.buddy.addRange_spec first count consistent.buddy
    fun frame lower upper => ⟨(fresh frame lower upper).1, fun free =>
      (fresh frame lower upper).2 (consistent.freeAdded frame free)⟩
  refine ⟨frees.invariant, ?_, consistent.aligned, ?_, consistent.disjoint⟩
  · intro frame free
    rcases (frees.frameFree frame).mp free with free | inside
    · exact .inl (consistent.freeAdded frame free)
    · exact .inr inside
  · intro block member frame inside
    have heldFrame := consistent.held block member frame inside
    refine ⟨.inl heldFrame.1, fun free => ?_⟩
    rcases (frees.frameFree frame).mp free with free | ⟨lower, upper⟩
    · exact heldFrame.2 free
    · exact (fresh frame lower upper).2 heldFrame.1

theorem Consistent.allocated (allocates : history.buddy.Allocates next order phys index) :
    Consistent { history with
      buddy := next
      outstanding := ⟨phys, order⟩ :: history.outstanding } := by
  rcases HeldBlock.aligned_of_allocates allocates with ⟨aligned, indexEq⟩
  refine ⟨allocates.invariant, ?_, ?_, ?_, ?_⟩
  · intro frame free
    exact consistent.freeAdded frame ((allocates.frameFree frame).mp free).1
  · intro block member
    exact forall_mem_cons.mpr ⟨aligned, consistent.aligned⟩ block member
  · intro block member frame inside
    rcases mem_cons.mp member with equal | member
    · subst equal
      have position := (aligned.contains_iff frame).mp inside
      rw [indexEq] at position
      exact ⟨consistent.freeAdded frame (allocates.wasFree frame position),
        fun free => ((allocates.frameFree frame).mp free).2 position⟩
    · have heldFrame := consistent.held block member frame inside
      exact ⟨heldFrame.1, fun free => heldFrame.2 ((allocates.frameFree frame).mp free).1⟩
  · exact List.Pairwise.cons
      (fun block member => consistent.allocated_disjoint allocates member)
      consistent.disjoint

theorem Consistent.free {phys order : Nat} (member : ⟨phys, order⟩ ∈ history.outstanding) :
    Consistent { history with
      buddy := history.buddy.free phys order
      outstanding := history.outstanding.erase ⟨phys, order⟩ } := by
  have aligned := consistent.aligned _ member
  have contains_iff := aligned.contains_iff
  rcases free_spec consistent.buddy
    aligned.inOrders aligned.inRange fun frame inside =>
    (consistent.held _ member frame ((contains_iff frame).mpr inside)).2 with
    ⟨freedInvariant, _, freedFree⟩
  have others : (⟨phys, order⟩ :: history.outstanding.erase ⟨phys, order⟩).Pairwise
      HeldBlock.Disjoint :=
    ((perm_cons_erase member).pairwise_iff fun apart => apart.symm).mp
      consistent.disjoint
  have parts := List.pairwise_cons.mp others
  refine ⟨freedInvariant, ?_, ?_, ?_, parts.2⟩
  · intro frame free
    rcases (freedFree frame).mp free with free | inside
    · exact consistent.freeAdded frame free
    · exact (consistent.held _ member frame ((contains_iff frame).mpr inside)).1
  · intro block memberErase
    exact consistent.aligned block (mem_of_mem_erase memberErase)
  · intro block memberErase frame inside
    have heldFrame := consistent.held block (mem_of_mem_erase memberErase) frame inside
    refine ⟨heldFrame.1, fun free => ?_⟩
    rcases (freedFree frame).mp free with free | freed
    · exact heldFrame.2 free
    · exact parts.1 block memberErase frame ⟨(contains_iff frame).mpr freed, inside⟩

theorem Consistent.step {next : BuddyHistory} {call : BuddyCall} (taken : history.Step call next) :
    next.Consistent := by
  cases call with
  | addRange first count =>
    rcases taken with ⟨fresh, nextEq⟩
    exact nextEq ▸ consistent.addRange fresh
  | alloc order =>
    rcases result : history.buddy.alloc order with ⟨answer, allocated⟩
    simp only [Step, result] at taken
    cases answer with
    | none =>
      rw [alloc_none result] at taken
      exact taken ▸ consistent
    | some phys =>
      rcases alloc_some consistent.buddy result with ⟨index, allocates⟩
      exact taken ▸ consistent.allocated allocates
  | free phys order =>
    rcases taken with ⟨member, nextEq⟩
    exact nextEq ▸ consistent.free member

end

theorem reachable_consistent (reachable : system.Reachable history) : history.Consistent := by
  apply reachable.invariant
  · intro first isStart
    exact isStart ▸ start_consistent
  · intro before call after consistent taken
    exact consistent.step taken

/-! ## Safety of every history -/

/-- The block of order `order` and index `index` covers the frame. -/
def Covers (order index frame : Nat) : Prop :=
  index * 2 ^ order ≤ frame ∧ frame < (index + 1) * 2 ^ order

theorem covers_iff (order index frame : Nat) :
    Covers order index frame ↔ frame / 2 ^ order = index := by
  have positive : 0 < 2 ^ order := Nat.two_pow_pos _
  constructor
  · intro inside
    exact Nat.div_eq_of_lt_le inside.1 inside.2
  · intro quotient
    subst quotient
    exact ⟨Nat.div_mul_le_self _ _, by
      rw [mul_comm]
      exact Nat.lt_mul_div_succ frame positive⟩

structure Safe (history : BuddyHistory) : Prop where
  coveredOnce : ∀ frame left leftIndex right rightIndex,
    history.buddy.isFree left leftIndex = true → Covers left leftIndex frame →
    history.buddy.isFree right rightIndex = true → Covers right rightIndex frame →
    left = right ∧ leftIndex = rightIndex
  counted : history.buddy.freeFrames =
    ∑ order ∈ Finset.range (maxOrder + 1),
      2 ^ order * (history.buddy.freeBitmaps order).count maxFrames
  noFreeBuddies : ∀ order index, order < maxOrder →
    ¬(history.buddy.isFree order index = true ∧
      history.buddy.isFree order (index ^^^ 1) = true)
  allocation : ∀ order phys next, history.buddy.alloc order = (some phys, next) →
    phys % (2 ^ order * pageSize) = 0 ∧
    ∀ block ∈ history.outstanding, (⟨phys, order⟩ : HeldBlock).Disjoint block

/-- Whatever calls were made before, no frame is in two free blocks, the
counter agrees with the bitmaps, no two buddies are both free, and `alloc`
hands out aligned blocks disjoint from everything still held. -/
theorem reachable_safe {history : BuddyHistory}
    (reachable : system.Reachable history) : history.Safe := by
  have consistent := reachable_consistent reachable
  refine ⟨?_, consistent.buddy.counted, ?_, ?_⟩
  · intro frame left leftIndex right rightIndex leftFree leftCovers rightFree rightCovers
    have leftQuotient := (covers_iff left leftIndex frame).mp leftCovers
    have rightQuotient := (covers_iff right rightIndex frame).mp rightCovers
    subst leftQuotient rightQuotient
    have sameOrder := consistent.buddy.exclusive frame left right leftFree rightFree
    exact ⟨sameOrder, by rw [sameOrder]⟩
  · intro order index below both
    exact consistent.buddy.coalesced order index below both.1 both.2
  · intro order phys next allocated
    rcases alloc_some consistent.buddy allocated with ⟨index, allocates⟩
    exact ⟨(HeldBlock.aligned_of_allocates allocates).1.multiple,
      fun block member => consistent.allocated_disjoint allocates member⟩

/-- Two frames are added and taken as one block of order 1. -/
theorem reachable_safe_after_alloc :
    ∃ history, system.Reachable history ∧
      history.outstanding = [⟨256 * pageSize, 1⟩] ∧ history.Safe := by
  let added : BuddyHistory := { start with
    buddy := start.buddy.addRange 256 2
    added := fun frame => start.added frame ∨ (256 ≤ frame ∧ frame < 256 + 2) }
  have startReachable : system.Reachable start := .initial rfl
  have addedStep : system.Step start (.addRange 256 2) added := by
    refine ⟨?_, rfl⟩
    intro frame _ upper
    have bound : maxFrames = 1048576 := by decide
    exact ⟨by omega, fun before => before⟩
  have taken : system.Step added (.alloc 1) { added with
      buddy := (added.buddy.alloc 1).2
      outstanding := match (added.buddy.alloc 1).1 with
        | some phys => ⟨phys, 1⟩ :: added.outstanding
        | none => added.outstanding } := rfl
  have takenReachable := (startReachable.step addedStep).step taken
  refine ⟨_, takenReachable, ?_, reachable_safe takenReachable⟩
  have answer : (added.buddy.alloc 1).1 = some (256 * pageSize) := by decide +kernel
  simp only [answer]
  rfl

end BuddyHistory

end Qunix.Memory.Phys
