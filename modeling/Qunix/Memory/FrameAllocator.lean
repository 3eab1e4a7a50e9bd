import Qunix.Memory.Phys.FramesInvariant

/-! # Frame allocators as their clients see them

Clients name frames by number and rely on four laws only. An allocation may fail
at any time. The allocator of `memory/phys.rs` obeys the laws.
-/

namespace Qunix.Memory

structure FrameAllocator where
  State : Type
  alloc : State → (cpu : Nat) → Option Nat × State
  free : State → (cpu frame : Nat) → State
  Valid : State → Prop
  IsFree : State → Nat → Prop
  alloc_some : ∀ {state next cpu frame}, Valid state → alloc state cpu = (some frame, next) →
    Valid next ∧ IsFree state frame ∧
    ∀ other, IsFree next other ↔ IsFree state other ∧ ¬other = frame
  alloc_none : ∀ {state next cpu}, Valid state → alloc state cpu = (none, next) →
    Valid next ∧ ∀ other, IsFree next other ↔ IsFree state other
  free_taken : ∀ {state cpu frame}, Valid state → 0 < frame → frame < Phys.maxFrames →
    ¬IsFree state frame →
    Valid (free state cpu frame) ∧
    ∀ other, IsFree (free state cpu frame) other ↔ IsFree state other ∨ other = frame
  free_bounds : ∀ {state frame}, Valid state → IsFree state frame →
    0 < frame ∧ frame < Phys.maxFrames

namespace FrameAllocator

variable {allocator : FrameAllocator}

/-- Give back `count` frames on CPU 0, as boot code does with reclaimed memory. -/
def freeRange (allocator : FrameAllocator) (state : allocator.State) (first : Nat) :
    (count : Nat) → allocator.State
  | 0 => state
  | count + 1 => allocator.free (allocator.freeRange state first count) 0 (first + count)

theorem freeRange_spec {state : allocator.State} {first : Nat} (valid : allocator.Valid state)
    (positive : 0 < first) (taken : ∀ frame, ¬allocator.IsFree state frame) :
    ∀ {count}, first + count ≤ Phys.maxFrames →
      allocator.Valid (allocator.freeRange state first count) ∧
      ∀ frame, allocator.IsFree (allocator.freeRange state first count) frame ↔
        first ≤ frame ∧ frame < first + count := by
  intro count
  induction count with
  | zero =>
    intro _
    refine ⟨valid, fun frame => ⟨fun free => absurd free (taken frame), ?_⟩⟩
    omega
  | succ count induction =>
    intro below
    rcases induction (by omega) with ⟨reachedValid, isFree⟩
    have outside : ¬allocator.IsFree (allocator.freeRange state first count)
        (first + count) := by
      rw [isFree]
      omega
    rcases @allocator.free_taken _ 0 _ reachedValid (by omega) (by omega) outside with
      ⟨nextValid, nextFree⟩
    refine ⟨nextValid, ?_⟩
    intro frame
    rw [freeRange, nextFree, isFree]
    omega

end FrameAllocator

namespace Phys

/-- `memory/phys.rs` as a frame allocator. -/
def allocator : FrameAllocator where
  State := PhysState
  alloc := fun state cpu =>
    ((state.allocFrame cpu).1.map (· / pageSize), (state.allocFrame cpu).2)
  free := fun state cpu frame => state.freeFrame cpu (frame * pageSize)
  Valid := PhysState.Valid
  IsFree := PhysState.IsFree
  alloc_some := by
    intro state next cpu frame valid allocated
    rcases result : state.allocFrame cpu with ⟨answer, after⟩
    rw [result] at allocated
    cases answer with
    | none => simp at allocated
    | some phys =>
      rcases PhysState.allocFrame_some valid result with ⟨found, address, takes⟩
      rw [Prod.mk.injEq, Option.map_some, Option.some.injEq, address, address_div] at allocated
      rcases allocated with ⟨sameFrame, sameState⟩
      subst sameFrame sameState
      exact ⟨takes.valid, takes.wasFree _ rfl, takes.isFree⟩
  alloc_none := by
    intro state next cpu valid allocated
    rcases result : state.allocFrame cpu with ⟨answer, after⟩
    rw [result] at allocated
    cases answer with
    | some phys => simp at allocated
    | none =>
      rcases PhysState.allocFrame_none valid result with ⟨nextValid, _, isFree⟩
      have sameState := (Prod.mk.inj allocated).2
      subst sameState
      exact ⟨nextValid, isFree⟩
  free_taken := by
    intro state cpu frame valid positive below taken
    have gives := @PhysState.freeFrame_spec state cpu frame valid positive below taken
    exact ⟨gives.valid, gives.isFree⟩
  free_bounds := fun valid free => valid.stocked.freeIn_bounds free

def emptyState : PhysState := ⟨BuddyAlloc.new, fun _ => Magazine.new, 0⟩

theorem emptyState_cached : emptyState.cached = 0 := by
  simp [PhysState.cached, emptyState]

theorem emptyState_valid : emptyState.Valid := by
  refine ⟨?_, fun cpu => Nat.zero_le _, ?_⟩
  · rw [emptyState_cached]
    exact ⟨BuddyAlloc.new_invariant, BuddyAlloc.new_frameFree 0, Multiset.nodup_zero, by simp⟩
  · rw [emptyState_cached]
    rfl

theorem emptyState_taken (frame : Nat) : ¬emptyState.IsFree frame := by
  rw [PhysState.IsFree, FreeIn, emptyState_cached]
  intro free
  rcases free with inBuddy | inStock
  · exact BuddyAlloc.new_frameFree frame inBuddy
  · cases inStock

end Phys

end Qunix.Memory
