import Qunix.Foundation.SharedCount

/-! # Exact reference counts

A count that starts at zero and is the number of holders, except that a resource
held once and never shared is still counted as zero. The operations keep this
reading as long as no holder joins twice.
-/

namespace Qunix.Foundation

open Finset

variable {Holder : Type} {holders others : Holder → Prop} {count larger : Nat}

/-- The count is the number of holders, where zero also stands for one. -/
def Tally (holders : Holder → Prop) (count : Nat) : Prop :=
  ∃ cover : Finset Holder, (∀ holder, holder ∈ cover ↔ holders holder) ∧
    (count = cover.card ∨ (count = 0 ∧ cover.card = 1))

namespace Tally

theorem congr (tally : Tally holders count) (same : ∀ holder, others holder ↔ holders holder) :
    Tally others count := by
  rcases tally with ⟨cover, covers, size⟩
  exact ⟨cover, fun holder => (covers holder).trans (same holder).symm, size⟩

theorem empty (vacant : ∀ holder, ¬holders holder) : Tally holders 0 :=
  ⟨∅, fun holder => ⟨fun member => absurd member (notMem_empty holder),
    fun isHolder => absurd isHolder (vacant holder)⟩, .inl rfl⟩

theorem single {owner : Holder} (only : ∀ holder, holders holder ↔ holder = owner) :
    Tally holders 0 := by
  refine ⟨{owner}, ?_, .inr ⟨rfl, card_singleton owner⟩⟩
  intro holder
  rw [mem_singleton, only]

section

variable (tally : Tally holders count)

include tally

theorem count_eq_zero (vacant : ∀ holder, ¬holders holder) :
    count = 0 := by
  rcases tally with ⟨cover, covers, size⟩
  have isEmpty : cover = ∅ := eq_empty_of_forall_notMem fun holder member =>
    vacant holder ((covers holder).mp member)
  rcases size with size | size
  · rw [size, isEmpty, card_empty]
  · exact size.1

theorem heldBy : HeldBy holders count := by
  rcases tally with ⟨cover, covers, size⟩
  exact ⟨cover, fun holder isHolder => (covers holder).mpr isHolder, by omega⟩

/-- A single holder may be counted as zero. -/
theorem lone {owner : Holder} (isHolder : holders owner)
    (small : count ≤ 1) : Tally holders 0 := by
  rcases tally with ⟨cover, covers, size⟩
  have nonempty : 0 < cover.card := Finset.card_pos.mpr ⟨owner, (covers owner).mpr isHolder⟩
  exact ⟨cover, covers, .inr ⟨rfl, by omega⟩⟩

theorem le_card {bound : Finset Holder}
    (bounds : ∀ holder, holders holder → holder ∈ bound) : count ≤ bound.card := by
  rcases tally with ⟨cover, covers, size⟩
  have smaller : cover.card ≤ bound.card := card_le_card fun holder member =>
    bounds holder ((covers holder).mp member)
  omega

/-- A dropped count that is still positive leaves a holder behind. -/
theorem remaining (leaving : Holder) (many : 1 < count) :
    ∃ holder, holders holder ∧ holder ≠ leaving := by
  rcases tally with ⟨cover, covers, size⟩
  have large : 1 < cover.card := by omega
  rcases exists_mem_ne large leaving with ⟨holder, member, different⟩
  exact ⟨holder, (covers holder).mp member, different⟩

end

variable [DecidableEq Holder]

theorem share (tally : Tally holders count) {owner joining : Holder} (isHolder : holders owner)
    (fresh : ¬holders joining) :
    Tally (fun holder => holders holder ∨ holder = joining) (sharedCount count) := by
  rcases tally with ⟨cover, covers, size⟩
  have notMember : joining ∉ cover := fun member => fresh ((covers joining).mp member)
  refine ⟨insert joining cover, ?_, .inl ?_⟩
  · intro holder
    rw [mem_insert, covers]
    exact or_comm
  · have nonempty : 0 < cover.card := Finset.card_pos.mpr ⟨owner, (covers owner).mpr isHolder⟩
    rw [card_insert_of_notMem notMember, sharedCount]
    split <;> omega

theorem drop (tally : Tally holders count) {leaving : Holder} (isHolder : holders leaving) :
    Tally (fun holder => holders holder ∧ holder ≠ leaving) (count - 1) := by
  rcases tally with ⟨cover, covers, size⟩
  have member : leaving ∈ cover := (covers leaving).mpr isHolder
  refine ⟨cover.erase leaving, ?_, .inl ?_⟩
  · intro holder
    rw [mem_erase, covers]
    exact and_comm
  · rw [card_erase_of_mem member]
    omega

end Tally

end Qunix.Foundation
