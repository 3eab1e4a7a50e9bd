import Mathlib.Data.Finset.Card

/-! # Reference counts that start at zero

A count for a resource with several holders. Both 0 and 1 stand for a single
holder, so the first share has to go from 0 to 2. The count is an upper bound
of the number of holders, which is all that exclusive use needs.
-/

namespace Qunix.Foundation

open Finset

variable {Holder : Type} {holders others : Holder → Prop} {count larger : Nat}

/-- There are at most `count` holders, or one when the count is zero. -/
def HeldBy (holders : Holder → Prop) (count : Nat) : Prop :=
  ∃ cover : Finset Holder, (∀ holder, holders holder → holder ∈ cover) ∧
    cover.card ≤ max 1 count

/-- The count after one more holder joined. -/
def sharedCount (count : Nat) : Nat := if count = 0 then 2 else count + 1

namespace HeldBy

section

variable (held : HeldBy holders count)
include held

theorem mono (fewer : ∀ holder, others holder → holders holder)
    (more : count ≤ larger) : HeldBy others larger := by
  rcases held with ⟨cover, covers, size⟩
  exact ⟨cover, fun holder isHolder => covers holder (fewer holder isHolder), by omega⟩

omit held in
theorem single {owner : Holder} (only : ∀ holder, holders holder → holder = owner) :
    HeldBy holders count := by
  refine ⟨{owner}, ?_, ?_⟩
  · intro holder isHolder
    exact mem_singleton.mpr (only holder isHolder)
  · rw [card_singleton]
    omega

theorem unique (small : count ≤ 1) {left right : Holder}
    (isLeft : holders left) (isRight : holders right) : left = right := by
  rcases held with ⟨cover, covers, size⟩
  exact Finset.card_le_one.mp (by omega) left (covers left isLeft) right (covers right isRight)

variable [DecidableEq Holder]

theorem share (joining : Holder) :
    HeldBy (fun holder => holders holder ∨ holder = joining) (sharedCount count) := by
  rcases held with ⟨cover, covers, size⟩
  refine ⟨insert joining cover, ?_, ?_⟩
  · intro holder isHolder
    rcases isHolder with isHolder | same
    · exact mem_insert_of_mem (covers holder isHolder)
    · exact same ▸ mem_insert_self _ _
  · have grown := card_insert_le joining cover
    rw [sharedCount]
    split <;> omega

theorem drop {leaving : Holder} (isHolder : holders leaving) :
    HeldBy (fun holder => holders holder ∧ holder ≠ leaving) (count - 1) := by
  rcases held with ⟨cover, covers, size⟩
  refine ⟨cover.erase leaving, ?_, ?_⟩
  · intro holder remaining
    exact mem_erase.mpr ⟨remaining.2, covers holder remaining.1⟩
  · rw [card_erase_of_mem (covers leaving isHolder)]
    omega

end

end HeldBy

end Qunix.Foundation
