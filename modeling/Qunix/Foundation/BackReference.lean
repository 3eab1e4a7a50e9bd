import Mathlib.Data.List.Basic

/-! # Back references

Output that grows by copies of its own earlier items, one at a time, so that a copy
may run into the items it has just produced.
-/

namespace Qunix.Foundation

universe u

variable {Item : Type u}

/-- Append `count` items, each from `offset` items back. -/
def copyBack (out : List Item) (offset : Nat) : (count : Nat) → List Item
  | 0 => out
  | count + 1 =>
    let copied := copyBack out offset count
    copied ++ (copied[copied.length - offset]?).toList

theorem copyBack_take {input : List Item} {pos offset : Nat} (positive : 0 < offset)
    (inside : offset ≤ pos) : ∀ {count}, pos + count ≤ input.length →
      (∀ index, index < count → input[pos - offset + index]? = input[pos + index]?) →
      copyBack (input.take pos) offset count = input.take (pos + count) := by
  intro count
  induction count with
  | zero =>
    intro _ _
    rfl
  | succ count induction =>
    intro room equal
    have copied := induction (by omega) fun index below => equal index (by omega)
    have length : (input.take (pos + count)).length = pos + count := by
      rw [List.length_take]
      omega
    have source : pos + count - offset = pos - offset + count := by omega
    rw [copyBack, copied, length, source, List.getElem?_take_of_lt (by omega),
      equal count (Nat.lt_succ_self count), ← Nat.add_assoc, List.take_add_one]

end Qunix.Foundation
