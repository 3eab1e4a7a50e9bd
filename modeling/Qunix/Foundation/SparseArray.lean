import Mathlib.Data.List.Basic

/-! # Sparse arrays

Arrays that can be written anywhere. What was never written, or was cut off, reads
as the filler.
-/

namespace Qunix.Foundation

universe u

/-- An array of a length, with the filler past its end. -/
@[ext]
structure SparseArray (Item : Type u) (filler : Item) where
  length : Nat
  item : Nat → Item
  blank : ∀ index, length ≤ index → item index = filler

namespace SparseArray

variable {Item : Type u} {filler : Item}

def empty : SparseArray Item filler where
  length := 0
  item := fun _ => filler
  blank := fun _ _ => rfl

variable (self : SparseArray Item filler)

/-- Up to `count` items from an offset on, as far as the array goes. -/
def read (offset count : Nat) : List Item :=
  (List.range (min count (self.length - offset))).map fun index => self.item (offset + index)

def write (offset : Nat) (data : List Item) :
    SparseArray Item filler where
  length := if data.isEmpty then self.length else max self.length (offset + data.length)
  item := fun index =>
    if offset ≤ index ∧ index < offset + data.length then data.getD (index - offset) filler
    else self.item index
  blank := by
    intro index past
    have outside : ¬(offset ≤ index ∧ index < offset + data.length) := by
      cases data with
      | nil => simp
      | cons first rest =>
        simp only [List.isEmpty_cons, Bool.false_eq_true, if_false] at past
        omega
    rw [if_neg outside]
    apply self.blank
    split at past <;> omega

def truncate (length : Nat) : SparseArray Item filler where
  length := length
  item := fun index => if index < length then self.item index else filler
  blank := fun _ past => if_neg (Nat.not_lt_of_le past)

end SparseArray

end Qunix.Foundation
