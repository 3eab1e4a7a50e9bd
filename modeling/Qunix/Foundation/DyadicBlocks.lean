import Mathlib.Data.Nat.Bitwise

/-! # Families of aligned power-of-two blocks

The block of order `order` and index `index` holds the positions `position`
with `position / 2 ^ order = index`. A family says which blocks are present.
-/

namespace Qunix.Foundation

/-! ## Buddies -/

theorem xor_one_div_two (index : Nat) : (index ^^^ 1) / 2 = index / 2 := by
  simp [Nat.xor_div_two]

theorem xor_one_ne (index : Nat) : index ^^^ 1 ≠ index := by
  intro equal
  have parity := Nat.xor_mod_two_eq (m := index) (n := 1)
  omega

theorem div_two_eq_iff (left right : Nat) :
    left / 2 = right / 2 ↔ left = right ∨ left = right ^^^ 1 := by
  have quotient := xor_one_div_two right
  have parity := Nat.xor_mod_two_eq (m := right) (n := 1)
  omega

theorem xor_one_lt_of_lt_even {index half : Nat} (below : index < 2 * half) :
    index ^^^ 1 < 2 * half := by
  have quotient := xor_one_div_two index
  omega

theorem div_two_pow_succ (position order : Nat) :
    position / 2 ^ (order + 1) = position / 2 ^ order / 2 := by
  rw [pow_succ, Nat.div_div_eq_div_mul]

theorem mem_parent_iff (position order index : Nat) :
    position / 2 ^ (order + 1) = index / 2 ↔
      position / 2 ^ order = index ∨ position / 2 ^ order = index ^^^ 1 := by
  rw [div_two_pow_succ, div_two_eq_iff]

theorem mem_halves_iff (position order index : Nat) :
    position / 2 ^ (order + 1) = index ↔
      position / 2 ^ order = index * 2 ∨ position / 2 ^ order = index * 2 + 1 := by
  rw [div_two_pow_succ]
  omega

/-! ## Families -/

abbrev DyadicFamily := Nat → Nat → Prop

namespace DyadicFamily

def Occupies (family : DyadicFamily) (position : Nat) : Prop :=
  ∃ order, family order (position / 2 ^ order)

/-- No position lies in two blocks of the family. -/
def Exclusive (family : DyadicFamily) : Prop :=
  ∀ position left right, family left (position / 2 ^ left) →
    family right (position / 2 ^ right) → left = right

/-- Below order `limit` a block and its buddy are never both present, so the
family cannot be merged any further. -/
def Coalesced (family : DyadicFamily) (limit : Nat) : Prop :=
  ∀ order index, order < limit → family order index → ¬family order (index ^^^ 1)

/-- No position of the block lies in the family. -/
def Vacant (family : DyadicFamily) (order index : Nat) : Prop :=
  ∀ position, position / 2 ^ order = index → ¬family.Occupies position

def insert (family : DyadicFamily) (order index : Nat) : DyadicFamily :=
  fun other position => (other = order ∧ position = index) ∨ family other position

def erase (family : DyadicFamily) (order index : Nat) : DyadicFamily :=
  fun other position => ¬(other = order ∧ position = index) ∧ family other position

variable {family : DyadicFamily} {order index limit : Nat}

theorem Vacant.not_mem (vacant : family.Vacant order index) : ¬family order index := by
  intro present
  have start : index * 2 ^ order / 2 ^ order = index :=
    Nat.mul_div_cancel _ (Nat.two_pow_pos order)
  exact vacant _ start ⟨order, start.symm ▸ present⟩

theorem Vacant.parent (left : family.Vacant order index)
    (right : family.Vacant order (index ^^^ 1)) :
    family.Vacant (order + 1) (index / 2) := by
  intro position inside
  rcases (mem_parent_iff position order index).mp inside with inLeft | inRight
  · exact left position inLeft
  · exact right position inRight

theorem Vacant.left_half (vacant : family.Vacant (order + 1) index) :
    family.Vacant order (index * 2) := fun position inside =>
  vacant position ((mem_halves_iff position order index).mpr (.inl inside))

theorem Vacant.right_half (vacant : family.Vacant (order + 1) index) :
    family.Vacant order (index * 2 + 1) := fun position inside =>
  vacant position ((mem_halves_iff position order index).mpr (.inr inside))

/-! ## Inserting a block -/

theorem occupies_insert (position : Nat) :
    (family.insert order index).Occupies position ↔
      position / 2 ^ order = index ∨ family.Occupies position := by
  constructor
  · rintro ⟨other, ⟨rfl, inside⟩ | present⟩
    · exact .inl inside
    · exact .inr ⟨other, present⟩
  · rintro (inside | ⟨other, present⟩)
    · exact ⟨order, .inl ⟨rfl, inside⟩⟩
    · exact ⟨other, .inr present⟩

theorem Exclusive.insert (exclusive : family.Exclusive)
    (vacant : family.Vacant order index) : (family.insert order index).Exclusive := by
  rintro position left right (⟨rfl, inLeft⟩ | atLeft) (⟨rfl, inRight⟩ | atRight)
  · rfl
  · exact absurd ⟨right, atRight⟩ (vacant position inLeft)
  · exact absurd ⟨left, atLeft⟩ (vacant position inRight)
  · exact exclusive position left right atLeft atRight

theorem Coalesced.insert (coalesced : family.Coalesced limit)
    (noBuddy : order < limit → ¬family order (index ^^^ 1)) :
    (family.insert order index).Coalesced limit := by
  rintro other position below (⟨rfl, rfl⟩ | present) (⟨sameOrder, equal⟩ | buddyPresent)
  · exact xor_one_ne position equal
  · exact noBuddy below buddyPresent
  · subst sameOrder
    apply noBuddy below
    rw [← equal, Nat.xor_xor_cancel_right]
    exact present
  · exact coalesced other position below present buddyPresent

/-! ## Erasing a block -/

theorem Exclusive.erase (exclusive : family.Exclusive) :
    (family.erase order index).Exclusive := fun position left right atLeft atRight =>
  exclusive position left right atLeft.2 atRight.2

theorem Coalesced.erase (coalesced : family.Coalesced limit) :
    (family.erase order index).Coalesced limit :=
  fun other position below present buddyPresent =>
    coalesced other position below present.2 buddyPresent.2

theorem occupies_erase (exclusive : family.Exclusive) (present : family order index)
    (position : Nat) :
    (family.erase order index).Occupies position ↔
      family.Occupies position ∧ position / 2 ^ order ≠ index := by
  constructor
  · rintro ⟨other, different, atOther⟩
    refine ⟨⟨other, atOther⟩, ?_⟩
    rintro inside
    have sameOrder : other = order :=
      exclusive position other order atOther (inside ▸ present)
    subst sameOrder
    exact different ⟨rfl, inside⟩
  · rintro ⟨⟨other, atOther⟩, outside⟩
    refine ⟨other, ?_, atOther⟩
    rintro ⟨rfl, inside⟩
    exact outside inside

end DyadicFamily

end Qunix.Foundation
