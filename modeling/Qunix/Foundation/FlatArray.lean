import Mathlib.Data.List.Basic

/-! # Flat arrays

Arrays without an end that are read and written in pieces, and the same for a piece
that is held as a list.
-/

namespace Qunix.Foundation.FlatArray

open List

universe u

variable {Item : Type u}

def load (items : Nat → Item) (offset count : Nat) : List Item :=
  (List.range count).map fun index => items (offset + index)

def store (items : Nat → Item) (offset : Nat) (data : List Item) : Nat → Item := fun position =>
  if offset ≤ position then (data[position - offset]?).getD (items position) else items position

def overwrite (list : List Item) (offset : Nat) (data : List Item) : List Item :=
  list.take offset ++ data ++ list.drop (offset + data.length)

/-! ## Loading -/

variable {items : Nat → Item} {offset count : Nat} {data : List Item}

@[simp] theorem length_load : (load items offset count).length = count := by
  rw [load, length_map, length_range]

variable {index place : Nat} {list : List Item}

theorem getElem?_load (inside : index < count) :
    (load items offset count)[index]? = some (items (offset + index)) := by
  rw [load, getElem?_map, getElem?_range inside, Option.map_some]

theorem load_congr {other : Nat → Item}
    (same : ∀ index < count, items (offset + index) = other (place + index)) :
    load items offset count = load other place count := by
  apply map_congr_left
  intro index member
  exact same index (mem_range.mp member)

theorem load_add (first second : Nat) :
    load items offset (first + second) =
      load items offset first ++ load items (offset + first) second := by
  rw [load, load, load, range_add, map_append, map_map]
  congr 1
  apply map_congr_left
  intro index _
  rw [Function.comp_apply, Nat.add_assoc]

theorem take_load {first : Nat} (inside : first ≤ count) :
    (load items offset count).take first = load items offset first := by
  obtain ⟨rest, rfl⟩ := Nat.exists_eq_add_of_le inside
  rw [load_add, take_left' length_load]

theorem drop_load {first : Nat} (inside : first ≤ count) :
    (load items offset count).drop first = load items (offset + first) (count - first) := by
  obtain ⟨rest, rfl⟩ := Nat.exists_eq_add_of_le inside
  rw [load_add, drop_left' length_load, Nat.add_sub_cancel_left]

/-! ## Storing -/

theorem store_inside (inside : index < data.length) :
    store items offset data (offset + index) = data[index] := by
  rw [store, if_pos (Nat.le_add_right _ _), Nat.add_sub_cancel_left,
    getElem?_eq_getElem inside, Option.getD_some]

theorem store_outside {position : Nat}
    (outside : position < offset ∨ offset + data.length ≤ position) :
    store items offset data position = items position := by
  rw [store]
  split
  next after =>
    rw [getElem?_eq_none (by omega), Option.getD_none]
  next => rfl

@[simp] theorem store_nil : store items offset [] = items := by
  funext position
  exact store_outside (by simp only [length_nil, Nat.add_zero]; omega)

theorem store_append (first second : List Item) :
    store (store items offset first) (offset + first.length) second =
      store items offset (first ++ second) := by
  funext position
  by_cases before : position < offset + first.length
  · rw [store_outside (.inl before)]
    by_cases after : offset ≤ position
    · obtain ⟨index, rfl⟩ := Nat.exists_eq_add_of_le after
      have inside : index < first.length := by omega
      rw [store_inside inside, store_inside (by rw [length_append]; omega),
        getElem_append_left inside]
    · rw [store_outside (.inl (by omega)), store_outside (.inl (by omega))]
  · by_cases inside : position < offset + first.length + second.length
    · obtain ⟨index, rfl⟩ := Nat.exists_eq_add_of_le (Nat.le_of_not_lt before)
      rw [store_inside (by omega : index < second.length), Nat.add_assoc offset,
        store_inside (by rw [length_append]; omega),
        getElem_append_right (Nat.le_add_right _ _)]
      simp only [Nat.add_sub_cancel_left]
    · rw [store_outside (.inr (by omega)), store_outside (.inr (by omega)),
        store_outside (.inr (by rw [length_append]; omega))]

theorem load_store_same : load (store items offset data) offset data.length = data := by
  apply ext_getElem?
  intro index
  by_cases inside : index < data.length
  · rw [getElem?_load inside, store_inside inside, getElem?_eq_getElem inside]
  · rw [getElem?_eq_none (by rw [length_load]; omega), getElem?_eq_none (by omega)]

theorem load_store_outside (outside : place + data.length ≤ offset ∨ offset + count ≤ place) :
    load (store items place data) offset count = load items offset count := by
  apply load_congr
  intro index inside
  apply store_outside
  omega

/-- Records of one size under different numbers do not overlap. -/
theorem records_apart {left right : Nat} (size : Nat) (different : left ≠ right) :
    left * size + size ≤ right * size ∨ right * size + size ≤ left * size := by
  rw [← Nat.succ_mul, ← Nat.succ_mul]
  rcases Nat.lt_or_gt_of_ne different with before | after
  · exact .inl (Nat.mul_le_mul_right _ before)
  · exact .inr (Nat.mul_le_mul_right _ after)

/-! ## Lists -/

@[simp] theorem length_overwrite (inside : offset + data.length ≤ list.length) :
    (overwrite list offset data).length = list.length := by
  simp only [overwrite, length_append, length_take, length_drop]
  omega

theorem getElem?_overwrite_outside (inside : offset + data.length ≤ list.length)
    (outside : index < offset ∨ offset + data.length ≤ index) :
    (overwrite list offset data)[index]? = list[index]? := by
  have front : (list.take offset).length = offset := length_take_of_le (by omega)
  rw [overwrite]
  rcases outside with before | after
  · rw [append_assoc, getElem?_append_left (by omega), getElem?_take_of_lt before]
  · rw [getElem?_append_right (by rw [length_append]; omega), getElem?_drop, length_append]
    congr 1
    omega

theorem overwrite_append (first second : List Item) (inside : offset + first.length ≤ list.length) :
    overwrite (overwrite list offset first) (offset + first.length) second =
      overwrite list offset (first ++ second) := by
  have front : (list.take offset ++ first).length = offset + first.length := by
    rw [length_append, length_take_of_le (by omega)]
  rw [overwrite, overwrite, take_left' front, ← drop_drop, drop_left' front,
    drop_drop, overwrite, length_append, append_assoc (list.take offset),
    Nat.add_assoc]

theorem overwrite_middle {old data : List Item} (front rest : List Item)
    (same : old.length = data.length) :
    overwrite (front ++ (old ++ rest)) front.length data = front ++ (data ++ rest) := by
  rw [overwrite, take_left, ← drop_drop, drop_left, drop_left' same, append_assoc]

theorem load_store_inside (before : offset ≤ place) (after : place + data.length ≤ offset + count) :
    load (store items place data) offset count =
      overwrite (load items offset count) (place - offset) data := by
  have whole : count = (place - offset) +
      (data.length + (offset + count - (place + data.length))) := by
    omega
  rw [overwrite, take_load (by omega), drop_load (by omega)]
  conv => lhs; rw [whole]
  rw [load_add, load_add, ← Nat.add_sub_assoc before, Nat.add_sub_cancel_left, load_store_same,
    load_store_outside (.inr (by omega)), load_store_outside (.inl (by omega)),
    append_assoc]
  congr 3
  · omega
  · omega

end Qunix.Foundation.FlatArray
