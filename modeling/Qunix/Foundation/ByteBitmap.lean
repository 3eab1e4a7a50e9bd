import Mathlib.Data.Finset.Card

/-! # Bitmaps stored in bytes

A list of bytes read as one sequence of bits: bit `index` is bit `index % 8` of byte
`index / 8`.
-/

namespace Qunix.Foundation.ByteBitmap

open BitVec Finset List

/-- The byte with only the bit of `index` set. -/
def mask (index : Nat) : BitVec 8 := 1#8 <<< (index % 8)

def test (bitmap : List UInt8) (index : Nat) : Bool :=
  (bitmap.getD (index / 8) 0).toBitVec.getLsbD (index % 8)

def set (bitmap : List UInt8) (index : Nat) : List UInt8 :=
  bitmap.set (index / 8) ⟨(bitmap.getD (index / 8) 0).toBitVec ||| mask index⟩

def clear (bitmap : List UInt8) (index : Nat) : List UInt8 :=
  bitmap.set (index / 8) ⟨(bitmap.getD (index / 8) 0).toBitVec &&& ~~~mask index⟩

def firstClear (bitmap : List UInt8) : Option Nat :=
  (List.range (8 * bitmap.length)).find? fun index => !test bitmap index

example : firstClear (set (set [0, 0] 0) 1) = some 2 := by decide

variable {bitmap : List UInt8} {index other : Nat}

theorem getLsbD_mask (index position : Nat) (inByte : position < 8) :
    (mask index).getLsbD position = decide (position = index % 8) := by
  simp only [mask, getLsbD_shiftLeft, getLsbD_one, inByte, decide_true, Bool.true_and]
  by_cases equal : position = index % 8
  · simp [equal]
  · have different : ¬(¬position < index % 8 ∧ position - index % 8 = 0) := by omega
    grind

@[simp] theorem length_set : (set bitmap index).length = bitmap.length := List.length_set

@[simp] theorem length_clear : (clear bitmap index).length = bitmap.length := List.length_set

theorem test_set (inside : index / 8 < bitmap.length) :
    test (set bitmap index) other = (decide (other = index) || test bitmap other) := by
  have bound : other % 8 < 8 := Nat.mod_lt _ (by omega)
  rw [test, test, set, getD_eq_getElem?_getD, getElem?_set]
  by_cases sameByte : index / 8 = other / 8
  · rw [if_pos sameByte, if_pos inside, Option.getD_some, getLsbD_or,
      getLsbD_mask _ _ bound, Bool.or_comm, sameByte]
    congr 2
    rw [eq_iff_iff]
    omega
  · have different : other ≠ index := fun same => sameByte (same ▸ rfl)
    rw [if_neg sameByte, getD_eq_getElem?_getD, decide_eq_false different, Bool.false_or]

theorem test_clear (inside : index / 8 < bitmap.length) :
    test (clear bitmap index) other = (decide (other ≠ index) && test bitmap other) := by
  have bound : other % 8 < 8 := Nat.mod_lt _ (by omega)
  rw [test, test, clear, getD_eq_getElem?_getD, getElem?_set]
  by_cases sameByte : index / 8 = other / 8
  · rw [if_pos sameByte, if_pos inside, Option.getD_some, getLsbD_and, getLsbD_not,
      getLsbD_mask _ _ bound, Bool.and_comm, sameByte, decide_eq_true bound, Bool.true_and,
      ← decide_not]
    congr 2
    rw [eq_iff_iff]
    omega
  · have different : other ≠ index := fun same => sameByte (same ▸ rfl)
    rw [if_neg sameByte, getD_eq_getElem?_getD, decide_eq_true different, Bool.true_and]

theorem firstClear_some (found : firstClear bitmap = some index) :
    index < 8 * bitmap.length ∧ test bitmap index = false := by
  have member := mem_of_find?_eq_some found
  have isClear := find?_some found
  exact ⟨List.mem_range.mp member, by simpa using isClear⟩

theorem firstClear_none (full : firstClear bitmap = none) (inside : index < 8 * bitmap.length) :
    test bitmap index = true := by
  have tested := find?_eq_none.mp full index (List.mem_range.mpr inside)
  simpa using tested

/-! ## The number of clear bits -/

def clearBits (bitmap : List UInt8) : Finset Nat :=
  (Finset.range (8 * bitmap.length)).filter fun index => test bitmap index = false

def clearCount (bitmap : List UInt8) : Nat := (clearBits bitmap).card

theorem mem_clearBits :
    index ∈ clearBits bitmap ↔ index < 8 * bitmap.length ∧ test bitmap index = false := by
  rw [clearBits, Finset.mem_filter, Finset.mem_range]

section

variable (inside : index / 8 < bitmap.length)

include inside

theorem clearBits_set :
    clearBits (set bitmap index) = (clearBits bitmap).erase index := by
  ext other
  rw [mem_clearBits, mem_erase, mem_clearBits, length_set, test_set inside]
  by_cases same : other = index
  · simp [same]
  · simp [same]

theorem clearBits_clear :
    clearBits (clear bitmap index) = insert index (clearBits bitmap) := by
  ext other
  rw [mem_clearBits, mem_insert, mem_clearBits, length_clear, test_clear inside]
  by_cases same : other = index
  · simp only [same, ne_eq, not_true_eq_false, decide_false, Bool.false_and, and_true, true_or,
      iff_true]
    omega
  · simp [same]

theorem clearCount_set (isClear : test bitmap index = false) :
    clearCount (set bitmap index) + 1 = clearCount bitmap := by
  rw [clearCount, clearBits_set inside]
  apply card_erase_add_one
  exact mem_clearBits.mpr ⟨by omega, isClear⟩

theorem clearCount_clear :
    clearCount (clear bitmap index) = clearCount bitmap + if test bitmap index then 1 else 0 := by
  rw [clearCount, clearCount, clearBits_clear inside]
  split
  next marked =>
    apply card_insert_of_notMem
    rw [mem_clearBits, marked]
    simp
  next isClear =>
    rw [insert_eq_of_mem, Nat.add_zero]
    exact mem_clearBits.mpr ⟨by omega, by simpa using isClear⟩

end

theorem clearCount_eq_zero : clearCount bitmap = 0 ↔ firstClear bitmap = none := by
  rw [clearCount, card_eq_zero]
  constructor
  · intro empty
    rw [firstClear, find?_eq_none]
    intro index member
    have notClear : index ∉ clearBits bitmap := by
      rw [empty]
      exact notMem_empty index
    rw [mem_clearBits] at notClear
    simpa [List.mem_range.mp member] using notClear
  · intro full
    apply eq_empty_of_forall_notMem
    intro index member
    rcases mem_clearBits.mp member with ⟨inside, isClear⟩
    rw [firstClear_none full inside] at isClear
    cases isClear

end Qunix.Foundation.ByteBitmap
