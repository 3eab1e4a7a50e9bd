import Mathlib.Data.Finset.Card

/-! # Bitmaps stored in 64-bit words

An array of words read as one sequence of bits: bit `index` is bit
`index % 64` of word `index / 64`. Nothing here depends on what a bit stands
for.
-/

namespace Qunix.Foundation

open BitVec Finset Function

abbrev WordBitmap := Nat → BitVec 64

namespace WordBitmap

def empty : WordBitmap := fun _ => 0#64

/-- The word with only the bit of `index` set. -/
def mask (index : Nat) : BitVec 64 := 1#64 <<< (index % 64)

def test (bitmap : WordBitmap) (index : Nat) : Bool :=
  bitmap (index / 64) &&& mask index != 0#64

def set (bitmap : WordBitmap) (index : Nat) : WordBitmap :=
  Function.update bitmap (index / 64) (bitmap (index / 64) ||| mask index)

def clear (bitmap : WordBitmap) (index : Nat) : WordBitmap :=
  Function.update bitmap (index / 64) (bitmap (index / 64) &&& ~~~mask index)

/-- The lowest set bit among `count` words from word `start` on. -/
def firstSetFrom (bitmap : WordBitmap) : (start count : Nat) → Option Nat
  | _, 0 => none
  | start, count + 1 =>
    if bitmap start != 0#64 then
      some (start * 64 + (bitmap start).ctz.toNat)
    else
      firstSetFrom bitmap (start + 1) count

example : firstSetFrom (set (set empty 200) 70) 0 8 = some 70 := by decide +kernel

theorem firstSetFrom_empty (start count : Nat) : firstSetFrom empty start count = none := by
  induction count generalizing start with
  | zero => rfl
  | succ count induction =>
    rw [firstSetFrom, if_neg (by simp [empty])]
    exact induction (start + 1)

/-! ## Reading bits after an update -/

theorem getLsbD_mask (index position : Nat) (inWord : position < 64) :
    (mask index).getLsbD position = decide (position = index % 64) := by
  simp only [mask, getLsbD_shiftLeft, getLsbD_one, inWord,
    decide_true, Bool.true_and]
  by_cases equal : position = index % 64
  · simp [equal]
  · have different : ¬(¬position < index % 64 ∧ position - index % 64 = 0) := by omega
    grind

theorem test_eq_getLsbD (bitmap : WordBitmap) (index : Nat) :
    bitmap.test index = (bitmap (index / 64)).getLsbD (index % 64) := by
  have bound : index % 64 < 64 := Nat.mod_lt _ (by omega)
  cases bit : (bitmap (index / 64)).getLsbD (index % 64) with
  | true =>
    rw [test, bne_iff_ne]
    intro zero
    have atBit := congrArg (fun word => word.getLsbD (index % 64)) zero
    simp [getLsbD_and, bit, getLsbD_mask _ _ bound] at atBit
  | false =>
    rw [test, bne_eq_false_iff_eq]
    apply eq_of_getLsbD_eq
    intro position inWord
    rw [getLsbD_and, getLsbD_mask _ _ inWord, getLsbD_zero]
    by_cases equal : position = index % 64
    · simp [equal, bit]
    · simp [equal]

private theorem index_eq_iff (left right : Nat) :
    left = right ↔ left / 64 = right / 64 ∧ left % 64 = right % 64 := by
  omega

@[simp] theorem test_empty (index : Nat) : empty.test index = false := by
  simp [test_eq_getLsbD, empty]

theorem test_set (bitmap : WordBitmap) (index other : Nat) :
    (bitmap.set index).test other = (decide (other = index) || bitmap.test other) := by
  have bound : other % 64 < 64 := Nat.mod_lt _ (by omega)
  rw [test_eq_getLsbD, test_eq_getLsbD, set]
  by_cases sameWord : other / 64 = index / 64
  · rw [sameWord, update_self, getLsbD_or, getLsbD_mask _ _ bound, Bool.or_comm]
    simp [index_eq_iff other index, sameWord]
  · rw [update_of_ne sameWord]
    simp [index_eq_iff other index, sameWord]

theorem test_clear (bitmap : WordBitmap) (index other : Nat) :
    (bitmap.clear index).test other = (decide (other ≠ index) && bitmap.test other) := by
  have bound : other % 64 < 64 := Nat.mod_lt _ (by omega)
  rw [test_eq_getLsbD, test_eq_getLsbD, clear]
  by_cases sameWord : other / 64 = index / 64
  · rw [sameWord, update_self, getLsbD_and, getLsbD_not, getLsbD_mask _ _ bound, Bool.and_comm]
    simp [index_eq_iff other index, sameWord, bound]
  · rw [update_of_ne sameWord]
    simp [index_eq_iff other index, sameWord]

/-! ## Searching -/

variable {bitmap : WordBitmap} {index : Nat}

theorem firstSetFrom_some {start count : Nat}
    (found : bitmap.firstSetFrom start count = some index) :
    bitmap.test index = true := by
  induction count generalizing start with
  | zero => simp [firstSetFrom] at found
  | succ count induction =>
    rw [firstSetFrom] at found
    by_cases nonzero : bitmap start = 0#64
    · simp only [nonzero, bne_self_eq_false, Bool.false_eq_true, if_false] at found
      exact induction found
    have inWord : (bitmap start).ctz.toNat < 64 := by
      have below := BitVec.ctz_lt_iff_ne_zero.mpr nonzero
      rw [lt_def] at below
      simpa using below
    simp only [bne_iff_ne, ne_eq, nonzero, not_false_eq_true, if_true, Option.some.injEq] at found
    have word : index / 64 = start := by omega
    have position : index % 64 = (bitmap start).ctz.toNat := by omega
    rw [test_eq_getLsbD, word, position]
    exact getLsbD_true_ctz_of_ne_zero nonzero

/-! ## Counting -/

/-- The number of set bits among the first `bound` bits. -/
def count (bitmap : WordBitmap) (bound : Nat) : Nat :=
  ((Finset.range bound).filter fun index => bitmap.test index = true).card

@[simp] theorem count_empty (bound : Nat) : empty.count bound = 0 := by
  simp [count]

theorem count_set {bound : Nat}
    (inBound : index < bound) (unset : bitmap.test index = false) :
    (bitmap.set index).count bound = bitmap.count bound + 1 := by
  have split : ((Finset.range bound).filter fun other => (bitmap.set index).test other = true) =
      insert index ((Finset.range bound).filter fun other => bitmap.test other = true) := by
    ext other
    simp only [test_set, mem_filter, mem_range, mem_insert, Bool.or_eq_true, decide_eq_true_eq]
    constructor
    · rintro ⟨below, rfl | isSet⟩
      · exact .inl rfl
      · exact .inr ⟨below, isSet⟩
    · rintro (rfl | ⟨below, isSet⟩)
      · exact ⟨inBound, .inl rfl⟩
      · exact ⟨below, .inr isSet⟩
  rw [count, split, card_insert_of_notMem (by simp [unset]), count]

theorem count_clear {bound : Nat}
    (inBound : index < bound) (isSet : bitmap.test index = true) :
    (bitmap.clear index).count bound + 1 = bitmap.count bound := by
  have split : ((Finset.range bound).filter fun other => (bitmap.clear index).test other = true) =
      ((Finset.range bound).filter fun other => bitmap.test other = true).erase index := by
    ext other
    simp only [test_clear, mem_filter, mem_range, mem_erase, Bool.and_eq_true, decide_eq_true_eq]
    tauto
  have member : index ∈ (Finset.range bound).filter fun other => bitmap.test other = true := by
    simp [inBound, isSet]
  rw [count, split, card_erase_add_one member, count]

end WordBitmap

end Qunix.Foundation
