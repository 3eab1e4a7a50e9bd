import Mathlib.Tactic.NormNum.Basic
import Qunix.Foundation.FlatArray

/-! # Numbers in bytes

Fixed-width numbers as byte strings, and the fields of a byte string read back.
-/

namespace Qunix.Foundation.Bytes

open List UInt8
open Nat (add_assoc add_zero zero_add)

def be16 (value : Nat) : List UInt8 := [ofNat (value / 256), ofNat value]

def be32 (value : Nat) : List UInt8 :=
  [ofNat (value / 16777216), ofNat (value / 65536), ofNat (value / 256), ofNat value]

def be64 (value : Nat) : List UInt8 := be32 (value / 4294967296) ++ be32 value

def le16 (value : Nat) : List UInt8 := [ofNat value, ofNat (value / 256)]

def le32 (value : Nat) : List UInt8 := (be32 value).reverse

def le64 (value : Nat) : List UInt8 :=
  [ofNat value, ofNat (value / 2 ^ 8), ofNat (value / 2 ^ 16),
    ofNat (value / 2 ^ 24), ofNat (value / 2 ^ 32), ofNat (value / 2 ^ 40),
    ofNat (value / 2 ^ 48), ofNat (value / 2 ^ 56)]

variable (bytes : List UInt8)

def byteAt (offset : Nat) : Nat := (bytes.getD offset 0).toNat

def readBe16 (offset : Nat) : Nat :=
  byteAt bytes offset * 256 + byteAt bytes (offset + 1)

def readBe32 (offset : Nat) : Nat :=
  readBe16 bytes offset * 65536 + readBe16 bytes (offset + 2)

def readLe16 (offset : Nat) : Nat :=
  byteAt bytes offset + 256 * byteAt bytes (offset + 1)

def readLe32 (offset : Nat) : Nat :=
  readLe16 bytes offset + 65536 * readLe16 bytes (offset + 2)

def readLe64 (offset : Nat) : Nat :=
  byteAt bytes offset + 2 ^ 8 * byteAt bytes (offset + 1) + 2 ^ 16 * byteAt bytes (offset + 2) +
    2 ^ 24 * byteAt bytes (offset + 3) + 2 ^ 32 * byteAt bytes (offset + 4) +
    2 ^ 40 * byteAt bytes (offset + 5) + 2 ^ 48 * byteAt bytes (offset + 6) +
    2 ^ 56 * byteAt bytes (offset + 7)

/-- A buffer of the given length: cut off, or filled up with zeros. -/
def resize (length : Nat) (bytes : List UInt8) : List UInt8 :=
  (bytes ++ List.replicate length 0).take length

@[simp]
theorem length_resize (length : Nat) (bytes : List UInt8) :
    (resize length bytes).length = length := by
  simp [resize]

variable {offset value other : Nat} {left right : List UInt8}

theorem byteAt_resize {length : Nat} {bytes : List UInt8} (inside : offset < length) :
    byteAt (resize length bytes) offset = byteAt bytes offset := by
  rw [byteAt, byteAt, resize, getD_eq_getElem?_getD, getD_eq_getElem?_getD,
    getElem?_take_of_lt inside]
  congr 1
  by_cases early : offset < bytes.length
  · rw [getElem?_append_left early]
  · rw [getElem?_append_right (le_of_not_gt early),
      getElem?_eq_none (le_of_not_gt early), getElem?_replicate]
    split <;> rfl

theorem readBe32_resize {length : Nat} {bytes : List UInt8} (inside : offset + 4 ≤ length) :
    readBe32 (resize length bytes) offset = readBe32 bytes offset := by
  simp only [readBe32, readBe16]
  rw [byteAt_resize (by omega), byteAt_resize (by omega), byteAt_resize (by omega),
    byteAt_resize (by omega)]

theorem byteAt_append (front bytes : List UInt8) (offset : Nat) :
    byteAt (front ++ bytes) (front.length + offset) = byteAt bytes offset := by
  rw [byteAt, byteAt, getD_eq_getElem?_getD, getD_eq_getElem?_getD,
    getElem?_append_right (Nat.le_add_right _ _), Nat.add_sub_cancel_left]

theorem readBe32_append (front bytes : List UInt8) (offset : Nat) :
    readBe32 (front ++ bytes) (front.length + offset) = readBe32 bytes offset := by
  simp only [readBe32, readBe16, add_assoc, byteAt_append]

theorem readBe32_be32 (small : value < 4294967296) (rest : List UInt8) :
    readBe32 (be32 value ++ rest) 0 = value := by
  simp only [readBe32, readBe16, byteAt, be32, cons_append, nil_append,
    getD_cons_zero, getD_cons_succ, toNat_ofNat', zero_add]
  omega

theorem readBe32_lt (offset : Nat) : readBe32 bytes offset < 2 ^ 32 := by
  have bound : ∀ index, byteAt bytes index < 256 := fun index => (bytes.getD index 0).toNat_lt
  have first := bound offset
  have second := bound (offset + 1)
  have third := bound (offset + 2)
  have fourth := bound (offset + 2 + 1)
  rw [readBe32, readBe16, readBe16]
  omega

theorem readBe32_next (rest : List UInt8) (offset : Nat) :
    readBe32 (be32 value ++ rest) (4 + offset) = readBe32 rest offset :=
  readBe32_append (be32 value) rest offset

/-! ## Little-endian words -/

@[simp] theorem length_le16 (value : Nat) : (le16 value).length = 2 := rfl

@[simp] theorem length_le32 (value : Nat) : (le32 value).length = 4 := rfl

theorem byteAt_lt (offset : Nat) : byteAt bytes offset < 256 :=
  (bytes.getD offset 0).toNat_lt

theorem readLe16_lt (offset : Nat) : readLe16 bytes offset < 65536 := by
  have first := byteAt_lt bytes offset
  have second := byteAt_lt bytes (offset + 1)
  rw [readLe16]
  omega

theorem readLe32_lt (offset : Nat) : readLe32 bytes offset < 4294967296 := by
  have first := readLe16_lt bytes offset
  have second := readLe16_lt bytes (offset + 2)
  rw [readLe32]
  omega

theorem readLe16_congr
    (same : ∀ index < 2, byteAt left (offset + index) = byteAt right (other + index)) :
    readLe16 left offset = readLe16 right other := by
  have first := same 0 (by omega)
  rw [add_zero, add_zero] at first
  rw [readLe16, readLe16, first, same 1 (by omega)]

theorem readLe32_congr
    (same : ∀ index < 4, byteAt left (offset + index) = byteAt right (other + index)) :
    readLe32 left offset = readLe32 right other := by
  rw [readLe32, readLe32, readLe16_congr fun index inside => same index (by omega)]
  congr 2
  apply readLe16_congr
  intro index inside
  rw [add_assoc, add_assoc]
  exact same (2 + index) (by omega)

theorem readLe16_append (front bytes : List UInt8) (offset : Nat) :
    readLe16 (front ++ bytes) (front.length + offset) = readLe16 bytes offset := by
  simp only [readLe16, add_assoc, byteAt_append]

theorem readLe32_append (front bytes : List UInt8) (offset : Nat) :
    readLe32 (front ++ bytes) (front.length + offset) = readLe32 bytes offset := by
  simp only [readLe32, add_assoc, readLe16_append]

theorem readLe16_le16 (value : Nat) (rest : List UInt8) :
    readLe16 (le16 value ++ rest) 0 = value % 65536 := by
  simp only [readLe16, byteAt, le16, cons_append, nil_append, getD_cons_zero,
    getD_cons_succ, toNat_ofNat', zero_add]
  omega

theorem readLe32_le32 (value : Nat) (rest : List UInt8) :
    readLe32 (le32 value ++ rest) 0 = value % 4294967296 := by
  simp only [readLe32, readLe16, byteAt, le32, be32, reverse_cons, reverse_nil,
    cons_append, nil_append, getD_cons_zero, getD_cons_succ,
    toNat_ofNat', zero_add, Nat.reduceAdd]
  omega

theorem readLe64_congr
    (same : ∀ index < 8, byteAt left (offset + index) = byteAt right (other + index)) :
    readLe64 left offset = readLe64 right other := by
  have first := same 0 (by omega)
  rw [add_zero, add_zero] at first
  rw [readLe64, readLe64, first, same 1 (by omega), same 2 (by omega), same 3 (by omega),
    same 4 (by omega), same 5 (by omega), same 6 (by omega), same 7 (by omega)]

theorem readLe64_le64 (small : value < 2 ^ 64) (rest : List UInt8) :
    readLe64 (le64 value ++ rest) 0 = value := by
  simp only [readLe64, byteAt, le64, cons_append, nil_append, getD_cons_zero,
    getD_cons_succ, toNat_ofNat', zero_add]
  omega

theorem readLe64_flatMap (words : List (BitVec 64)) :
    ∀ {index : Nat} {word : BitVec 64}, words[index]? = some word →
      readLe64 (words.flatMap fun word => le64 word.toNat) (8 * index) = word.toNat := by
  induction words with
  | nil =>
    intro index word found
    cases found
  | cons head tail induction =>
    intro index word found
    rw [flatMap_cons]
    cases index with
    | zero =>
      cases found
      exact readLe64_le64 head.isLt _
    | succ index =>
      rw [← induction found]
      apply readLe64_congr
      intro position _
      have offset : 8 * (index + 1) + position =
          (le64 head.toNat).length + (8 * index + position) := by
        simp only [le64, length_cons, length_nil]
        omega
      rw [offset, byteAt_append]

/-! ## Fields in bytes

Words that are read from a byte string after a part of it has been overwritten.
-/

open FlatArray

variable {list data : List UInt8} {offset index : Nat}

section

variable (inside : offset + data.length ≤ list.length)
include inside

theorem byteAt_overwrite_outside (outside : index < offset ∨ offset + data.length ≤ index) :
    byteAt (overwrite list offset data) index = byteAt list index := by
  rw [byteAt, byteAt, getD_eq_getElem?_getD, getD_eq_getElem?_getD,
    getElem?_overwrite_outside inside outside]

theorem readLe16_overwrite_outside (outside : index + 2 ≤ offset ∨ offset + data.length ≤ index) :
    readLe16 (overwrite list offset data) index = readLe16 list index :=
  readLe16_congr fun _ small => byteAt_overwrite_outside inside (by omega)

theorem readLe32_overwrite_outside (outside : index + 4 ≤ offset ∨ offset + data.length ≤ index) :
    readLe32 (overwrite list offset data) index = readLe32 list index :=
  readLe32_congr fun _ small => byteAt_overwrite_outside inside (by omega)

end

theorem overwrite_part (front part rest : List UInt8) (inside : offset ≤ list.length) :
    ∃ before after, overwrite list offset (front ++ (part ++ rest)) = before ++ (part ++ after) ∧
      offset + front.length = before.length + 0 := by
  refine ⟨list.take offset ++ front,
    rest ++ list.drop (offset + (front ++ (part ++ rest)).length), ?_, ?_⟩
  · simp only [overwrite, append_assoc]
  · rw [length_append, length_take, min_eq_left inside, add_zero]

theorem readLe16_overwrite_part (front rest : List UInt8) (value : Nat)
    (inside : offset ≤ list.length) :
    readLe16 (overwrite list offset (front ++ (le16 value ++ rest))) (offset + front.length) =
      value % 65536 := by
  rcases overwrite_part front (le16 value) rest inside with ⟨before, after, same, place⟩
  rw [same, place, readLe16_append, readLe16_le16]

theorem readLe32_overwrite_part (front rest : List UInt8) (value : Nat)
    (inside : offset ≤ list.length) :
    readLe32 (overwrite list offset (front ++ (le32 value ++ rest))) (offset + front.length) =
      value % 4294967296 := by
  rcases overwrite_part front (le32 value) rest inside with ⟨before, after, same, place⟩
  rw [same, place, readLe32_append, readLe32_le32]

theorem readLe16_overwrite_here (value : Nat) (inside : offset ≤ list.length) :
    readLe16 (overwrite list offset (le16 value)) offset = value % 65536 := by
  have part := @readLe16_overwrite_part list offset [] [] value inside
  rwa [append_nil] at part

theorem readLe32_overwrite_here (value : Nat) (inside : offset ≤ list.length) :
    readLe32 (overwrite list offset (le32 value)) offset = value % 4294967296 := by
  have part := @readLe32_overwrite_part list offset [] [] value inside
  rwa [append_nil] at part

end Qunix.Foundation.Bytes
