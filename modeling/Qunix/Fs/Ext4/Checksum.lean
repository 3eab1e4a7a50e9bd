import Qunix.Foundation.ReflectedDivision
import Qunix.Fs.Ext4.Disk

/-! # The checksum and CRC-32C

The table of `crc32c` is the start of the usual table of 256 entries. The function takes
five bits from it at a time and drops five bits, so that it does not see all of its
register, while CRC-32C does.
-/

namespace Qunix.Fs.Ext4

open Foundation ReflectedDivision

def castagnoli : BitVec 32 := 0x82F63B78#32

def crc32cByDivision (initial : BitVec 32) (data : List UInt8) : BitVec 32 :=
  ~~~remainder castagnoli (~~~initial) data

theorem crc32cByDivision_injective (data : List UInt8) {first second : BitVec 32}
    (same : crc32cByDivision first data = crc32cByDivision second data) : first = second := by
  have remainders := BitVec.not_inj.mp same
  exact BitVec.not_inj.mp (remainder_injective (by decide) data remainders)

theorem complement_toNat (crc : BitVec 32) : complement crc.toNat = (~~~crc).toNat := by
  rw [complement, BitVec.toNat_not, Nat.mod_eq_of_lt crc.isLt]

/-- A difference of registers that the table function does not see: entry 19 of the table
is what moves down to meet it. -/
def blindSpot : BitVec 32 := 0x61C69373#32

theorem crcTable_blindSpot : ∀ index < 32,
    crcTable.getD (index ^^^ 19) 0 = crcTable.getD index 0 ^^^ 0x030E349B := by
  decide

theorem crcStep_blindSpot (crc : Nat) (byte : UInt8) :
    crcStep (crc ^^^ blindSpot.toNat) byte = crcStep crc byte := by
  have low : (crc ^^^ blindSpot.toNat ^^^ byte.toNat) &&& 0x1F =
      ((crc ^^^ byte.toNat) &&& 0x1F) ^^^ 19 := by
    have part : blindSpot.toNat &&& 0x1F = 19 := by decide
    rw [Nat.xor_assoc, Nat.xor_comm blindSpot.toNat, ← Nat.xor_assoc, Nat.and_xor_distrib_right,
      part]
  have high : (crc ^^^ blindSpot.toNat) / 32 = crc / 32 ^^^ 0x030E349B := by
    have part : blindSpot.toNat >>> 5 = 0x030E349B := by decide
    have shifted := @Nat.shiftRight_xor_distrib 5 crc blindSpot.toNat
    rw [part] at shifted
    rw [Nat.shiftRight_eq_div_pow, Nat.shiftRight_eq_div_pow] at shifted
    exact shifted
  have small : (crc ^^^ byte.toNat) &&& 0x1F < 32 :=
    @Nat.and_lt_two_pow _ 0x1F 5 (by decide)
  have step : ∀ register, crcStep register byte =
      crcTable.getD ((register ^^^ byte.toNat) &&& 0x1F) 0 ^^^ register / 32 := fun _ => rfl
  rw [step, step, low, high, crcTable_blindSpot _ small, Nat.xor_comm (crc / 32), Nat.xor_assoc,
    ← Nat.xor_assoc 0x030E349B, Nat.xor_self, Nat.zero_xor]

/-- Two initial values get the same checksum for every string that is not empty. -/
theorem crc32c_blindSpot (initial : BitVec 32) (byte : UInt8) (rest : List UInt8) :
    crc32c (initial ^^^ blindSpot).toNat (byte :: rest) = crc32c initial.toNat (byte :: rest) := by
  have moved : ~~~(initial ^^^ blindSpot) = ~~~initial ^^^ blindSpot := BitVec.not_xor_left
  rw [crc32c, crc32c, complement_toNat, complement_toNat, moved, List.foldl_cons, List.foldl_cons,
    BitVec.toNat_xor, crcStep_blindSpot]

/-- The function is CRC-32C, for all initial values, on the empty string only. -/
theorem crc32c_correct_iff (data : List UInt8) :
    (∀ initial : BitVec 32, crc32c initial.toNat data = (crc32cByDivision initial data).toNat) ↔
      data = [] := by
  constructor
  · intro correct
    cases data with
    | nil => rfl
    | cons byte rest =>
      exfalso
      have same := crc32c_blindSpot 0#32 byte rest
      rw [correct, correct] at same
      have equal := crc32cByDivision_injective _ (BitVec.eq_of_toNat_eq same)
      exact absurd equal (by decide)
  · rintro rfl initial
    have empty : crc32c initial.toNat [] = complement (complement initial.toNat) := rfl
    have whole : crc32cByDivision initial [] = ~~~(~~~initial) := rfl
    rw [empty, whole, complement_toNat, complement_toNat]

/-- The usual test string: CRC-32C has the checksum that the standard gives, the function
another one. -/
theorem crc32c_digits_wrong :
    crc32cByDivision 0#32 [49, 50, 51, 52, 53, 54, 55, 56, 57] = 0xE3069283#32 ∧
      crc32c 0 [49, 50, 51, 52, 53, 54, 55, 56, 57] ≠ 0xE3069283 := by
  decide +kernel

end Qunix.Fs.Ext4
