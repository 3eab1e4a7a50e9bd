import Mathlib.Data.BitVec

/-! # Reflected long division

The remainder of a bit string by a polynomial over the field of two elements, the
register reflected: bits enter at the low end and the polynomial is added when a one
leaves there.
-/

namespace Qunix.Foundation.ReflectedDivision

open BitVec List

variable {width : Nat} (polynomial : BitVec width) (register : BitVec width)

def divideBit (bit : Bool) : BitVec width :=
  if (register.getLsbD 0 ^^ bit) = true then (register >>> 1) ^^^ polynomial else register >>> 1

/-- The bits of a byte enter from the lowest on. -/
def divideByte (byte : UInt8) : BitVec width :=
  (List.range 8).foldl (fun register index =>
    divideBit polynomial register (byte.toBitVec.getLsbD index)) register

def remainder (data : List UInt8) : BitVec width :=
  data.foldl (divideByte polynomial) register

/-! ## Linearity

Two registers that take in the same bits differ by what their difference becomes when it
takes in zeros. -/

variable {polynomial}

def multiple (polynomial : BitVec width) (bit : Bool) : BitVec width :=
  if bit = true then polynomial else BitVec.ofNat width 0

theorem multiple_xor (first second : Bool) :
    multiple polynomial (first ^^ second) =
      multiple polynomial first ^^^ multiple polynomial second := by
  cases first <;> cases second <;> simp [multiple]

theorem divideBit_eq (bit : Bool) :
    divideBit polynomial register bit =
      (register >>> 1) ^^^ multiple polynomial (register.getLsbD 0 ^^ bit) := by
  rw [divideBit, multiple]
  split
  next => rfl
  next => rw [xor_zero]

theorem divideBit_xor (first second : BitVec width) (bit : Bool) :
    divideBit polynomial (first ^^^ second) bit =
      divideBit polynomial first bit ^^^ divideBit polynomial second false := by
  rw [divideBit_eq, divideBit_eq, divideBit_eq, getLsbD_xor, ushiftRight_xor_distrib,
    Bool.xor_false, multiple_xor, multiple_xor, multiple_xor]
  ac_rfl

theorem divideBits_xor (bits : List Bool) : ∀ first second : BitVec width,
    bits.foldl (divideBit polynomial) (first ^^^ second) =
      bits.foldl (divideBit polynomial) first ^^^
        (bits.map fun _ => false).foldl (divideBit polynomial) second := by
  induction bits with
  | nil =>
    intro first second
    rfl
  | cons bit rest induction =>
    intro first second
    simp only [foldl_cons, map_cons, divideBit_xor, induction]

def bitsOf (data : List UInt8) : List Bool :=
  data.flatMap fun byte => (List.range 8).map byte.toBitVec.getLsbD

theorem remainder_eq (data : List UInt8) : ∀ register : BitVec width,
    remainder polynomial register data = (bitsOf data).foldl (divideBit polynomial) register := by
  induction data with
  | nil =>
    intro register
    rfl
  | cons byte rest induction =>
    intro register
    have first : divideByte polynomial register byte =
        ((List.range 8).map byte.toBitVec.getLsbD).foldl (divideBit polynomial) register := by
      rw [divideByte, foldl_map]
    rw [remainder, foldl_cons, first, bitsOf, flatMap_cons, foldl_append]
    exact induction _

/-! ## Registers that become zero -/

section

variable (top : polynomial.msb = true)
include top

/-- A polynomial that has its last coefficient, at the top of the register, never cancels
what is left of it. -/
theorem divideBit_zero {register : BitVec width}
    (zero : divideBit polynomial register false = BitVec.ofNat width 0) :
    register = BitVec.ofNat width 0 := by
  rw [divideBit, Bool.xor_false] at zero
  split at zero
  next =>
    have high := congrArg BitVec.msb zero
    have shifted : (register >>> 1).msb = false := by simp [msb_ushiftRight]
    rw [msb_xor, shifted, top, msb_zero] at high
    cases high
  next even =>
    apply eq_of_getLsbD_eq
    intro index inside
    rw [getLsbD_zero]
    cases index with
    | zero => simpa using even
    | succ index =>
      have bit := congrArg (fun value => value.getLsbD index) zero
      simpa [add_comm] using bit

theorem divideZeros_zero (bits : List Bool) :
    ∀ {register : BitVec width},
      (bits.map fun _ => false).foldl (divideBit polynomial) register = BitVec.ofNat width 0 →
        register = BitVec.ofNat width 0 := by
  induction bits with
  | nil =>
    intro register zero
    exact zero
  | cons bit rest induction =>
    intro register zero
    exact divideBit_zero top (induction zero)

/-- Different registers have different remainders, whatever comes. -/
theorem remainder_injective (data : List UInt8) {first second : BitVec width}
    (same : remainder polynomial first data = remainder polynomial second data) :
    first = second := by
  have isSum : first = second ^^^ (first ^^^ second) := by
    rw [BitVec.xor_comm first, ← xor_assoc, BitVec.xor_self, BitVec.zero_xor]
  rw [remainder_eq, remainder_eq, isSum, divideBits_xor] at same
  -- What the difference becomes is zero.
  have zero := congrArg (((bitsOf data).foldl (divideBit polynomial) second) ^^^ ·) same
  simp only [← xor_assoc, BitVec.xor_self, BitVec.zero_xor] at zero
  exact BitVec.xor_eq_zero_iff.mp (divideZeros_zero top _ zero)

end

end Qunix.Foundation.ReflectedDivision
