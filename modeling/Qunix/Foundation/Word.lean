import Mathlib.Tactic.NormNum.Basic

/-! # 64-bit machine words

Natural numbers with the arithmetic of `u64` in a release build, which wraps.
-/

namespace Qunix.Foundation.Word

open BitVec Nat

def modulus : Nat := 2 ^ 64

def add (left right : Nat) : Nat := (left + right) % modulus

def sub (left right : Nat) : Nat := (left + modulus - right) % modulus

def mul (left right : Nat) : Nat := (left * right) % modulus

variable {left right : Nat}

theorem add_eq (small : left + right < modulus) :
    add left right = left + right :=
  mod_eq_of_lt small

theorem mul_eq (small : left * right < modulus) :
    mul left right = left * right :=
  mod_eq_of_lt small

theorem sub_eq (ordered : right ≤ left) (small : left < modulus) :
    sub left right = left - right := by
  have shifted : left + modulus - right = left - right + modulus := by omega
  rw [sub, shifted, add_mod_right, mod_eq_of_lt (by omega)]

theorem toNat_clearLow {width : Nat} (word : BitVec width) (low : Nat) :
    (word &&& ~~~BitVec.ofNat width (2 ^ low - 1)).toNat = word.toNat / 2 ^ low * 2 ^ low := by
  have shifted : word &&& ~~~BitVec.ofNat width (2 ^ low - 1) = word >>> low <<< low := by
    apply eq_of_getLsbD_eq
    intro index inside
    rw [getLsbD_and, getLsbD_not, getLsbD_ofNat,
      testBit_two_pow_sub_one, getLsbD_shiftLeft, getLsbD_ushiftRight]
    by_cases early : index < low
    · simp [early]
    · simp [early, inside, Nat.add_sub_cancel' (le_of_not_gt early)]
  have bound : word.toNat / 2 ^ low * 2 ^ low < 2 ^ width :=
    lt_of_le_of_lt (div_mul_le_self _ _) word.isLt
  rw [shifted, toNat_shiftLeft, toNat_ushiftRight, Nat.shiftLeft_eq,
    shiftRight_eq_div_pow, mod_eq_of_lt bound]

end Qunix.Foundation.Word
