import Mathlib.Data.List.Basic

/-! # Base64

The encoder and the decoder of the `b64encode` program, on the bytes it has read. The bits that
an or joins are disjoint, so shifts and masks are written as products and remainders.
-/

namespace Qunix.Userland.Base64

open List

def chars : List UInt8 :=
  "ABCDEFGHIJKLMNOPQRSTUVWXYZabcdefghijklmnopqrstuvwxyz0123456789+/".toList.map
    fun char => .ofNat char.toNat

def b64val (b : UInt8) : Nat :=
  if 65 ≤ b ∧ b ≤ 90 then b.toNat - 65
  else if 97 ≤ b ∧ b ≤ 122 then 26 + (b.toNat - 97)
  else if 48 ≤ b ∧ b ≤ 57 then 52 + (b.toNat - 48)
  else if b = 43 then 62
  else if b = 47 then 63
  else 64

/-- The character of the six low bits. -/
def b64char (v : Nat) : UInt8 := chars.getD (v % 64) 0

/-- Four characters for one to three bytes. -/
def encodeChunk (chunk : List UInt8) : List UInt8 :=
  let byte := fun index => (chunk.getD index 0).toNat
  let v := byte 0 * 65536 + byte 1 * 256 + byte 2
  [b64char (v / 262144), b64char (v / 4096), if 1 < chunk.length then b64char (v / 64) else 61,
    if 2 < chunk.length then b64char v else 61]

/-- The chunks from a column on, with the line breaks. -/
def encodeFrom (wrap : Nat) : (data : List UInt8) → (col : Nat) → List UInt8
  | [], col => if 0 < wrap ∧ 0 < col then [10] else []
  | first :: rest, col =>
    let col := if 0 < wrap then col + 4 else col
    encodeChunk (first :: rest.take 2) ++
      if 0 < wrap ∧ wrap ≤ col then 10 :: encodeFrom wrap (rest.drop 2) 0
      else encodeFrom wrap (rest.drop 2) col
termination_by data => data.length
decreasing_by all_goals simp only [length_drop, length_cons]; omega

def encode (wrap : Nat) (data : List UInt8) : List UInt8 := encodeFrom wrap data 0

def decodeClean : List UInt8 → List UInt8
  | a :: b :: c :: d :: rest =>
    (if b64val a < 64 ∧ b64val b < 64 then [.ofNat (b64val a * 4 + b64val b / 16)] else []) ++
      (if b64val c < 64 then [.ofNat (b64val b % 16 * 16 + b64val c / 4)] else []) ++
      (if b64val d < 64 then [.ofNat (b64val c % 4 * 64 + b64val d)] else []) ++ decodeClean rest
  | _ => []

def isText (b : UInt8) : Bool := b ≠ 10 ∧ b ≠ 13 ∧ b ≠ 32

def decode (data : List UInt8) : List UInt8 := decodeClean (data.filter isText)

@[simp] theorem b64char_spec (v : Nat) :
    b64val (b64char v) = v % 64 ∧ isText (b64char v) = true := by
  have every : ∀ value < 64, b64val (chars.getD value 0) = value ∧
      isText (chars.getD value 0) = true := by
    decide +kernel
  exact every _ (Nat.mod_lt v (by decide))

theorem decode_chunk (first : UInt8) (rest tail : List UInt8) :
    decode (encodeChunk (first :: rest.take 2) ++ tail) = first :: rest.take 2 ++ decode tail := by
  have padding : b64val 61 = 64 ∧ isText 61 = true := by decide
  have byte : ∀ {n : Nat} {b : UInt8}, n = b.toNat → UInt8.ofNat n = b := by
    intro n b equal
    rw [equal, UInt8.ofNat_toNat]
  have firstSmall := first.toNat_lt
  match rest with
  | [] =>
    simp [decode, encodeChunk, decodeClean, padding, Nat.mod_lt, -UInt8.ofNat_add,
      -UInt8.ofNat_mul]
    exact byte (by omega)
  | [second] =>
    have secondSmall := second.toNat_lt
    simp [decode, encodeChunk, decodeClean, padding, Nat.mod_lt, -UInt8.ofNat_add,
      -UInt8.ofNat_mul]
    exact ⟨byte (by omega), byte (by omega)⟩
  | second :: third :: rest =>
    have secondSmall := second.toNat_lt
    have thirdSmall := third.toNat_lt
    simp [decode, encodeChunk, decodeClean, Nat.mod_lt, -UInt8.ofNat_add,
      -UInt8.ofNat_mul]
    exact ⟨byte (by omega), byte (by omega), byte (by omega)⟩

/-- Decoding what was encoded gives the bytes back, for every line width. -/
theorem decode_encode (wrap : Nat) (data : List UInt8) : decode (encode wrap data) = data := by
  suffices every : ∀ col, decode (encodeFrom wrap data col) = data from every 0
  intro col
  fun_induction encodeFrom wrap data col with
  | case1 | case2 => rfl
  | case3 first rest col next broken continued =>
    have same : decode (10 :: encodeFrom wrap (rest.drop 2) 0) = rest.drop 2 := broken
    rw [decode_chunk]
    split
    · rw [same, cons_append, take_append_drop]
    · rw [continued, cons_append, take_append_drop]

end Qunix.Userland.Base64
