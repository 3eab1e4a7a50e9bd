import Qunix.Foundation.BackReference
import Qunix.Foundation.Word

/-! # The LZ4 block codec of zswap

`lz4_compress` and `lz4_decompress` of `memory/zswap.rs`. A compressed block is a
sequence of literals and back references, the last one literals only.
-/

namespace Qunix.Memory.Zswap

open Foundation

def minMatch : Nat := 4

def maxDistance : Nat := 65535

def skipTrigger : Nat := 6

/-- The upper 16 bits of the product modulo `2 ^ 64`. -/
def lz4Hash (value : Nat) : Nat := value * 0x9E3779B97F4A7C15 % 2 ^ 64 / 2 ^ 48

/-- 255 for each full 255, then the rest. -/
def writeVarint (n : Nat) : List UInt8 := List.replicate (n / 255) 255 ++ [UInt8.ofNat (n % 255)]

/-! ## Compression -/

def read4 (src : List UInt8) (position : Nat) : Nat :=
  match src.drop position with
  | first :: second :: third :: fourth :: _ =>
    first.toNat + 256 * (second.toNat + 256 * (third.toNat + 256 * fourth.toNat))
  | _ => 0

/-- Extend a match. It ends before the input does, so the length of the input bounds
the turns. -/
def matchLength (src : List UInt8) (ip refPos : Nat) : (turns length : Nat) → Nat
  | 0, length => length
  | turns + 1, length =>
    if ip + length < src.length ∧ refPos + length < ip ∧
        src[ip + length]? = src[refPos + length]? then
      matchLength src ip refPos turns (length + 1)
    else length

def token (literals extra : Nat) : UInt8 := UInt8.ofNat (min literals 15 * 16 + min extra 15)

/-- The bytes of a length past the four bits of the token. -/
def lengthBytes (length : Nat) : List UInt8 := if 15 ≤ length then writeVarint (length - 15) else []

/-- Literals, distance and length of one sequence with a match. -/
def matchSequence (literals : List UInt8) (distance length : Nat) : List UInt8 :=
  token literals.length (length - minMatch) :: lengthBytes literals.length ++ literals ++
    [UInt8.ofNat distance, UInt8.ofNat (distance / 256)] ++ lengthBytes (length - minMatch)

def lastSequence (literals : List UInt8) : List UInt8 :=
  token literals.length 0 :: lengthBytes literals.length ++ literals

structure CompressState where
  ip : Nat
  anchor : Nat
  step : Nat
  skip : Nat
  hashTable : Nat → UInt16
  out : List UInt8

def CompressState.start : CompressState where
  ip := 0
  anchor := 0
  step := 1
  skip := skipTrigger
  hashTable := fun _ => 0
  out := []

def compressTurn (src : List UInt8) (state : CompressState) : CompressState :=
  let hash := lz4Hash (read4 src state.ip)
  let refPos := (state.hashTable hash).toNat
  let hashTable := Function.update state.hashTable hash (UInt16.ofNat state.ip)
  let distance := Word.sub state.ip refPos
  if distance < maxDistance ∧ 0 < distance ∧ refPos + minMatch ≤ src.length ∧
      read4 src refPos = read4 src state.ip then
    let length := matchLength src state.ip refPos src.length minMatch
    { ip := state.ip + length
      anchor := state.ip + length
      step := 1
      skip := skipTrigger
      hashTable := hashTable
      out := state.out ++ matchSequence ((src.take state.ip).drop state.anchor) distance length }
  else
    { state with
      ip := state.ip + state.step
      step := if state.skip = 1 then state.step + 1 else state.step
      skip := if state.skip = 1 then skipTrigger else state.skip - 1
      hashTable := hashTable }

/-- The loop, nothing if it takes more than `fuel` turns. -/
def compressLoop (src : List UInt8) : (fuel : Nat) → CompressState → Option CompressState
  | 0, _ => none
  | fuel + 1, state =>
    if state.ip + minMatch + 1 < src.length then compressLoop src fuel (compressTurn src state)
    else some state

/-- The number of bytes written and the destination. There is no answer if a short
source does not fit, where the kernel panics. -/
def lz4Compress (src dst : List UInt8) : Option (Option Nat × List UInt8) :=
  if src.length < minMatch then
    if dst.length < src.length then none
    else some (some src.length, src ++ dst.drop src.length)
  else do
    let state ← compressLoop src (src.length + 1) .start
    let out := state.out ++ lastSequence (src.drop state.anchor)
    if dst.length ≤ out.length then some (none, dst)
    else some (some out.length, out ++ dst.drop out.length)

/-! ## Decompression -/

/-- A length that goes on in further bytes until one is not 255. -/
def readLength (length : Nat) : List UInt8 → Option (Nat × List UInt8)
  | [] => none
  | byte :: rest =>
    if byte = 255 then readLength (length + 255) rest else some (length + byte.toNat, rest)

def readNibble (nibble : Nat) (src : List UInt8) : Option (Nat × List UInt8) :=
  if nibble = 15 then readLength 15 src else some (nibble, src)

/-- How one sequence ends: in an error or at the end of the source with an answer,
or with the rest of the source and more output. -/
inductive SequenceEnd
  | answer (ok : Bool) (out : List UInt8)
  | more (src out : List UInt8)

def decompressMatch (dlen : Nat) (nibble : Nat) (src out : List UInt8) : SequenceEnd :=
  match src with
  | low :: high :: src =>
    let offset := low.toNat + high.toNat * 256
    if offset = 0 ∨ out.length < offset then .answer false out
    else
      match readNibble nibble src with
      | none => .answer false out
      | some (extra, src) =>
        if dlen < out.length + (extra + minMatch) then .answer false out
        else .more src (copyBack out offset (extra + minMatch))
  | _ => .answer false out

/-- One sequence of the source. `out` is what the destination holds so far. -/
def decompressSequence (dlen : Nat) (src out : List UInt8) : SequenceEnd :=
  match src with
  | [] => .answer false out
  | token :: src =>
    match readNibble (token.toNat / 16) src with
    | none => .answer false out
    | some (literals, src) =>
      if src.length < literals ∨ dlen < out.length + literals then .answer false out
      else if src.length = literals then
        .answer (out.length + literals = dlen) (out ++ src)
      else
        decompressMatch dlen (token.toNat % 16) (src.drop literals) (out ++ src.take literals)

/-- The loop, nothing if it takes more than `fuel` turns. -/
def decompressLoop (dlen : Nat) : (fuel : Nat) → (src out : List UInt8) →
    Option (Bool × List UInt8)
  | 0, _, _ => none
  | fuel + 1, src, out =>
    match decompressSequence dlen src out with
    | .answer ok out => some (ok, out)
    | .more src out => decompressLoop dlen fuel src out

/-- The answer and the destination. Every turn reads a byte. -/
def lz4Decompress (src dst : List UInt8) : Option (Bool × List UInt8) :=
  (decompressLoop dst.length (src.length + 1) src []).map fun result =>
    (result.1, result.2 ++ dst.drop result.2.length)

end Qunix.Memory.Zswap
