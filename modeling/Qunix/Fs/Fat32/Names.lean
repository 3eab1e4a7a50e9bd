import Mathlib.Data.List.DropRight

/-! # Names of eight and three bytes

`encode_83` and `decode_83`: a directory entry holds the first eight bytes of a name and the
first three behind its last dot, in upper case and filled up with blanks.
-/

namespace Qunix.Fs.Fat32

open List Char

/-- A name is a string of characters; its bytes are in UTF-8. -/
abbrev Name := List Char

/-- Equal up to the case of ASCII letters. -/
def SameName (name other : Name) : Prop := name.map toLower = other.map toLower

instance (name other : Name) : Decidable (SameName name other) :=
  inferInstanceAs (Decidable (_ = _))

def rsplitOnce : Name → Option (Name × Name)
  | [] => none
  | head :: tail =>
    match rsplitOnce tail with
    | some (base, ext) => some (head :: base, ext)
    | none => if head = '.' then some ([], tail) else none

def utf8Bytes (name : Name) : List UInt8 := name.flatMap String.utf8EncodeChar

def field (width : Nat) (bytes : List UInt8) : List UInt8 :=
  bytes.take width ++ List.replicate (width - bytes.length) 32

def encode83 (name : Name) : List UInt8 :=
  let (base, ext) := (rsplitOnce name).getD (name, [])
  field 8 (utf8Bytes (base.map toUpper)) ++ field 3 (utf8Bytes (ext.map toUpper))

/-! ## Reading bytes as text

`String::from_utf8_lossy`: each longest run of bytes that begins a character but does not
complete it becomes one replacement character. -/

def replacement : Char := ofNat 0xFFFD

def isTail (byte : UInt8) : Bool := 0x80 ≤ byte && byte ≤ 0xBF

/-- The bytes that may come second, after the first byte of three or four. -/
def isSecond (first byte : UInt8) : Bool :=
  if first = 0xE0 then 0xA0 ≤ byte && byte ≤ 0xBF
  else if first = 0xED then 0x80 ≤ byte && byte ≤ 0x9F
  else if first = 0xF0 then 0x90 ≤ byte && byte ≤ 0xBF
  else if first = 0xF4 then 0x80 ≤ byte && byte ≤ 0x8F
  else isTail byte

/-- The low six bits of a byte. -/
def tailBits (byte : UInt8) : Nat := byte.toNat % 64

/-- The next character, and the number of bytes behind the first one that it takes. -/
def nextChar (first : UInt8) (rest : List UInt8) : Char × Nat :=
  let second := rest.getD 0 0
  let third := rest.getD 1 0
  let fourth := rest.getD 2 0
  if first < 0x80 then (ofNat first.toNat, 0)
  else if 0xC2 ≤ first && first ≤ 0xDF then
    if isTail second then (ofNat (first.toNat % 32 * 64 + tailBits second), 1)
    else (replacement, 0)
  else if 0xE0 ≤ first && first ≤ 0xEF then
    if !isSecond first second then (replacement, 0)
    else if !isTail third then (replacement, 1)
    else (ofNat (first.toNat % 16 * 4096 + tailBits second * 64 + tailBits third), 2)
  else if 0xF0 ≤ first && first ≤ 0xF4 then
    if !isSecond first second then (replacement, 0)
    else if !isTail third then (replacement, 1)
    else if !isTail fourth then (replacement, 2)
    else (ofNat (first.toNat % 8 * 262144 + tailBits second * 4096 + tailBits third * 64 +
      tailBits fourth), 3)
  else (replacement, 0)

def lossyFrom : (fuel : Nat) → List UInt8 → Name
  | 0, _ => []
  | _, [] => []
  | fuel + 1, first :: rest =>
    (nextChar first rest).1 :: lossyFrom fuel (rest.drop (nextChar first rest).2)

def fromUtf8Lossy (bytes : List UInt8) : Name := lossyFrom bytes.length bytes

def trimmed (bytes : List UInt8) : List UInt8 := bytes.rdropWhile (· = 32)

def decode83 (raw : List UInt8) : Name :=
  let base := (fromUtf8Lossy (trimmed (raw.take 8))).map toLower
  let ext := trimmed (raw.drop 8)
  if ext = [] then base else base ++ '.' :: (fromUtf8Lossy ext).map toLower

/-- A name that its entry still shows, up to case. -/
def Survives (name : Name) : Prop := SameName (decode83 (encode83 name)) name

theorem length_field {width : Nat} {bytes : List UInt8} : (field width bytes).length = width := by
  rw [field, length_append, length_take, length_replicate]
  omega

/-! ## Names that survive

ASCII names of at most eight characters before the last dot and one to three behind it, or of
at most eight without a dot. -/

def IsAscii (character : Char) : Prop := character.toNat < 128

/-- A part of a name that fits into its field and does not end in a blank. -/
structure Short (width : Nat) (part : Name) : Prop where
  ascii : ∀ character ∈ part, IsAscii character
  length : part.length ≤ width
  noBlank : part.getLast? ≠ some ' '

variable {name base ext part : Name} {width : Nat}

theorem rsplitOnce_some (split : rsplitOnce name = some (base, ext)) :
    name = base ++ '.' :: ext := by
  induction name generalizing base with
  | nil => cases split
  | cons head tail induction =>
    rw [rsplitOnce] at split
    split at split
    next found =>
      cases split
      rw [induction found, cons_append]
    next =>
      split at split
      next isDot =>
        cases split
        rw [isDot, nil_append]
      next => cases split

def asciiByte (character : Char) : UInt8 := UInt8.ofNat character.toNat

theorem ascii_cases : ∀ code < 128,
    String.utf8EncodeChar (ofNat code).toUpper = [asciiByte (ofNat code).toUpper] ∧
    asciiByte (ofNat code).toUpper < 0x80 ∧
    (ofNat (asciiByte (ofNat code).toUpper).toNat).toLower.toLower = (ofNat code).toLower ∧
    (asciiByte (ofNat code).toUpper = 32 → ofNat code = ' ') := by
  decide

theorem Short.decoded (short : Short width part) :
    trimmed (field width (utf8Bytes (part.map toUpper))) = part.map (asciiByte ∘ toUpper) ∧
      ((fromUtf8Lossy (part.map (asciiByte ∘ toUpper))).map toLower).map toLower =
        part.map toLower := by
  have plain := fun character member =>
    ofNat_toNat character ▸ ascii_cases _ (short.ascii character member)
  rw [Function.comp_def]
  constructor
  · rw [utf8Bytes, flatMap_map, flatMap_congr fun _ member => (plain _ member).1,
      ← map_eq_flatMap, trimmed, field, take_of_length_le (by simpa using short.length), rdropWhile,
      reverse_append, reverse_replicate, dropWhile_append_of_pos (by simp), ← rdropWhile,
      rdropWhile_eq_self_iff]
    intro someBytes isBlank
    rw [getLast_map] at isBlank
    have last := (plain _ (getLast_mem _)).2.2.2 (of_decide_eq_true isBlank)
    exact short.noBlank (last ▸ getLast?_eq_some_getLast _)
  · rw [fromUtf8Lossy, length_map]
    clear short
    induction part with
    | nil => rfl
    | cons head tail induction =>
      rcases plain head mem_cons_self with ⟨_, single, decoded, _⟩
      rw [map_cons, length_cons, lossyFrom, nextChar, if_pos single, drop_zero, map_cons,
        map_cons, map_cons, decoded,
        induction fun _ member => plain _ (mem_cons_of_mem _ member)]

/-- A name with short parts survives unless nothing is behind its last dot. -/
theorem survives_of_short (parts : (rsplitOnce name).getD (name, []) = (base, ext))
    (short : Short 8 base) (shortExt : Short 3 ext) (dot : ext = [] → rsplitOnce name = none) :
    Survives name := by
  rw [Survives, SameName, encode83, parts, decode83, take_left' length_field,
    drop_left' length_field, short.decoded.1, shortExt.decoded.1]
  cases split : rsplitOnce name with
  | none =>
    rw [split] at parts
    cases parts
    exact short.decoded.2
  | some pair =>
    rw [split] at parts dot
    cases parts
    have someExt : ext ≠ [] := fun none => nomatch dot none
    rw [if_neg (by simpa using someExt), map_append, map_cons, short.decoded.2,
      shortExt.decoded.2, rsplitOnce_some split, map_append, map_cons]

theorem survives_of_short_name : Survives ['a', '.', 'c'] :=
  @survives_of_short _ ['a'] ['c'] rfl ⟨by simp [IsAscii], by decide, by decide⟩
    ⟨by simp [IsAscii], by decide, by decide⟩ nofun

end Qunix.Fs.Fat32
