import Qunix.Memory.Zswap.Lz4

/-! # What is compressed comes back

The output of the compressor decodes, sequence by sequence, to the input up to the
anchor. The rest of the input follows as literals.
-/

namespace Qunix.Memory.Zswap

open Foundation List Nat Option
open UInt8 (ofNat toNat_inj)
open Word

/-! ## Lengths -/

theorem readLength_replicate (count : Nat) : ∀ {length tail rest}, tail < 255 →
    readLength length (List.replicate count 255 ++ ofNat tail :: rest) =
      some (length + count * 255 + tail, rest) := by
  induction count with
  | zero =>
    intro length tail rest small
    have value : (ofNat tail).toNat = tail := by
      exact mod_eq_of_lt (by omega)
    have different : ofNat tail ≠ 255 := by
      intro same
      rw [same] at value
      exact absurd value.symm (Nat.ne_of_lt small)
    rw [replicate_zero, nil_append, readLength, if_neg different, value, Nat.add_zero]
  | succ count induction =>
    intro length tail rest small
    rw [replicate_succ, cons_append, readLength, if_pos rfl, induction small]
    congr 2
    omega

theorem readLength_writeVarint (length n : Nat) (rest : List UInt8) :
    readLength length (writeVarint n ++ rest) = some (length + n, rest) := by
  rw [writeVarint, append_assoc, singleton_append, readLength_replicate _ (mod_lt n (by decide))]
  congr 2
  omega

theorem readNibble_lengthBytes (length : Nat) (rest : List UInt8) :
    readNibble (min length 15) (lengthBytes length ++ rest) = some (length, rest) := by
  rw [readNibble, lengthBytes]
  by_cases long : 15 ≤ length
  · rw [if_pos (min_eq_right long), if_pos long, readLength_writeVarint]
    congr 2
    omega
  · rw [if_neg (by omega), if_neg long, nil_append, Nat.min_eq_left (by omega)]

theorem token_toNat (literals extra : Nat) :
    (token literals extra).toNat = min literals 15 * 16 + min extra 15 := by
  rw [token, UInt8.toNat_ofNat']
  omega

theorem token_literals (literals extra : Nat) :
    (token literals extra).toNat / 16 = min literals 15 := by
  rw [token_toNat]
  omega

theorem token_extra (literals extra : Nat) :
    (token literals extra).toNat % 16 = min extra 15 := by
  rw [token_toNat]
  omega

/-! ## Sequences -/

theorem distance_bytes {distance : Nat} (small : distance < 65536) :
    (ofNat distance).toNat + (ofNat (distance / 256)).toNat * 256 = distance := by
  rw [UInt8.toNat_ofNat', UInt8.toNat_ofNat']
  omega

variable {dlen : Nat} {literals out : List UInt8}

theorem decompress_matchSequence {distance length : Nat} (rest : List UInt8)
    (positive : 0 < distance) (inside : distance ≤ out.length + literals.length)
    (small : distance < 65536) (long : minMatch ≤ length)
    (room : out.length + literals.length + length ≤ dlen) :
    decompressSequence dlen (matchSequence literals distance length ++ rest) out =
      .more rest (copyBack (out ++ literals) distance length) := by
  have lengths : length - minMatch + minMatch = length := Nat.sub_add_cancel long
  simp only [matchSequence, cons_append, append_assoc, nil_append,
    decompressSequence, token_literals, readNibble_lengthBytes]
  rw [if_neg (by simp only [length_append]; omega),
    if_neg (by simp only [length_append, length_cons]; omega),
    drop_left, take_left]
  simp only [decompressMatch, distance_bytes small, length_append, token_extra,
    readNibble_lengthBytes, lengths]
  rw [if_neg (by omega), if_neg (by omega)]

theorem decompress_lastSequence (whole : out.length + literals.length = dlen) :
    decompressSequence dlen (lastSequence literals) out = .answer true (out ++ literals) := by
  have read := readNibble_lengthBytes literals.length literals
  simp only [lastSequence, decompressSequence, cons_append, token_literals, read]
  rw [if_neg (by omega), if_pos trivial, decide_eq_true whole]

/-- A length takes a byte for every 255 and at most one more. -/
theorem length_lengthBytes_le (length : Nat) : (lengthBytes length).length ≤ length / 255 + 1 := by
  rw [lengthBytes]
  split
  · simp only [writeVarint, length_append, length_replicate, length_singleton]
    omega
  · exact zero_le _

theorem length_lengthBytes_le_self (length : Nat) : (lengthBytes length).length ≤ length := by
  rw [lengthBytes]
  split
  · simp only [writeVarint, length_append, length_replicate, length_singleton]
    omega
  · exact zero_le _

/-- A match pays for the token, the distance and its own length. -/
theorem length_matchSequence_le {distance length : Nat} (long : minMatch ≤ length) :
    (matchSequence literals distance length).length ≤
      literals.length + length + literals.length / 255 := by
  have first := length_lengthBytes_le literals.length
  have second := length_lengthBytes_le_self (length - minMatch)
  have four : minMatch = 4 := rfl
  simp only [matchSequence, length_append, length_cons, length_nil]
  omega

theorem length_lastSequence_le :
    (lastSequence literals).length ≤ literals.length + literals.length / 255 + 2 := by
  have bytes := length_lengthBytes_le literals.length
  simp only [lastSequence, length_append, length_cons]
  omega

/-! ## The decompression loop -/

variable {source rest dst more : List UInt8} {nibble length fuel ip refPos : Nat}
  {result : Bool × List UInt8}

theorem readLength_shorter : ∀ {start length},
    readLength start source = some (length, rest) → rest.length < source.length := by
  induction source with
  | nil =>
    intro start length found
    cases found
  | cons byte source induction =>
    intro start length found
    rw [readLength] at found
    split at found
    next => exact lt_succ_of_lt (induction found)
    cases found
    exact lt_succ_self _

theorem readNibble_shorter (found : readNibble nibble source = some (length, rest)) :
    rest.length ≤ source.length := by
  rw [readNibble] at found
  split at found
  next => exact le_of_lt (readLength_shorter found)
  cases found
  exact le_rfl

theorem decompressMatch_shorter
    (goesOn : decompressMatch dlen nibble source out = .more rest more) :
    rest.length < source.length := by
  rw [decompressMatch.eq_def] at goesOn
  split at goesOn
  next low high source =>
    simp only at goesOn
    split at goesOn
    next => cases goesOn
    split at goesOn
    next => cases goesOn
    next extra tail found =>
    split at goesOn
    next => cases goesOn
    cases goesOn
    have shorter := readNibble_shorter found
    simp only [length_cons]
    omega
  next => cases goesOn

theorem decompressSequence_shorter (goesOn : decompressSequence dlen source out = .more rest more) :
    rest.length < source.length := by
  rw [decompressSequence.eq_def] at goesOn
  split at goesOn
  next => cases goesOn
  next byte source =>
  split at goesOn
  next => cases goesOn
  next literals tail found =>
  split at goesOn
  next => cases goesOn
  split at goesOn
  next => cases goesOn
  have first := readNibble_shorter found
  have second := decompressMatch_shorter goesOn
  rw [length_drop] at second
  rw [length_cons]
  omega

theorem decompressLoop_total (fuel : Nat) : ∀ {source out}, source.length < fuel →
    ∃ result, decompressLoop dlen fuel source out = some result := by
  induction fuel with
  | zero =>
    intro source out short
    exact absurd short (not_lt_zero _)
  | succ fuel induction =>
    intro source out short
    rw [decompressLoop]
    cases turn : decompressSequence dlen source out with
    | answer ok final => exact ⟨_, rfl⟩
    | more rest next =>
      have shorter := decompressSequence_shorter turn
      exact induction (by omega)

theorem decompressLoop_mono (fuel : Nat) :
    ∀ {source out more}, fuel ≤ more → decompressLoop dlen fuel source out = some result →
      decompressLoop dlen more source out = some result := by
  induction fuel with
  | zero =>
    intro source out more _ ended
    cases ended
  | succ fuel induction =>
    intro source out more enough ended
    cases more with
    | zero => exact absurd enough (not_succ_le_zero fuel)
    | succ more =>
      rw [decompressLoop] at ended ⊢
      cases turn : decompressSequence dlen source out with
      | answer ok final =>
        rw [turn] at ended
        exact ended
      | more rest next =>
        rw [turn] at ended
        exact induction (le_of_succ_le_succ enough) ended

def Reaches (dlen : Nat) : List UInt8 × List UInt8 → List UInt8 × List UInt8 → Prop :=
  Relation.ReflTransGen fun before after =>
    decompressSequence dlen before.1 before.2 = .more after.1 after.2

theorem Reaches.loop {before after : List UInt8 × List UInt8}
    (reaches : Reaches dlen before after)
    (ended : decompressLoop dlen fuel after.1 after.2 = some result) :
    ∃ enough, decompressLoop dlen enough before.1 before.2 = some result := by
  induction reaches using Relation.ReflTransGen.head_induction_on with
  | refl => exact ⟨fuel, ended⟩
  | head turn _ induction =>
    rcases induction with ⟨enough, reached⟩
    refine ⟨enough + 1, ?_⟩
    rw [decompressLoop, turn]
    exact reached

/-- Whatever fuel the loop was seen to end with, `lz4_decompress` gives the answer. -/
theorem lz4Decompress_of_loop {final : List UInt8} {ok : Bool}
    (ended : decompressLoop dst.length fuel source [] = some (ok, final)) :
    lz4Decompress source dst = some (ok, final ++ dst.drop final.length) := by
  rcases @decompressLoop_total dst.length (source.length + 1) source [] (lt_succ_self _) with
    ⟨result, total⟩
  have same := (decompressLoop_mono _ (le_max_left ..) total).symm.trans
    (decompressLoop_mono _ (le_max_right (source.length + 1) fuel) ended)
  rw [lz4Decompress, total, Option.some.inj same]
  rfl

/-! ## The compression loop -/

variable {src : List UInt8} {state : CompressState}

theorem read4_eq {position : Nat} (inside : position + 4 ≤ src.length) :
    ∃ first second third fourth : UInt8, src[position]? = some first ∧
      src[position + 1]? = some second ∧ src[position + 2]? = some third ∧
      src[position + 3]? = some fourth ∧
      read4 src position =
        first.toNat + 256 * (second.toNat + 256 * (third.toNat + 256 * fourth.toNat)) := by
  have items : ∀ offset, src[position + offset]? = (src.drop position)[offset]? := by
    intro offset
    rw [getElem?_drop]
  have length : 4 ≤ (src.drop position).length := by
    rw [length_drop]
    omega
  have start := items 0
  rw [Nat.add_zero] at start
  rw [read4, start, items, items, items]
  match suffix : src.drop position, length with
  | first :: second :: third :: fourth :: rest, _ =>
    exact ⟨first, second, third, fourth, rfl, rfl, rfl, rfl, rfl⟩

theorem read4_equal {left right : Nat} (leftInside : left + 4 ≤ src.length)
    (rightInside : right + 4 ≤ src.length) (same : read4 src left = read4 src right) :
    ∀ index, index < 4 → src[left + index]? = src[right + index]? := by
  rcases read4_eq leftInside with ⟨first, second, third, fourth, one, two, three, four, value⟩
  rcases read4_eq rightInside with
    ⟨first', second', third', fourth', one', two', three', four', value'⟩
  have bounds := And.intro first.toNat_lt (And.intro second.toNat_lt third.toNat_lt)
  have bounds' := And.intro first'.toNat_lt (And.intro second'.toNat_lt third'.toNat_lt)
  have equal : first.toNat = first'.toNat ∧ second.toNat = second'.toNat ∧
      third.toNat = third'.toNat ∧ fourth.toNat = fourth'.toNat := by omega
  rw [toNat_inj, toNat_inj, toNat_inj, toNat_inj] at equal
  intro index below
  match index, below with
  | 0, _ => rw [Nat.add_zero, Nat.add_zero, one, one', equal.1]
  | 1, _ => rw [two, two', equal.2.1]
  | 2, _ => rw [three, three', equal.2.2.1]
  | 3, _ => rw [four, four', equal.2.2.2]

theorem le_matchLength {ip refPos : Nat} (turns : Nat) : ∀ {length},
    length ≤ matchLength src ip refPos turns length := by
  induction turns with
  | zero =>
    intro length
    exact le_rfl
  | succ turns induction =>
    intro length
    rw [matchLength]
    split
    next => exact le_of_succ_le induction
    next => exact le_rfl

theorem matchLength_spec (turns : Nat) : ∀ {length},
    ip + length ≤ src.length →
    (∀ index, index < length → src[refPos + index]? = src[ip + index]?) →
    ip + matchLength src ip refPos turns length ≤ src.length ∧
      ∀ index, index < matchLength src ip refPos turns length →
        src[refPos + index]? = src[ip + index]? := by
  induction turns with
  | zero =>
    intro length inside equal
    exact ⟨inside, equal⟩
  | succ turns induction =>
    intro length inside equal
    rw [matchLength]
    split
    next goesOn =>
      rcases goesOn with ⟨room, _, same⟩
      exact induction (by omega) (Nat.forall_lt_succ_right.mpr ⟨equal, same.symm⟩)
    next => exact ⟨inside, equal⟩

/-- The output so far decodes to the input up to the anchor. -/
structure Encoded (src : List UInt8) (state : CompressState) : Prop where
  ordered : state.anchor ≤ state.ip
  inside : state.anchor ≤ src.length
  advances : 0 < state.step
  bounded : state.out.length ≤ state.anchor + state.anchor / 255
  decodes : ∀ rest, Reaches src.length (state.out ++ rest, []) (rest, src.take state.anchor)

theorem Encoded.start : Encoded src .start where
  ordered := le_rfl
  inside := zero_le _
  advances := Nat.one_pos
  bounded := zero_le _
  decodes := fun _ => Relation.ReflTransGen.refl

/-- A distance that is accepted leads back to an earlier position. The table holds
16-bit positions, so a later one would be far away modulo `2 ^ 64`. -/
theorem distance_eq {refPos : UInt16} (below : ip < modulus)
    (near : sub ip refPos.toNat < maxDistance) (positive : 0 < sub ip refPos.toNat) :
    refPos.toNat < ip ∧ sub ip refPos.toNat = ip - refPos.toNat := by
  have small := refPos.toNat_lt
  have modulus : modulus = 18446744073709551616 := by decide
  have limit : maxDistance = 65535 := rfl
  rw [sub, modulus] at near positive ⊢
  omega

theorem Encoded.append_bounded (encoded : Encoded src state) (distance : Nat)
    (long : minMatch ≤ length) (fits : state.ip + length ≤ src.length) :
    (state.out ++ matchSequence ((src.take state.ip).drop state.anchor) distance length).length ≤
      state.ip + length + (state.ip + length) / 255 := by
  have ordered := encoded.ordered
  have before := encoded.bounded
  have literals : ((src.take state.ip).drop state.anchor).length = state.ip - state.anchor := by
    rw [length_drop, length_take_of_le (by omega)]
  have added := @length_matchSequence_le ((src.take state.ip).drop state.anchor) distance _ long
  rw [literals] at added
  rw [length_append]
  omega

/-- A sequence with a match that was compared decodes to the input after the match. -/
theorem Encoded.append_match (encoded : Encoded src state) (earlier : refPos < state.ip)
    (near : state.ip - refPos < 65536) (long : minMatch ≤ length)
    (fits : state.ip + length ≤ src.length)
    (compared : ∀ index, index < length → src[refPos + index]? = src[state.ip + index]?)
    (rest : List UInt8) :
    Reaches src.length
      (state.out ++ matchSequence ((src.take state.ip).drop state.anchor) (state.ip - refPos) length
        ++ rest, [])
      (rest, src.take (state.ip + length)) := by
  have ordered := encoded.ordered
  have front : (src.take state.anchor).length = state.anchor :=
    length_take_of_le encoded.inside
  have literals : ((src.take state.ip).drop state.anchor).length = state.ip - state.anchor := by
    rw [length_drop, length_take_of_le (by omega)]
  have whole : src.take state.anchor ++ (src.take state.ip).drop state.anchor =
      src.take state.ip := by
    have shorter : src.take state.anchor = (src.take state.ip).take state.anchor := by
      rw [take_take, Nat.min_eq_left ordered]
    rw [shorter, take_append_drop]
  have copied : copyBack (src.take state.ip) (state.ip - refPos) length =
      src.take (state.ip + length) := by
    apply copyBack_take (by omega) (by omega) fits
    intro index below
    have back : state.ip - (state.ip - refPos) = refPos := by omega
    rw [back]
    exact compared index below
  have last := @decompress_matchSequence src.length ((src.take state.ip).drop state.anchor)
    (src.take state.anchor) (state.ip - refPos) length rest (by omega) (by omega) near long
    (by omega)
  rw [whole, copied] at last
  rw [append_assoc]
  exact (encoded.decodes _).tail last

theorem Encoded.turn (encoded : Encoded src state) (short : src.length < modulus)
    (goesOn : state.ip + minMatch + 1 < src.length) :
    Encoded src (compressTurn src state) ∧ state.ip < (compressTurn src state).ip := by
  have four : minMatch = 4 := rfl
  simp only [compressTurn]
  split
  next found =>
    generalize state.hashTable (lz4Hash (read4 src state.ip)) = refPos at found ⊢
    rcases found with ⟨near, positive, refInside, same⟩
    rcases distance_eq (by omega) near positive with ⟨earlier, distance⟩
    have equal : ∀ index, index < minMatch →
        src[refPos.toNat + index]? = src[state.ip + index]? :=
      read4_equal refInside (by omega) same
    have long := @le_matchLength src state.ip refPos.toNat src.length minMatch
    rcases matchLength_spec src.length (by omega) equal with ⟨fits, compared⟩
    rw [distance] at near ⊢
    generalize matchLength src state.ip refPos.toNat src.length minMatch = length at *
    exact ⟨⟨le_rfl, fits, Nat.one_pos, encoded.append_bounded _ long fits,
      encoded.append_match earlier (lt_succ_of_lt near) long fits compared⟩, by simp only; omega⟩
  next =>
    have advances := encoded.advances
    have ordered := encoded.ordered
    refine ⟨⟨by simp only; omega, encoded.inside, ?_, encoded.bounded, encoded.decodes⟩,
      by simp only; omega⟩
    simp only
    split
    · exact succ_pos _
    · exact advances

section

variable (short : src.length < modulus)
include short

theorem Encoded.loop {final : CompressState} (fuel : Nat) :
    ∀ {state}, Encoded src state → compressLoop src fuel state = some final →
      Encoded src final := by
  induction fuel with
  | zero =>
    intro state _ ended
    cases ended
  | succ fuel induction =>
    intro state encoded ended
    rw [compressLoop] at ended
    split at ended
    next goesOn => exact induction (encoded.turn short goesOn).1 ended
    cases ended
    exact encoded

theorem compressLoop_total (fuel : Nat) :
    ∀ {state}, Encoded src state → src.length - state.ip < fuel →
      ∃ final, compressLoop src fuel state = some final := by
  induction fuel with
  | zero =>
    intro state _ enough
    exact absurd enough (not_lt_zero _)
  | succ fuel induction =>
    intro state encoded enough
    rw [compressLoop]
    split
    next goesOn =>
      rcases encoded.turn short goesOn with ⟨encodedNext, forward⟩
      exact induction encodedNext (by omega)
    next => exact ⟨_, rfl⟩

end

/-! ## The round trip -/

theorem Encoded.finish (encoded : Encoded src state) (size : dst.length = src.length) :
    lz4Decompress (state.out ++ lastSequence (src.drop state.anchor)) dst = some (true, src) := by
  have inside := encoded.inside
  have whole : (src.take state.anchor).length + (src.drop state.anchor).length = src.length := by
    rw [length_take_of_le inside, length_drop]
    omega
  have last : decompressLoop src.length 1 (lastSequence (src.drop state.anchor))
      (src.take state.anchor) = some (true, src) := by
    rw [decompressLoop, decompress_lastSequence whole, take_append_drop]
  rcases (encoded.decodes (lastSequence (src.drop state.anchor))).loop last with ⟨fuel, ended⟩
  rw [← size] at ended
  rw [lz4Decompress_of_loop ended, ← size, drop_length, append_nil]

/-- What `lz4_compress` writes, `lz4_decompress` turns back into the source. -/
theorem lz4_round_trip {dst filled buffer : List UInt8} {n : Nat}
    (short : src.length < modulus) (long : minMatch ≤ src.length)
    (compressed : lz4Compress src dst = some (some n, filled)) (size : buffer.length = src.length) :
    lz4Decompress (filled.take n) buffer = some (true, src) := by
  rw [lz4Compress, if_neg (not_lt_of_ge long)] at compressed
  simp only [bind_eq_bind, bind_eq_some_iff] at compressed
  rcases compressed with ⟨final, ended, finished⟩
  have encoded := Encoded.loop short _ .start ended
  split at finished
  next => cases finished
  cases finished
  rw [take_left]
  exact encoded.finish size

/-- Every source has one block, hardly longer than the source, from which it comes back. It is
written to every destination that is longer than the block, and the others are left as they were. -/
theorem lz4Compress_law (short : src.length < modulus) (long : minMatch ≤ src.length) :
    ∃ block, block.length ≤ src.length + src.length / 255 + 2 ∧
      (∀ buffer, buffer.length = src.length → lz4Decompress block buffer = some (true, src)) ∧
      ∀ dst, (block.length < dst.length →
          lz4Compress src dst = some (some block.length, block ++ dst.drop block.length)) ∧
        (dst.length ≤ block.length → lz4Compress src dst = some (none, dst)) := by
  rcases @compressLoop_total src short (src.length + 1) _ .start (lt_succ_self _) with
    ⟨final, ended⟩
  have encoded := Encoded.loop short _ .start ended
  refine ⟨final.out ++ lastSequence (src.drop final.anchor), ?_, fun _ => encoded.finish, ?_⟩
  · have inside := encoded.inside
    have front := encoded.bounded
    have last := @length_lastSequence_le (src.drop final.anchor)
    rw [length_drop] at last
    rw [length_append]
    omega
  · intro dst
    rw [lz4Compress, if_neg (not_lt_of_ge long), ended]
    simp only [bind_eq_bind, bind_some]
    exact ⟨fun fits => if_neg (not_le.mpr fits), fun full => if_pos full⟩

/-- Sixteen bytes with a repetition have a block of fifteen. -/
theorem lz4Compress_law_repetition : ∃ block : List UInt8, block.length = 15 ∧
    lz4Compress [1, 2, 3, 4, 1, 2, 3, 4, 1, 2, 3, 4, 1, 2, 3, 4] (List.replicate 16 0) =
      some (some 15, block ++ [0]) ∧
    lz4Decompress block (List.replicate 16 0) =
      some (true, [1, 2, 3, 4, 1, 2, 3, 4, 1, 2, 3, 4, 1, 2, 3, 4]) := by
  have compressed : (lz4Compress [1, 2, 3, 4, 1, 2, 3, 4, 1, 2, 3, 4, 1, 2, 3, 4]
      (List.replicate 16 0)).map Prod.fst = some (some 15) := by decide +kernel
  rcases @lz4Compress_law [1, 2, 3, 4, 1, 2, 3, 4, 1, 2, 3, 4, 1, 2, 3, 4] (by decide)
    (by decide) with ⟨block, _, decodes, written⟩
  rcases written (List.replicate 16 0) with ⟨fits, full⟩
  have small : block.length < 16 := by
    by_contra large
    rw [full (not_lt.mp large)] at compressed
    cases compressed
  rw [fits small] at compressed
  have size : block.length = 15 := Option.some.inj (Option.some.inj compressed)
  refine ⟨block, size, ?_, decodes _ rfl⟩
  rw [fits small, size]
  rfl

/-- Sixteen bytes with a repetition shrink to fifteen. -/
theorem lz4_round_trip_repetition :
    ∃ filled, lz4Compress [1, 2, 3, 4, 1, 2, 3, 4, 1, 2, 3, 4, 1, 2, 3, 4]
        (List.replicate 16 0) = some (some 15, filled) ∧
      lz4Decompress (filled.take 15) (List.replicate 16 0) =
        some (true, [1, 2, 3, 4, 1, 2, 3, 4, 1, 2, 3, 4, 1, 2, 3, 4]) := by
  have compressed : (lz4Compress [1, 2, 3, 4, 1, 2, 3, 4, 1, 2, 3, 4, 1, 2, 3, 4]
      (List.replicate 16 0)).map Prod.fst = some (some 15) := by decide +kernel
  rw [map_eq_some_iff] at compressed
  rcases compressed with ⟨⟨n, filled⟩, result, same⟩
  cases same
  exact ⟨filled, result, lz4_round_trip (by decide) (by decide) result rfl⟩

end Qunix.Memory.Zswap
