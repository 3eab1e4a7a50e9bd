import Qunix.Memory.Zswap.Lz4RoundTrip
import Qunix.Memory.Zswap.Zram

/-! # The zram device is a flat array of sectors

A page of 4096 bytes never fills the buffer it is compressed to, so every page is
stored in a form that decompresses.
-/

namespace Qunix.Memory.Zswap

open Foundation FlatArray

open List Nat Option

/-! ## The size of the compressed page -/

theorem length_lengthBytes (length : Nat) : 255 * (lengthBytes length).length ≤ length + 240 := by
  rw [lengthBytes]
  split
  · rw [writeVarint, length_append, length_replicate, length_singleton]
    omega
  · rw [length_nil]
    omega

theorem length_lengthBytes_short {length : Nat} (short : length < 15) :
    (lengthBytes length).length = 0 := by
  rw [lengthBytes, if_neg (by omega), length_nil]

/-- A sequence with a match is at most a 255th longer than what it stands for. -/
theorem length_matchSequence (literals : List UInt8) (distance : Nat) {length : Nat}
    (long : minMatch ≤ length) :
    255 * (matchSequence literals distance length).length ≤ 256 * (literals.length + length) := by
  have four : minMatch = 4 := rfl
  have literalBytes := length_lengthBytes literals.length
  have matchBytes := length_lengthBytes (length - minMatch)
  simp only [matchSequence, length_append, length_cons, length_nil]
  by_cases short : length - minMatch < 15
  · rw [length_lengthBytes_short short]
    omega
  · omega

theorem length_lastSequence (literals : List UInt8) :
    255 * (lastSequence literals).length ≤ 256 * literals.length + 495 := by
  have literalBytes := length_lengthBytes literals.length
  simp only [lastSequence, length_append, length_cons]
  omega

variable {src : List UInt8} {state : CompressState}

/-- A turn appends a sequence for the bytes from the anchor to the end of a match, or
nothing. -/
theorem compressTurn_out (src : List UInt8) (state : CompressState) :
    (∃ distance length, minMatch ≤ length ∧ (compressTurn src state).anchor = state.ip + length ∧
      (compressTurn src state).out = state.out ++
        matchSequence ((src.take state.ip).drop state.anchor) distance length) ∨
    ((compressTurn src state).anchor = state.anchor ∧
      (compressTurn src state).out = state.out) := by
  simp only [compressTurn]
  split
  next => exact .inl ⟨_, _, le_matchLength src.length, rfl, rfl⟩
  next => exact .inr ⟨rfl, rfl⟩

def Compact (state : CompressState) : Prop := 255 * state.out.length ≤ 256 * state.anchor

theorem Compact.turn (compact : Compact state) (encoded : Encoded src state)
    (goesOn : state.ip + minMatch + 1 < src.length) : Compact (compressTurn src state) := by
  rw [Compact] at compact ⊢
  rcases compressTurn_out src state with ⟨distance, length, long, anchor, out⟩ | ⟨anchor, out⟩
  · have sequence := length_matchSequence ((src.take state.ip).drop state.anchor) distance long
    have ordered := encoded.ordered
    rw [length_drop, length_take_of_le (by omega)] at sequence
    rw [anchor, out, length_append]
    omega
  · rw [anchor, out]
    exact compact

theorem Compact.loop {final : CompressState} (short : src.length < Word.modulus) (fuel : Nat) :
    ∀ {state}, Compact state → Encoded src state → compressLoop src fuel state = some final →
      Compact final := by
  induction fuel with
  | zero =>
    intro state _ _ ended
    cases ended
  | succ fuel induction =>
    intro state compact encoded ended
    rw [compressLoop] at ended
    split at ended
    next goesOn =>
      exact induction (compact.turn encoded goesOn) (encoded.turn short goesOn).1 ended
    next =>
      cases ended
      exact compact

variable {page : List UInt8}

theorem lz4Compress_page (size : page.length = pageSize) :
    ∃ compLen comp,
      lz4Compress page (replicate (pageSize + 64) 0) = some (some compLen, comp) ∧
      lz4Decompress (comp.take compLen) zeroPage = some (true, page) := by
  have bytes : page.length = 4096 := size
  have short : page.length < Word.modulus := bytes ▸ (by decide)
  rcases @compressLoop_total page short (page.length + 1) _ .start (lt_succ_self _) with
    ⟨final, ended⟩
  have encoded := Encoded.loop short _ .start ended
  have initially : Compact .start := le_rfl
  have compact := initially.loop short _ .start ended
  have last := length_lastSequence (page.drop final.anchor)
  have inside := encoded.inside
  rw [Compact] at compact
  rw [length_drop] at last
  refine ⟨(final.out ++ lastSequence (page.drop final.anchor)).length,
    final.out ++ lastSequence (page.drop final.anchor) ++
      (replicate (pageSize + 64) 0).drop
        (final.out ++ lastSequence (page.drop final.anchor)).length, ?_, ?_⟩
  · rw [lz4Compress, if_neg (by rw [minMatch]; omega), ended]
    simp only [bind_eq_bind, bind_some]
    rw [if_neg]
    rw [length_replicate, length_append, pageSize]
    omega
  · rw [take_left]
    exact encoded.finish (by rw [zeroPage, length_replicate, size])

/-! ## Pages and contents -/

namespace ZramDevice

variable {self : ZramDevice} {contents : Nat → UInt8} {buf : List UInt8} {lba s : Nat}

/-- The device holds every page of some contents. -/
def Holds (self : ZramDevice) (contents : Nat → UInt8) : Prop :=
  ∀ block, self.existingPage block = some (true, load contents (block * pageSize) pageSize)

theorem holds_new (sizeMb : Nat) : (new sizeMb).Holds fun _ => 0 := by
  intro block
  rw [existingPage, new, zeroPage, load, map_const', length_range]

theorem fillSectors_eq {first : Nat} (count : Nat)
    (inside : (s + count) * sectorSize ≤ buf.length)
    (room : (first + count) * sectorSize ≤ page.length) :
    fillSectors buf first s page count =
      overwrite page (first * sectorSize)
        ((buf.drop (s * sectorSize)).take (count * sectorSize)) := by
  induction count with
  | zero =>
    rw [fillSectors, zero_mul, take_zero, overwrite, append_nil, length_nil,
      add_zero, take_append_drop]
    rfl
  | succ count induction =>
    have earlier := induction
      (le_trans (Nat.mul_le_mul_right _ (by omega)) inside)
      (le_trans (Nat.mul_le_mul_right _ (by omega)) room)
    rw [fillSectors] at earlier ⊢
    rw [range_succ, foldl_append, earlier, foldl_cons, foldl_nil]
    have length : ((buf.drop (s * sectorSize)).take (count * sectorSize)).length =
        count * sectorSize := by
      apply length_take_of_le
      rw [length_drop]
      apply le_sub_of_add_le
      rw [← add_mul, add_comm]
      exact le_trans (Nat.mul_le_mul_right _ (by omega)) inside
    have place : (first + count) * sectorSize = first * sectorSize +
        ((buf.drop (s * sectorSize)).take (count * sectorSize)).length := by
      rw [length, add_mul]
    rw [place, overwrite_append _ _ (place ▸
      le_trans (Nat.mul_le_mul_right _ (by omega)) room)]
    congr 1
    rw [succ_mul, take_add, drop_drop, add_mul]

theorem storePage_holds (holds : self.Holds contents) {block place : Nat} {data : List UInt8}
    (before : block * pageSize ≤ place)
    (after : place + data.length ≤ block * pageSize + pageSize) :
    ∃ next, self.storePage block
        (load (store contents place data) (block * pageSize) pageSize) = some next ∧
      next.Holds (store contents place data) := by
  rcases lz4Compress_page (@length_load _ (store contents place data) (block * pageSize) pageSize)
    with ⟨compLen, comp, compressed, restored⟩
  refine ⟨_, congrArg (Option.map _) compressed, ?_⟩
  intro other
  simp only [existingPage]
  by_cases same : other = block
  · rw [same, Function.update_self]
    exact restored
  rw [Function.update_of_ne same]
  have kept := holds other
  rw [existingPage] at kept
  rw [kept, load_store_outside]
  rw [pageSize] at *
  omega

/-! ## The loops -/

/-- A transfer of whole sectors whose numbers do not pass the end of the 64-bit range. -/
structure Whole (lba : Nat) (buf : List UInt8) : Prop where
  sectors : buf.length % sectorSize = 0
  inRange : lba + buf.length / sectorSize ≤ Word.modulus

section

variable (whole : Whole lba buf)
include whole

theorem Whole.length :
    buf.length / sectorSize * sectorSize = buf.length :=
  Nat.div_mul_cancel (dvd_of_mod_eq_zero whole.sectors)

theorem Whole.sector (inside : s < buf.length / sectorSize) :
    Word.add lba s = lba + s := by
  have inRange := whole.inRange
  exact mod_eq_of_lt (by omega)

omit whole in
theorem sector_place (sector : Nat) :
    sector * sectorSize = sector / 8 * pageSize + sector % 8 * sectorSize := by
  simp only [sectorSize, pageSize]
  omega

theorem turn_piece {count : Nat} (inside : s + count ≤ buf.length / sectorSize) :
    ((buf.drop (s * sectorSize)).take (count * sectorSize)).length = count * sectorSize ∧
      (buf.take (s * sectorSize)).length = s * sectorSize ∧
      buf.take (s * sectorSize) ++ (buf.drop (s * sectorSize)).take (count * sectorSize) =
        buf.take ((s + count) * sectorSize) := by
  have room : (s + count) * sectorSize ≤ buf.length :=
    le_trans (Nat.mul_le_mul_right _ inside) (le_of_eq whole.length)
  rw [add_mul] at room ⊢
  refine ⟨?_, length_take_of_le (by omega), take_add.symm⟩
  apply length_take_of_le
  rw [length_drop]
  omega

theorem writeLoop_holds (fuel : Nat) :
    ∀ {self : ZramDevice} {s}, buf.length / sectorSize - s < fuel →
      s ≤ buf.length / sectorSize →
      self.Holds (store contents (lba * sectorSize) (buf.take (s * sectorSize))) →
      ∃ next, writeLoop lba buf fuel self s = some (true, next) ∧
        next.Holds (store contents (lba * sectorSize) buf) := by
  induction fuel with
  | zero =>
    intro self s enough
    exact absurd enough (not_lt_zero _)
  | succ fuel induction =>
    intro self s enough notPast holds
    rw [writeLoop]
    by_cases more : s < buf.length / sectorSize
    · have page := holds ((lba + s) / 8)
      have first : lba + s - (lba + s) / 8 * 8 = (lba + s) % 8 := by omega
      simp only [if_pos more, whole.sector more, page, first]
      have positive : 0 < min (8 - (lba + s) % 8) (buf.length / sectorSize - s) := by omega
      have short : (lba + s) % 8 + min (8 - (lba + s) % 8) (buf.length / sectorSize - s) ≤ 8 := by
        omega
      have inside : s + min (8 - (lba + s) % 8) (buf.length / sectorSize - s) ≤
          buf.length / sectorSize := by omega
      generalize min (8 - (lba + s) % 8) (buf.length / sectorSize - s) = count at *
      rcases turn_piece whole inside with ⟨length, front, joined⟩
      have place := sector_place (lba + s)
      have room : ((lba + s) % 8 + count) * sectorSize ≤ pageSize :=
        Nat.mul_le_mul_right sectorSize short
      have copied : (s + count) * sectorSize ≤ buf.length :=
        le_trans (Nat.mul_le_mul_right _ inside) (le_of_eq whole.length)
      have before : (lba + s) / 8 * pageSize ≤ (lba + s) * sectorSize := by omega
      have after : (lba + s) * sectorSize +
          ((buf.drop (s * sectorSize)).take (count * sectorSize)).length ≤
            (lba + s) / 8 * pageSize + pageSize := by
        rw [add_mul] at room
        omega
      rcases storePage_holds holds before after with ⟨next, stored, nextHolds⟩
      rw [load_store_inside before after, place, Nat.add_sub_cancel_left] at stored
      rw [fillSectors_eq count copied (by rw [length_load]; exact room), stored]
      have grown : (lba + s) * sectorSize =
          lba * sectorSize + (buf.take (s * sectorSize)).length := by
        rw [front, add_mul]
      rw [grown, store_append, joined] at nextHolds
      exact induction (by omega) inside nextHolds
    · have finished : s = buf.length / sectorSize := by omega
      rw [finished, whole.length, take_length] at holds
      exact ⟨self, if_neg more, holds⟩

end

theorem page_sector (sector : Nat) :
    ((load contents (sector / 8 * pageSize) pageSize).drop (sector % 8 * sectorSize)).take
        sectorSize = load contents (sector * sectorSize) sectorSize := by
  have inside : sector % 8 * sectorSize + sectorSize ≤ pageSize := by
    simp only [sectorSize, pageSize]
    omega
  rw [drop_load (by omega), take_load (by omega), sector_place sector]

theorem blocks_page (holds : self.Holds contents) (sector : Nat) :
    (self.blocks (sector / 8) = none ∧
      replicate sectorSize 0 = load contents (sector * sectorSize) sectorSize) ∨
    ∃ compressed, self.blocks (sector / 8) = some compressed ∧
      lz4Decompress compressed zeroPage =
        some (true, load contents (sector / 8 * pageSize) pageSize) := by
  have page := holds (sector / 8)
  rw [existingPage] at page
  cases found : self.blocks (sector / 8) with
  | some compressed =>
    rw [found] at page
    exact .inr ⟨compressed, rfl, page⟩
  | none =>
    rw [found] at page
    refine .inl ⟨rfl, ?_⟩
    have zeros := (Prod.mk.inj (Option.some.inj page)).2
    rw [← page_sector, ← zeros, zeroPage, drop_replicate, take_replicate]
    congr 1
    simp only [sectorSize, pageSize]
    omega

theorem readLoop_holds (holds : self.Holds contents) (whole : Whole lba buf) (count : Nat) :
    ∀ {s}, s + count = buf.length / sectorSize →
      self.readLoop lba count s (load contents (lba * sectorSize) (s * sectorSize) ++
          buf.drop (s * sectorSize)) =
        some (true, load contents (lba * sectorSize) buf.length) := by
  induction count with
  | zero =>
    intro s finished
    rw [add_zero] at finished
    rw [readLoop, finished, whole.length, drop_length, append_nil]
  | succ count induction =>
    intro s remaining
    have length := whole.length
    have step : overwrite (load contents (lba * sectorSize) (s * sectorSize) ++
        buf.drop (s * sectorSize)) (s * sectorSize)
        (load contents ((lba + s) * sectorSize) sectorSize) =
        load contents (lba * sectorSize) ((s + 1) * sectorSize) ++
          buf.drop ((s + 1) * sectorSize) := by
      rw [overwrite, length_load, take_left' length_load, ← drop_drop,
        drop_left' length_load, drop_drop, add_mul s, one_mul, load_add,
        add_mul lba]
    have next := @induction (s + 1) (by omega)
    rw [readLoop, whole.sector (by omega)]
    rcases blocks_page holds (lba + s) with ⟨missing, zeros⟩ | ⟨compressed, found, page⟩
    · simp only [missing, zeros, step]
      exact next
    · simp only [found, page, page_sector, step]
      exact next

/-! ## Sequences of calls -/

inductive Call
  | read (lba : Nat) (buf : List UInt8)
  | write (lba : Nat) (buf : List UInt8)

def Call.Valid : Call → Prop
  | .read lba buf => Whole lba buf
  | .write lba buf => Whole lba buf

/-- The answers of a sequence of calls. The buffer of a read comes back filled, that of
a write as it was. -/
def run (self : ZramDevice) : List Call → Option (List (Bool × List UInt8))
  | [] => some []
  | .read lba buf :: rest => do
      let answer ← self.readSectors lba buf
      let answers ← self.run rest
      some (answer :: answers)
  | .write lba buf :: rest => do
      let (ok, next) ← self.writeSectors lba buf
      let answers ← next.run rest
      some ((ok, buf) :: answers)

end ZramDevice

/-- What a flat array of sectors answers. -/
def flatRun (contents : Nat → UInt8) : List ZramDevice.Call → List (Bool × List UInt8)
  | [] => []
  | .read lba buf :: rest =>
    (true, load contents (lba * sectorSize) buf.length) :: flatRun contents rest
  | .write lba buf :: rest =>
    (true, buf) :: flatRun (store contents (lba * sectorSize) buf) rest

namespace ZramDevice

variable {self : ZramDevice} {contents : Nat → UInt8} {lba : Nat} {buf : List UInt8}

theorem readSectors_holds (holds : self.Holds contents) (whole : Whole lba buf) :
    self.readSectors lba buf = some (true, load contents (lba * sectorSize) buf.length) := by
  have loop := readLoop_holds holds whole (buf.length / sectorSize) (zero_add _)
  exact loop

theorem writeSectors_holds (holds : self.Holds contents) (whole : Whole lba buf) :
    ∃ next, self.writeSectors lba buf = some (true, next) ∧
      next.Holds (store contents (lba * sectorSize) buf) := by
  apply writeLoop_holds whole _ (lt_succ_of_le (sub_le _ _)) (zero_le _)
  rw [zero_mul, take_zero, store_nil]
  exact holds

theorem run_holds (calls : List Call) : ∀ {self : ZramDevice} {contents : Nat → UInt8},
    self.Holds contents → (∀ call ∈ calls, call.Valid) →
      self.run calls = some (flatRun contents calls) := by
  induction calls with
  | nil =>
    intro self contents _ _
    rfl
  | cons call rest induction =>
    intro self contents holds valid
    have later := fun other member => valid other (mem_cons_of_mem call member)
    cases call with
    | read lba buf =>
      have whole : Whole lba buf := valid (.read lba buf) mem_cons_self
      rw [run, readSectors_holds holds whole, flatRun, induction holds later]
      rfl
    | write lba buf =>
      have whole : Whole lba buf := valid (.write lba buf) mem_cons_self
      rcases writeSectors_holds holds whole with ⟨next, written, nextHolds⟩
      rw [run, written, flatRun]
      simp only [bind_eq_bind, bind_some, induction nextHolds later]

theorem flatRun_true (calls : List Call) : ∀ {contents : Nat → UInt8},
    ∀ answer ∈ flatRun contents calls, answer.1 = true := by
  induction calls with
  | nil => exact forall_mem_nil _
  | cons call rest induction =>
    cases call with
    | read | write => exact forall_mem_cons.mpr ⟨rfl, induction⟩

/-- Every sequence of calls answers as a flat array of sectors that starts zero filled,
and every answer is true. -/
theorem zram_refines_flat_array (sizeMb : Nat) (calls : List Call)
    (valid : ∀ call ∈ calls, call.Valid) :
    (new sizeMb).run calls = some (flatRun (fun _ => 0) calls) ∧
      ∀ answer ∈ flatRun (fun _ => 0) calls, answer.1 = true := by
  exact ⟨run_holds calls (holds_new sizeMb) valid, flatRun_true calls⟩

/-- Two sectors across the border of two pages, read back together with their
neighbours. -/
theorem zram_refines_flat_array_border :
    (new 1).run [.write 7 (replicate 1024 5), .read 6 (replicate 2048 9)] =
      some (flatRun (fun _ => 0)
        [.write 7 (replicate 1024 5), .read 6 (replicate 2048 9)]) := by
  refine (zram_refines_flat_array 1 [.write 7 (replicate 1024 5), .read 6 (replicate 2048 9)] ?_).1
  have written : Whole 7 (replicate 1024 5) := by
    constructor <;> rw [length_replicate] <;> decide
  have read : Whole 6 (replicate 2048 9) := by
    constructor <;> rw [length_replicate] <;> decide
  intro call member
  rcases mem_cons.mp member with same | last
  · rw [same]
    exact written
  · rw [mem_singleton.mp last]
    exact read

end ZramDevice

end Qunix.Memory.Zswap
