import Qunix.Foundation.Bytes

/-! # Listing a directory

`getdents_inner` packs records of varying length into the buffer of the caller, and the offset of
the descriptor counts the entries that were returned.
-/

namespace Qunix.Vfs

open Foundation Bytes List

/-- An entry as `readdir` returns it. -/
structure Dirent where
  ino : BitVec 64
  fileType : UInt8
  name : List UInt8
deriving DecidableEq

namespace Dirent

/-- `((19 + nlen + 1 + 7) & !7).max(24)`. -/
def reclen (self : Dirent) : Nat := max ((19 + self.name.length + 1 + 7) / 8 * 8) 24

/-- The fields that are stored, from `d_ino` to the terminator of the name. -/
def fields (self : Dirent) (nextOffset : Nat) : List UInt8 :=
  le64 self.ino.toNat ++ le64 nextOffset ++ le16 self.reclen ++ self.fileType :: self.name ++ [0]

/-- A name without a terminator inside, of a length that the field can hold. -/
structure Fine (entry : Dirent) : Prop where
  noZero : (0 : UInt8) ∉ entry.name
  short : entry.reclen < 65536

theorem length_fields (self : Dirent) (nextOffset : Nat) :
    (self.fields nextOffset).length ≤ self.reclen := by
  simp [fields, le64, reclen]
  omega

end Dirent

/-- The loop over the entries from an index on, for what is left of the buffer: the bytes of the
records and their number. Behind its name a record keeps what the buffer held. -/
def pack (buffer : List UInt8) (index : Nat) : List Dirent → List UInt8 × Nat
  | [] => ([], 0)
  | entry :: rest =>
    if buffer.length < entry.reclen then ([], 0)
    else
      let fields := entry.fields (index + 1)
      let later := pack (buffer.drop entry.reclen) (index + 1) rest
      (fields ++ (buffer.take entry.reclen).drop fields.length ++ later.1, later.2 + 1)

def getdentsInner (entries : List Dirent) (offset : Nat) (buffer : List UInt8) : List UInt8 × Nat :=
  pack buffer offset (entries.drop offset)

/-! ## Records -/

/-- The bytes are records of the entries in this order, each aligned and as long as it says, with
its name up to the first zero. -/
inductive Records : (index : Nat) → List Dirent → List UInt8 → Prop
  | nil {index : Nat} : Records index [] []
  | cons {index : Nat} {entry : Dirent} {rest : List Dirent} {padding bytes : List UInt8} :
      entry.Fine → entry.reclen % 8 = 0 →
      (entry.fields (index + 1) ++ padding).length = entry.reclen →
      Records (index + 1) rest bytes →
      Records index (entry :: rest) (entry.fields (index + 1) ++ padding ++ bytes)

variable {offset : Nat} {bytes : List UInt8} {entries : List Dirent}

theorem Records.append {index : Nat} {front back : List Dirent} {later : List UInt8}
    (first : Records index front bytes) (second : Records (index + front.length) back later) :
    Records index (front ++ back) (bytes ++ later) := by
  induction first with
  | nil => exact second
  | cons fine aligned whole _ induction =>
    rw [append_assoc, cons_append]
    apply Records.cons fine aligned whole
    apply induction
    rw [add_right_comm]
    exact second

theorem pack_records (fine : ∀ entry ∈ entries, entry.Fine) (buffer : List UInt8) (index : Nat) :
    (pack buffer index entries).2 ≤ entries.length ∧
      Records index (entries.take (pack buffer index entries).2) (pack buffer index entries).1 := by
  induction entries generalizing buffer index with
  | nil => exact ⟨le_rfl, .nil⟩
  | cons entry rest induction =>
    rw [pack]
    split
    next => exact ⟨Nat.zero_le _, .nil⟩
    next room =>
    rcases induction (fun other member => fine other (mem_cons_of_mem entry member))
      (buffer.drop entry.reclen) (index + 1) with ⟨inside, records⟩
    refine ⟨Nat.succ_le_succ inside, ?_⟩
    apply Records.cons (fine entry mem_cons_self) _ _ records
    · rw [Dirent.reclen]
      omega
    · have fits := entry.length_fields (index + 1)
      simp only [length_append, length_drop, length_take]
      omega

theorem getdentsInner_eq_nil_iff {buffer : List UInt8} :
    (getdentsInner entries offset buffer).1 = [] ↔
      ∀ entry, entries[offset]? = some entry → buffer.length < entry.reclen := by
  rw [getdentsInner]
  cases isRest : entries.drop offset with
  | nil =>
    have atEnd : entries[offset]? = none := by
      rw [← head?_drop, isRest, head?_nil]
    simp [pack, atEnd]
  | cons entry rest =>
    have here : entries[offset]? = some entry := by
      rw [← head?_drop, isRest, head?_cons]
    rw [pack]
    split
    next full => simpa [here] using full
    next room => simpa [here, Dirent.fields] using room

/-! ## Calls one after the other -/

/-- The offsets at which `sys_getdents64` finds the descriptor when it is called with these
buffers, each with its buffer. -/
def calls (entries : List Dirent) (offset : Nat) : List (List UInt8) → List (Nat × List UInt8)
  | [] => []
  | buffer :: later =>
    (offset, buffer) :: calls entries (offset + (getdentsInner entries offset buffer).2) later

variable {entries : List Dirent}

def answer (entries : List Dirent) (call : Nat × List UInt8) : List UInt8 × Nat :=
  getdentsInner entries call.1 call.2

/-- The entries that the calls return together. -/
def consumed (entries : List Dirent) (made : List (Nat × List UInt8)) : Nat :=
  (made.map fun call => (answer entries call).2).sum

/-- No bytes are returned only when all entries have been. -/
def EndsAtEnd (entries : List Dirent) (call : Nat × List UInt8) : Prop :=
  (answer entries call).1 = [] → entries.length ≤ call.1

/-- The next record fits into the buffer. -/
def Roomy (entries : List Dirent) (call : Nat × List UInt8) : Prop :=
  ∀ entry, entries[call.1]? = some entry → entry.reclen ≤ call.2.length

theorem endsAtEnd_iff_roomy (call : Nat × List UInt8) :
    EndsAtEnd entries call ↔ Roomy entries call := by
  rw [EndsAtEnd, answer, getdentsInner_eq_nil_iff, Roomy, ← List.getElem?_eq_none_iff]
  cases entries[call.1]? with
  | none | some entry => simp

theorem calls_records (fine : ∀ entry ∈ entries, entry.Fine) (buffers : List (List UInt8))
    (inside : offset ≤ entries.length) (before : Records 0 (entries.take offset) bytes) :
    ∃ after ≤ entries.length,
      after = offset + consumed entries (calls entries offset buffers) ∧
      Records 0 (entries.take after)
        (bytes ++ (calls entries offset buffers).flatMap fun call => (answer entries call).1) := by
  induction buffers generalizing offset bytes with
  | nil => exact ⟨offset, inside, by simp [calls, consumed], by simpa [calls] using before⟩
  | cons buffer later induction =>
    rcases pack_records (fun entry member => fine entry (mem_of_mem_drop member)) buffer offset
      with ⟨few, records⟩
    rw [length_drop] at few
    have more := before.append (by simpa [inside] using records)
    rw [← take_add] at more
    rcases induction (by omega) more with ⟨after, bound, isAfter, rest⟩
    refine ⟨after, bound, ?_, ?_⟩
    · rw [isAfter, calls, consumed, consumed, map_cons, sum_cons, ← add_assoc]
      rfl
    · rw [append_assoc] at rest
      exact rest

theorem calls_offset {call : Nat × List UInt8} (buffers : List (List UInt8))
    (made : call ∈ calls entries offset buffers) :
    call.1 ≤ offset + consumed entries (calls entries offset buffers) := by
  induction buffers generalizing offset with
  | nil => cases made
  | cons buffer later induction =>
    rw [calls, consumed, map_cons, sum_cons]
    rcases mem_cons.mp made with same | earlier
    · rw [same]
      exact Nat.le_add_right _ _
    · have grows := induction earlier
      rw [add_assoc] at grows
      exact grows

/-- For buffers of any sizes the calls return together the records of the first entries of the
directory in order, as many as they count, and of all entries once a call with room for a record
returns no bytes. A call returns no bytes before the end exactly if its buffer has no room for the
next record. -/
theorem getdents_law (fine : ∀ entry ∈ entries, entry.Fine) (buffers : List (List UInt8)) :
    (∃ after ≤ entries.length, after = consumed entries (calls entries 0 buffers) ∧
      Records 0 (entries.take after)
        ((calls entries 0 buffers).flatMap fun call => (answer entries call).1) ∧
      ((∃ call ∈ calls entries 0 buffers, Roomy entries call ∧ (answer entries call).1 = []) →
        after = entries.length)) ∧
      ∀ call ∈ calls entries 0 buffers, EndsAtEnd entries call ↔ Roomy entries call := by
  rcases calls_records fine buffers (Nat.zero_le _) .nil with ⟨after, inside, isAfter, records⟩
  refine ⟨⟨after, inside, ?_, records, ?_⟩, fun call _ => endsAtEnd_iff_roomy call⟩
  · rw [isAfter, zero_add]
  · rintro ⟨call, made, roomy, nothing⟩
    apply le_antisymm inside
    rw [isAfter]
    exact le_trans ((endsAtEnd_iff_roomy call).mpr roomy nothing) (calls_offset buffers made)

def dot : Dirent := ⟨1, 4, [46]⟩

/-- A directory with a file, listed in three calls. The first two return one record and two, the
third nothing. -/
def threeEntries : List Dirent := [dot, ⟨1, 4, [46, 46]⟩, ⟨7, 8, [97, 98]⟩]

def threeBuffers : List (List UInt8) :=
  [List.replicate 30 0, List.replicate 50 0, List.replicate 24 0]

theorem getdents_law_three : Records 0 threeEntries
    ((calls threeEntries 0 threeBuffers).flatMap fun call => (answer threeEntries call).1) := by
  have fine : ∀ entry ∈ threeEntries, entry.Fine := by
    simp only [threeEntries, forall_mem_cons]
    exact ⟨⟨by decide, by decide⟩, ⟨by decide, by decide⟩, ⟨by decide, by decide⟩, by simp⟩
  rcases (getdents_law fine threeBuffers).1 with ⟨after, _, _, records, ends⟩
  have last : (3, List.replicate 24 0) ∈ calls threeEntries 0 threeBuffers := by decide
  have all : after = 3 := ends ⟨_, last, by simp [Roomy, threeEntries], by decide⟩
  rw [all] at records
  exact records

/-- A buffer of 23 bytes is too small for `.`, and the call answers 0 as at the end. -/
theorem getdents_stuck : ∃ call ∈ calls [dot] 0 [List.replicate 23 0],
    (answer [dot] call).1 = [] ∧ ¬EndsAtEnd [dot] call := by
  have nothing : (answer [dot] (0, List.replicate 23 0)).1 = [] := by decide
  refine ⟨_, mem_singleton.mpr rfl, nothing, ?_⟩
  intro ends
  exact absurd (ends nothing) (by decide)

end Qunix.Vfs
