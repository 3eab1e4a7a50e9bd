import Qunix.Fs.Ext4.Directory

/-! # Directory blocks as chains of records

A well formed block is the bytes of some records, one after the other. What the loops
over a block find is stated on the records.
-/

namespace Qunix.Fs.Ext4

open Foundation Bytes FlatArray List Nat

/-- A record: its length is a multiple of four, fits its field and covers the name. An
unused record has no inode. -/
structure DirRecord where
  ino : Nat
  name : List UInt8
  fileType : UInt8
  padding : List UInt8
  inoSmall : ino < 4294967296
  nameShort : name.length < 256
  aligned : (8 + name.length + padding.length) % 4 = 0
  lengthFits : 8 + name.length + padding.length < 65536

namespace DirRecord

def length (self : DirRecord) : Nat := 8 + self.name.length + self.padding.length

def bytes (self : DirRecord) : List UInt8 :=
  recordBytes self.ino self.length self.name self.fileType ++ self.padding

def entry (self : DirRecord) : Option DirEntry :=
  if self.ino ≠ 0 ∧ 0 < self.name.length then some ⟨self.name, self.ino, self.fileType⟩ else none

def Named (self : DirRecord) (name : List UInt8) : Prop := self.ino ≠ 0 ∧ self.name = name

instance (self : DirRecord) (name : List UInt8) : Decidable (self.Named name) :=
  inferInstanceAs (Decidable (_ ∧ _))

theorem length_recordBytes (ino recLen : Nat) (name : List UInt8) (fileType : UInt8) :
    (recordBytes ino recLen name fileType).length = 8 + name.length := by
  simp only [recordBytes, length_append, length_le32, length_le16, length_cons, length_nil]

theorem length_bytes (self : DirRecord) : self.bytes.length = self.length := by
  rw [bytes, length_append, length_recordBytes, length]

theorem eight_le (self : DirRecord) : 8 ≤ self.length := by
  rw [length]
  omega

/-! ## One record of a block -/

section Fields

variable (front rest : List UInt8) (self : DirRecord)

theorem recIno_record : recIno (front ++ (self.bytes ++ rest)) front.length = self.ino := by
  have here := readLe32_append front (self.bytes ++ rest) 0
  rw [add_zero] at here
  rw [recIno, here, bytes, recordBytes]
  simp only [append_assoc]
  rw [readLe32_le32, mod_eq_of_lt self.inoSmall]

theorem recLen_record : recLen (front ++ (self.bytes ++ rest)) front.length = self.length := by
  rw [recLen, readLe16_append, bytes, recordBytes]
  simp only [append_assoc]
  have fits : self.length < 65536 := self.lengthFits
  rw [show 4 = (le32 self.ino).length + 0 from rfl, readLe16_append, readLe16_le16,
    mod_eq_of_lt fits]

theorem recNameLen_record :
    recNameLen (front ++ (self.bytes ++ rest)) front.length = self.name.length := by
  rw [recNameLen, byteAt_append, bytes, recordBytes]
  simp only [append_assoc]
  have short : self.name.length < 256 := self.nameShort
  rw [show 6 = (le32 self.ino).length + ((le16 self.length).length + 0) from rfl, byteAt_append,
    byteAt_append, byteAt, cons_append, getD_cons_zero, UInt8.toNat_ofNat',
    mod_eq_of_lt short]

theorem recFileType_record :
    recFileType (front ++ (self.bytes ++ rest)) front.length = self.fileType := by
  rw [recFileType, getD_eq_getElem?_getD,
    getElem?_append_right (Nat.le_add_right _ _), Nat.add_sub_cancel_left, bytes, recordBytes]
  rfl

theorem recName_record :
    recName (front ++ (self.bytes ++ rest)) front.length = self.name := by
  rw [recName, recNameLen_record, ← drop_drop, drop_left, bytes, recordBytes]
  simp only [append_assoc]
  rw [show 8 = (le32 self.ino).length + ((le16 self.length).length +
      [UInt8.ofNat self.name.length, self.fileType].length) from rfl, ← drop_drop,
    drop_left, ← drop_drop, drop_left, drop_left, take_left]

theorem recEntry_record :
    recEntry (front ++ (self.bytes ++ rest)) front.length = self.entry := by
  have inside : front.length + 8 + self.name.length ≤
      (front ++ (self.bytes ++ rest)).length := by
    rw [length_append, length_append, length_bytes, length]
    omega
  rw [recEntry, recIno_record, recNameLen_record, recName_record, recFileType_record, entry]
  simp only [inside, and_true]

end Fields

end DirRecord

/-! ## Chains -/

variable (records : List DirRecord)

def chain : List UInt8 := records.flatMap DirRecord.bytes

theorem chain_cons (record : DirRecord) (records : List DirRecord) :
    chain (record :: records) = record.bytes ++ chain records := flatMap_cons

theorem chain_append (first second : List DirRecord) :
    chain (first ++ second) = chain first ++ chain second := flatMap_append

theorem length_le_chain : records.length ≤ (chain records).length := by
  induction records with
  | nil => exact le_rfl
  | cons record rest induction =>
    have eight := record.eight_le
    rw [chain_cons, length_append, record.length_bytes, length_cons]
    omega

theorem length_split {front : List UInt8} {record : DirRecord} {rest : List DirRecord} :
    (front ++ (record.bytes ++ chain rest)).length =
      front.length + record.length + (chain rest).length := by
  rw [length_append, length_append, record.length_bytes, add_assoc]

theorem readRecords_chain : ∀ {front : List UInt8} {turns : Nat}, records.length ≤ turns →
      readRecords (front ++ chain records) turns front.length =
        records.filterMap DirRecord.entry := by
  induction records with
  | nil =>
    intro front turns _
    cases turns with
    | zero => rfl
    | succ turns =>
      rw [readRecords, if_neg]
      · rfl
      · rw [chain, flatMap_nil, append_nil]
        omega
  | cons record rest induction =>
    intro front turns enough
    cases turns with
    | zero => exact absurd enough (not_succ_le_zero _)
    | succ turns =>
      have eight := record.eight_le
      have next := @induction (front ++ record.bytes) turns (le_of_succ_le_succ enough)
      rw [append_assoc, length_append, record.length_bytes] at next
      rw [readRecords, chain_cons, if_pos (by rw [length_split]; omega), record.recLen_record,
        if_neg (by rw [length_split]; omega), record.recEntry_record, next, filterMap_cons]
      cases record.entry with
      | none => rfl
      | some entry => rfl

theorem readRecords_block :
    readRecords (chain records) (chain records).length 0 =
      records.filterMap DirRecord.entry :=
  @readRecords_chain records [] _ (length_le_chain records)

/-! ## Searching a chain -/

/-- The search finds the first record with a property, if the test of a position is the
property of the record there. -/
theorem findRecord_chain {accept : Nat → Bool} {Accepted : DirRecord → Prop}
    (records : List DirRecord) : ∀ {front : List UInt8} {turns : Nat},
    records.length ≤ turns →
    (∀ before record after, records = before ++ record :: after →
      (accept (front.length + (chain before).length) = true ↔ Accepted record)) →
    match findRecord (front ++ chain records) accept turns front.length with
    | some bpos => ∃ before record after, records = before ++ record :: after ∧
        bpos = front.length + (chain before).length ∧ Accepted record ∧
        ∀ other ∈ before, ¬Accepted other
    | none => ∀ record ∈ records, ¬Accepted record := by
  induction records with
  | nil =>
    intro front turns _ _
    cases turns with
    | zero => exact forall_mem_nil _
    | succ turns =>
      rw [findRecord, if_neg (by
        rw [chain, flatMap_nil, append_nil]
        omega)]
      exact forall_mem_nil _
  | cons record rest induction =>
    intro front turns enough agrees
    cases turns with
    | zero => exact absurd enough (not_succ_le_zero _)
    | succ turns =>
      have eight := record.eight_le
      have here := agrees [] record rest rfl
      rw [findRecord, chain_cons, if_pos (by rw [length_split]; omega), record.recLen_record,
        if_neg (by omega)]
      by_cases accepted : accept front.length = true
      · rw [if_pos accepted]
        exact ⟨[], record, rest, rfl, rfl, here.mp accepted, forall_mem_nil _⟩
      rw [if_neg accepted]
      have refused : ¬Accepted record := fun holds => accepted (here.mpr holds)
      have next := @induction (front ++ record.bytes) turns
        (le_of_succ_le_succ enough) (by
          intro before other after split
          have later := agrees (record :: before) other after (by rw [split]; rfl)
          rwa [chain_cons, length_append, ← add_assoc, ← length_append] at later)
      rw [append_assoc, length_append, record.length_bytes] at next
      split at next
      next bpos found =>
        rcases next with ⟨before, other, after, split, place, holds, none⟩
        refine ⟨record :: before, other, after, by rw [split]; rfl, ?_, holds,
          forall_mem_cons.mpr ⟨refused, none⟩⟩
        rw [place, chain_cons, length_append, record.length_bytes, add_assoc]
      next => exact forall_mem_cons.mpr ⟨refused, next⟩

theorem chain_split (before after : List DirRecord) (record : DirRecord) :
    chain (before ++ record :: after) = chain before ++ (record.bytes ++ chain after) := by
  rw [chain_append, chain_cons]

theorem findName_chain (name : List UInt8) :
    match findName (chain records) name with
    | some bpos => ∃ before record after, records = before ++ record :: after ∧
        bpos = (chain before).length ∧ record.Named name ∧ ∀ other ∈ before, ¬other.Named name
    | none => ∀ record ∈ records, ¬record.Named name := by
  have search := @findRecord_chain (fun bpos => recIno (chain records) bpos ≠ 0 ∧
      recNameLen (chain records) bpos = name.length ∧ recName (chain records) bpos = name)
    (DirRecord.Named · name) records [] _ (length_le_chain records) (by
      intro before record after split
      rw [length_nil, zero_add, split, chain_split, record.recIno_record,
        record.recNameLen_record, record.recName_record, decide_eq_true_eq, DirRecord.Named]
      constructor
      · exact fun ⟨used, _, same⟩ => ⟨used, same⟩
      · exact fun ⟨used, same⟩ => ⟨used, congrArg List.length same, same⟩)
  simp only [nil_append, length_nil, zero_add] at search
  exact search

/-! ## Removing a record -/

namespace DirRecord

variable (self : DirRecord)

def unused : DirRecord := { self with ino := 0, inoSmall := by decide }

theorem length_unused : self.unused.length = self.length := rfl

theorem entry_unused : self.unused.entry = none := if_neg fun used => used.1 rfl

/-- A record with the bytes of an unused one as more padding. -/
def absorb (self record : DirRecord) (fits : self.length + record.length < 65536) : DirRecord where
  ino := self.ino
  name := self.name
  fileType := self.fileType
  padding := self.padding ++ record.unused.bytes
  inoSmall := self.inoSmall
  nameShort := self.nameShort
  aligned := by
    have first := self.aligned
    have second : record.length % 4 = 0 := record.aligned
    rw [length_append, length_bytes, length_unused]
    omega
  lengthFits := by
    rw [length] at fits
    rw [length_append, length_bytes, length_unused]
    omega

theorem length_absorb (self record : DirRecord) (fits : self.length + record.length < 65536) :
    (self.absorb record fits).length = self.length + record.length := by
  simp only [length, absorb, unused, length_append, length_bytes]
  omega

theorem bytes_eq :
    self.bytes = le32 self.ino ++ (le16 self.length ++
      ([UInt8.ofNat self.name.length, self.fileType] ++ self.name ++ self.padding)) := by
  rw [bytes, recordBytes]
  simp only [append_assoc]

end DirRecord

theorem clear_record (front rest : List UInt8) (record : DirRecord) :
    overwrite (front ++ (record.bytes ++ rest)) front.length (le32 0) =
      front ++ (record.unused.bytes ++ rest) := by
  rw [record.bytes_eq, append_assoc, overwrite_middle front _ (by rw [length_le32, length_le32]),
    record.unused.bytes_eq, append_assoc]
  rfl

theorem absorb_record (front rest : List UInt8) (prev record : DirRecord)
    (fits : prev.length + record.length < 65536) :
    overwrite (front ++ (prev.bytes ++ (record.unused.bytes ++ rest))) (front.length + 4)
        (le16 (prev.length + record.length)) =
      front ++ ((prev.absorb record fits).bytes ++ rest) := by
  have place : front.length + 4 = (front ++ le32 prev.ino).length := by
    rw [length_append, length_le32]
  rw [prev.bytes_eq, (prev.absorb record fits).bytes_eq, place]
  simp only [append_assoc]
  rw [← append_assoc front, overwrite_middle (front ++ le32 prev.ino) _
    (by rw [length_le16, length_le16]), prev.length_absorb]
  simp only [DirRecord.absorb, append_assoc]

theorem removeRecord_first (record : DirRecord) (after : List DirRecord) :
    removeRecord (chain (record :: after)) 0 = chain (record.unused :: after) := by
  have cleared := clear_record [] (chain after) record
  rw [nil_append, nil_append, length_nil] at cleared
  rw [removeRecord, chain_cons, cleared, chain_cons]
  rfl

theorem removeRecord_absorb (earlier after : List DirRecord) (prev record : DirRecord)
    (found : (chain (earlier ++ [prev])).length - record.length = (chain earlier).length)
    (fits : prev.length + record.length < 65536) :
    removeRecord (chain (earlier ++ [prev] ++ record :: after)) (chain (earlier ++ [prev])).length =
      chain (earlier ++ prev.absorb record fits :: after) := by
  have eight := prev.eight_le
  have split : chain (earlier ++ [prev]) = chain earlier ++ prev.bytes := by
    rw [chain_append, chain_cons, chain, chain, flatMap_nil, append_nil]
  have positive : 0 < (chain (earlier ++ [prev])).length := by
    rw [split, length_append, prev.length_bytes]
    omega
  rw [removeRecord, chain_split (earlier ++ [prev]) after record, clear_record,
    record.recLen_record, if_pos positive]
  dsimp only
  rw [found, split, append_assoc, prev.recLen_record, absorb_record _ _ _ _ fits,
    chain_append, chain_cons]

/-- Where the removed record stands: first in its block, or right behind a record that
starts as many bytes before it as it is long. -/
def Removable (before : List DirRecord) (record : DirRecord) : Prop :=
  before = [] ∨ ∃ earlier prev, before = earlier ++ [prev] ∧
    (chain before).length - record.length = (chain earlier).length ∧
    prev.length + record.length < 65536

theorem removeRecord_chain {before after : List DirRecord} {record : DirRecord}
    (removable : Removable before record) :
    ∃ records, removeRecord (chain (before ++ record :: after)) (chain before).length =
        chain records ∧
      (chain records).length = (chain (before ++ record :: after)).length ∧
      records.filterMap DirRecord.entry =
        before.filterMap DirRecord.entry ++ after.filterMap DirRecord.entry := by
  rcases removable with rfl | ⟨earlier, prev, rfl, found, fits⟩
  · refine ⟨record.unused :: after, removeRecord_first record after, ?_, ?_⟩
    · rw [nil_append, chain_cons, chain_cons, length_append, length_append,
        DirRecord.length_bytes, DirRecord.length_bytes, DirRecord.length_unused]
    · rw [filterMap_cons, record.entry_unused]
      rfl
  refine ⟨earlier ++ prev.absorb record fits :: after,
    removeRecord_absorb earlier after prev record found fits, ?_, ?_⟩
  · rw [chain_split, chain_split, chain_append, chain_cons, chain, chain, chain,
      flatMap_nil, append_nil]
    simp only [length_append, DirRecord.length_bytes, DirRecord.length_absorb]
    omega
  · rw [filterMap_append, filterMap_append, append_assoc]
    congr 1
    rw [filterMap_cons, filterMap_cons]
    have same : (prev.absorb record fits).entry = prev.entry := rfl
    rw [same]
    cases prev.entry with
    | none | some entry => rfl

end Qunix.Fs.Ext4
