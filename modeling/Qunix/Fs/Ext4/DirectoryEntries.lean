import Qunix.Fs.Ext4.BlockMap
import Qunix.Fs.Ext4.DirectoryBlock

/-! # The entries of a directory

A directory is the list of its logical blocks: holes, and blocks with their records.
-/

namespace Qunix.Fs.Ext4

open Foundation Bytes FlatArray List Procedure

/-- A logical block: a hole, or a block of the disk with its records. -/
abbrev DirSlot := Option (Nat × List DirRecord)

def DirSlot.entries : DirSlot → List DirEntry
  | none => []
  | some (_, records) => records.filterMap DirRecord.entry

namespace Ext4Fs

variable (fs : Ext4Fs)

def slotBlocks (slots : List DirSlot) : List Nat := slots.filterMap (Option.map Prod.fst)

/-- The volumes agree except in the blocks of a list. -/
structure AgreeOutside (blocks : List Nat) (volume other : Volume) : Prop where
  size : other.size = volume.size
  current : other.current = volume.current
  bytes : ∀ address, (∀ block ∈ blocks,
      ¬(block * fs.blockSize ≤ address ∧ address < block * fs.blockSize + fs.blockSize)) →
    other.bytes address = volume.bytes address

/-- The logical blocks of a directory hold chains of records, in blocks of their own. No
transaction is open. The block map does not depend on the bytes of these blocks. -/
structure Directory (volume : Volume) (inode : Inode) (slots : List DirSlot) : Prop where
  closed : volume.current = none
  count : slots.length = fs.dirBlocks inode.size
  found : ∀ other, fs.AgreeOutside (slotBlocks slots) volume other →
    ∀ logical slot, slots[logical]? = some slot →
      fs.getBlock inode logical other = (.ok (slot.map Prod.fst), other)
  distinct : (slotBlocks slots).Nodup
  chains : ∀ phys records, some (phys, records) ∈ slots →
    phys * fs.blockSize + fs.blockSize ≤ volume.size ∧
      load volume.bytes (phys * fs.blockSize) fs.blockSize = chain records

variable {fs} {volume next : Volume} {inode : Inode} {slots : List DirSlot}

theorem AgreeOutside.refl (fs : Ext4Fs) (blocks : List Nat) (volume : Volume) :
    fs.AgreeOutside blocks volume volume :=
  ⟨rfl, rfl, fun _ _ => rfl⟩

theorem AgreeOutside.trans {blocks : List Nat} {first second third : Volume}
    (left : fs.AgreeOutside blocks first second) (right : fs.AgreeOutside blocks second third) :
    fs.AgreeOutside blocks first third :=
  ⟨right.size.trans left.size, right.current.trans left.current,
    fun address outside => (right.bytes address outside).trans (left.bytes address outside)⟩

variable {other phys : Nat} {front rest : List DirSlot}

/-! ## Reading -/

def Located (fs : Ext4Fs) (inode : Inode) (volume : Volume) (logical : Nat) (slot : DirSlot) :
    Prop :=
  fs.getBlock inode logical volume = (.ok (slot.map Prod.fst), volume) ∧
    ∀ phys records, slot = some (phys, records) →
      phys * fs.blockSize + fs.blockSize ≤ volume.size ∧
        load volume.bytes (phys * fs.blockSize) fs.blockSize = chain records

section

variable (directory : fs.Directory volume inode slots)
include directory

theorem Directory.located :
    List.Forall₂ (fs.Located inode volume) (List.range (fs.dirBlocks inode.size)) slots := by
  rw [← directory.count, forall₂_iff_get]
  refine ⟨length_range, ?_⟩
  intro index inRange inside
  have slot : slots[index]? = some (slots.get ⟨index, inside⟩) := getElem?_eq_getElem inside
  refine ⟨?_, ?_⟩
  · rw [get_eq_getElem, getElem_range]
    exact directory.found volume (.refl fs _ volume) index _ slot
  · intro phys records same
    exact directory.chains phys records (same ▸ get_mem slots ⟨index, inside⟩)

omit directory in
theorem dirReadBlocks_slots (logicals : List Nat) (parts : List DirSlot)
    (located : List.Forall₂ (fs.Located inode volume) logicals parts) :
    fs.dirReadBlocks inode logicals volume = (.ok (parts.flatMap DirSlot.entries), volume) := by
  induction located with
  | nil => rfl
  | @cons logical slot logicals parts here _ induction =>
    rw [dirReadBlocks, bind_run, here.1]
    cases slot with
    | none => exact induction
    | some content =>
      rcases content with ⟨phys, records⟩
      rcases here.2 phys records rfl with ⟨inside, isChain⟩
      simp only [Option.map_some]
      rw [bind_of_ok (readBlock_ok inside)]
      rw [bind_run, induction, isChain, readRecords_block]
      rfl

theorem Directory.dirReadEntries_eq :
    fs.dirReadEntries inode volume = (.ok (slots.flatMap DirSlot.entries), volume) :=
  dirReadBlocks_slots _ _ directory.located

theorem Directory.length_chain {records : List DirRecord} (member : some (phys, records) ∈ slots) :
    (chain records).length = fs.blockSize := by
  rw [← (directory.chains phys records member).2, length_load]

end

/-! ## Replacing a block -/

variable {phys : Nat} {records : List DirRecord}

theorem mem_slotBlocks {slots : List DirSlot}
    (member : some (phys, records) ∈ slots) : phys ∈ slotBlocks slots :=
  mem_filterMap.mpr ⟨some (phys, records), member, rfl⟩

theorem agreeOutside_store (volume : Volume) {data : List UInt8} (size : data.length = fs.blockSize)
    (member : some (phys, records) ∈ slots) : fs.AgreeOutside (slotBlocks slots) volume
      { volume with bytes := store volume.bytes (phys * fs.blockSize) data } := by
  refine ⟨rfl, rfl, fun address outside => store_outside ?_⟩
  have notHere := outside phys (mem_slotBlocks member)
  omega

theorem ne_of_distinct {otherRecords : List DirRecord}
    (distinct : (slotBlocks (front ++ some (phys, records) :: rest)).Nodup)
    (member : some (other, otherRecords) ∈ front ∨ some (other, otherRecords) ∈ rest) :
    other ≠ phys := by
  simp only [slotBlocks, filterMap_append, filterMap_cons, Option.map_some] at distinct
  rw [nodup_append] at distinct
  rcases distinct with ⟨_, nodup, apart⟩
  rcases member with before | after
  · exact apart other (mem_slotBlocks before) phys mem_cons_self
  · intro same
    exact (nodup_cons.mp nodup).1 (same ▸ mem_slotBlocks after)

theorem Directory.replace {old : List DirRecord}
    (directory : fs.Directory volume inode (front ++ some (phys, old) :: rest))
    (size : (chain records).length = fs.blockSize) :
    fs.Directory { volume with bytes := store volume.bytes (phys * fs.blockSize) (chain records) }
      inode (front ++ some (phys, records) :: rest) := by
  have member : some (phys, old) ∈ front ++ some (phys, old) :: rest :=
    mem_append_right front mem_cons_self
  have blocks : slotBlocks (front ++ some (phys, records) :: rest) =
      slotBlocks (front ++ some (phys, old) :: rest) := by
    simp only [slotBlocks, filterMap_append, filterMap_cons, Option.map_some]
  have agree := agreeOutside_store volume size member
  refine ⟨directory.closed, ?_, ?_, ?_, ?_⟩
  · rw [← directory.count]
    simp only [length_append, length_cons]
  · intro other agrees logical slot isSlot
    rw [blocks] at agrees
    have found := directory.found other (agree.trans agrees) logical
    rw [getElem?_append] at isSlot found
    split at isSlot
    next before =>
      rw [if_pos before] at found
      exact found slot isSlot
    next =>
      rw [if_neg (by assumption)] at found
      rw [getElem?_cons] at isSlot found
      split at isSlot
      next here =>
        rw [if_pos here] at found
        cases isSlot
        exact found (some (phys, old)) rfl
      next later =>
        rw [if_neg later] at found
        exact found slot isSlot
  · rw [blocks]
    exact directory.distinct
  · intro other otherRecords isSlot
    rw [mem_append, mem_cons, or_left_comm] at isSlot
    rcases isSlot with same | beside
    · cases same
      refine ⟨(directory.chains phys old member).1, ?_⟩
      rw [← size, load_store_same]
    · have different := ne_of_distinct directory.distinct beside
      have kept := directory.chains other otherRecords
        (mem_append.mpr (beside.imp_right (mem_cons_of_mem _)))
      refine ⟨kept.1, ?_⟩
      rw [load_store_outside (by rw [size]; exact records_apart _ different.symm), kept.2]

/-! ## Removing an entry -/

variable {name : List UInt8}

def Passed (Good : DirRecord → Prop) (slots : List DirSlot) : Prop :=
  ∀ phys records, some (phys, records) ∈ slots → ∀ record ∈ records, ¬Good record

theorem Passed.cons {Good : DirRecord → Prop} {slot : DirSlot} (here : Passed Good [slot])
    (later : Passed Good slots) : Passed Good (slot :: slots) := by
  intro phys records member
  rcases mem_cons.mp member with same | member
  · exact here phys records (mem_singleton.mpr same)
  · exact later phys records member

/-- A loop over the blocks stops at the first record that its search accepts. -/
theorem scan_slots {α : Type} {loop : List Nat → Ext4M α} {hit : Nat → List UInt8 → Nat → Ext4M α}
    {find : List UInt8 → Option Nat} {Good : DirRecord → Prop}
    (search : ∀ records, match find (chain records) with
      | some bpos => ∃ before record after, records = before ++ record :: after ∧
          bpos = (chain before).length ∧ Good record ∧ ∀ other ∈ before, ¬Good other
      | none => ∀ record ∈ records, ¬Good record)
    (turn : ∀ logical rest, loop (logical :: rest) = do
      match ← fs.getBlock inode logical with
      | none => loop rest
      | some phys => do
          let block ← fs.readBlock phys
          match find block with
          | some bpos => hit phys block bpos
          | none => loop rest)
    {logicals : List Nat} (located : List.Forall₂ (fs.Located inode volume) logicals slots) :
    (∃ front phys before record after rest,
      slots = front ++ some (phys, before ++ record :: after) :: rest ∧
      Good record ∧ (∀ other ∈ before, ¬Good other) ∧ Passed Good front ∧
      loop logicals volume =
        hit phys (chain (before ++ record :: after)) (chain before).length volume) ∨
    (Passed Good slots ∧ loop logicals volume = loop [] volume) := by
  induction located with
  | nil => exact .inr ⟨fun _ _ member => absurd member not_mem_nil, rfl⟩
  | @cons logical slot logicals slots here _ induction =>
    have run := congrFun (turn logical logicals) volume
    rw [bind_run, here.1] at run
    by_cases passed : Passed Good [slot] ∧ loop (logical :: logicals) volume = loop logicals volume
    · rw [passed.2]
      rcases induction with ⟨front, phys, before, record, after, rest, split, good, first, earlier,
        result⟩ | ⟨later, result⟩
      · exact .inl ⟨slot :: front, phys, before, record, after, rest, by rw [split]; rfl, good,
          first, passed.1.cons earlier, result⟩
      · exact .inr ⟨passed.1.cons later, result⟩
    cases slot with
    | none =>
      refine absurd ⟨?_, run⟩ passed
      intro phys records member
      cases mem_singleton.mp member
    | some content =>
      rcases content with ⟨phys, records⟩
      rcases here.2 phys records rfl with ⟨inside, isChain⟩
      have found := search records
      simp only [Option.map_some] at run
      rw [bind_run, readBlock_ok inside, isChain] at run
      dsimp only at run
      split at found
      next bpos isFound =>
        rcases found with ⟨before, record, after, split, place, good, first⟩
        subst split place
        rw [isFound] at run
        exact .inl ⟨[], phys, before, record, after, slots, rfl, good, first,
          fun _ _ member => absurd member not_mem_nil, run⟩
      next isFound =>
        rw [isFound] at run
        refine absurd ⟨?_, run⟩ passed
        intro other others member
        cases mem_singleton.mp member
        exact found

theorem entry_named {record : DirRecord} {entry : DirEntry} (isEntry : record.entry = some entry) :
    record.Named entry.name := by
  rw [DirRecord.entry] at isEntry
  split at isEntry
  next used =>
    cases isEntry
    exact ⟨used.1, rfl⟩
  next => cases isEntry

theorem entries_unnamed (unnamed : ∀ record ∈ records, ¬record.Named name) :
    ∀ entry ∈ records.filterMap DirRecord.entry, entry.name ≠ name := by
  intro entry member same
  rcases mem_filterMap.mp member with ⟨record, inRecords, isEntry⟩
  exact unnamed record inRecords (same ▸ entry_named isEntry)

/-- Every record with the name stands where `dir_remove_entry` handles it. -/
def Removables (slots : List DirSlot) (name : List UInt8) : Prop :=
  ∀ phys before record after, some (phys, before ++ record :: after) ∈ slots →
    record.Named name → Removable before record

theorem Directory.remove (directory : fs.Directory volume inode slots)
    (nonempty : name ≠ []) (removables : Removables slots name)
    (done : fs.dirRemoveEntry inode name volume = (.ok (), next)) :
    ∃ remaining, fs.Directory next inode remaining ∧
      remaining.flatMap DirSlot.entries =
        (slots.flatMap DirSlot.entries).eraseP fun entry => entry.name = name := by
  have scanned := @scan_slots fs volume inode slots _ (fs.dirRemoveInBlocks inode name)
    (fun phys block bpos => fs.writeBlock phys (removeRecord block bpos)) (findName · name) _
    (findName_chain · name) (fun _ _ => rfl) _ directory.located
  rw [dirRemoveEntry] at done
  rw [done] at scanned
  rcases scanned.resolve_right (by rintro ⟨_, failed⟩; cases failed) with
    ⟨front, phys, before, record, after, rest, split, named, first, earlier, result⟩
  have written := result.symm
  subst split
  have member : some (phys, before ++ record :: after) ∈
      front ++ some (phys, before ++ record :: after) :: rest :=
    mem_append_right front mem_cons_self
  rcases @removeRecord_chain before after record (removables phys before record after member named)
    with ⟨records, removed, length, entries⟩
  have size : (chain records).length = fs.blockSize := length.trans (directory.length_chain member)
  rw [writeBlock, directory.closed, removed, take_of_length_le (le_of_eq size)] at written
  obtain ⟨_, rfl⟩ := writeBytesAt_ok.mp written
  refine ⟨_, directory.replace size, ?_⟩
  have isEntry : record.entry = some ⟨name, record.ino, record.fileType⟩ := by
    rw [DirRecord.entry, if_pos ⟨named.1, by rw [named.2]; exact List.length_pos_iff.mpr nonempty⟩,
      named.2]
  have unnamed : ∀ entry ∈ front.flatMap DirSlot.entries ++ before.filterMap DirRecord.entry,
      ¬decide (entry.name = name) = true := by
    intro entry member
    rw [decide_eq_true_eq]
    rcases mem_append.mp member with inFront | inBefore
    · rcases mem_flatMap.mp inFront with ⟨slot, inSlots, inSlot⟩
      cases slot with
      | none => cases inSlot
      | some content => exact entries_unnamed (earlier content.1 content.2 inSlots) entry inSlot
    · exact entries_unnamed first entry inBefore
  have joined : (front ++ some (phys, before ++ record :: after) :: rest).flatMap DirSlot.entries =
      (front.flatMap DirSlot.entries ++ before.filterMap DirRecord.entry) ++
        ⟨name, record.ino, record.fileType⟩ ::
          (after.filterMap DirRecord.entry ++ rest.flatMap DirSlot.entries) := by
    simp only [flatMap_append, flatMap_cons, DirSlot.entries, filterMap_append,
      filterMap_cons, isEntry, append_assoc, cons_append]
  rw [joined, eraseP_append_right _ unnamed, eraseP_cons_of_pos (by simp)]
  simp only [flatMap_append, flatMap_cons, DirSlot.entries, entries, append_assoc]

theorem eraseP_unnamed {entries : List DirEntry} (unique : (entries.map DirEntry.name).Nodup) :
    ∀ entry ∈ entries.eraseP (fun entry => entry.name = name), entry.name ≠ name := by
  by_cases present : ∃ entry ∈ entries, entry.name = name
  · rcases present with ⟨found, member, isName⟩
    rcases exists_of_eraseP (p := fun entry => entry.name = name) member
      (decide_eq_true isName) with ⟨removed, before, after, _, isRemoved, split, erased⟩
    have sameName : removed.name = name := of_decide_eq_true isRemoved
    rw [split, map_append, map_cons, nodup_middle, nodup_cons, sameName] at unique
    rw [erased]
    intro entry kept same
    apply unique.1
    rw [← map_append]
    exact mem_map.mpr ⟨entry, kept, same⟩
  · have absent : ∀ entry ∈ entries, ¬decide (entry.name = name) = true := by
      intro entry member same
      exact present ⟨entry, member, by simpa using same⟩
    rw [eraseP_of_forall_not absent]
    intro entry member same
    exact present ⟨entry, member, same⟩

/-- Where every record of the name stands first in its block, or as far behind the
record before it as it is long, a removal takes out the entry and nothing else, and the
blocks stay well formed. -/
theorem dirRemoveEntry_exact (directory : fs.Directory volume inode slots)
    (present : ∃ entry ∈ slots.flatMap DirSlot.entries, entry.name = name)
    (removables : Removables slots name)
    (done : fs.dirRemoveEntry inode name volume = (.ok (), next)) :
    fs.dirReadEntries inode volume = (.ok (slots.flatMap DirSlot.entries), volume) ∧
      fs.dirReadEntries inode next =
        (.ok ((slots.flatMap DirSlot.entries).eraseP fun entry => entry.name = name), next) ∧
      (((slots.flatMap DirSlot.entries).map DirEntry.name).Nodup →
        ∀ entry ∈ (slots.flatMap DirSlot.entries).eraseP (fun entry => entry.name = name),
          entry.name ≠ name) ∧
      ∃ remaining, fs.Directory next inode remaining := by
  have nonempty : name ≠ [] := by
    rcases present with ⟨entry, member, rfl⟩
    rcases mem_flatMap.mp member with ⟨slot, _, inSlot⟩
    cases slot with
    | none => cases inSlot
    | some content =>
      rcases mem_filterMap.mp inSlot with ⟨record, _, isEntry⟩
      rw [DirRecord.entry] at isEntry
      split at isEntry
      next used =>
        cases isEntry
        exact List.length_pos_iff.mp used.2
      next => cases isEntry
  rcases directory.remove nonempty removables done with ⟨remaining, stays, entries⟩
  refine ⟨directory.dirReadEntries_eq, ?_, eraseP_unnamed, remaining, stays⟩
  rw [stays.dirReadEntries_eq, entries]

/-! ## A directory of one block -/

def oneExtent (size start : Nat) : Inode :=
  ((Inode.setSize ⟨List.replicate 160 0, Inode.length_zeroed⟩ size).patch 32 (le32 0x80000)
    Inode.extentsFlag_inside).setIBlock (le16 extentMagic ++ le16 1 ++ le16 4 ++ le16 0 ++ le32 0 ++
      extentBytes 0 start)

def sampleRecord (ino : Nat) (name : List UInt8) (padding : Nat) (inoSmall : ino < 4294967296)
    (nameShort : name.length < 256) (aligned : (8 + name.length + padding) % 4 = 0)
    (lengthFits : 8 + name.length + padding < 65536) : DirRecord where
  ino := ino
  name := name
  fileType := 1
  padding := List.replicate padding 0
  inoSmall := inoSmall
  nameShort := nameShort
  aligned := by rw [length_replicate]; exact aligned
  lengthFits := by rw [length_replicate]; exact lengthFits

theorem firstNumber_small : 11 < 4294967296 := by decide

theorem firstName_short : ([97, 97] : List UInt8).length < 256 := by decide

def lastRecord : DirRecord :=
  sampleRecord 13 [99] 987 (by decide) (by decide) (by decide) (by decide)

def sampleRecords : List DirRecord :=
  [sampleRecord 11 [97, 97] 2 firstNumber_small firstName_short (by decide) (by decide),
    sampleRecord 12 [98, 98, 98, 98, 98, 98, 98, 98] 0 (by decide) (by decide) (by decide)
      (by decide),
    lastRecord]

def sampleDirVolume : Volume :=
  { sampleVolume with bytes := store sampleVolume.bytes (9 * 1024) (chain sampleRecords) }

theorem oneExtent_leaf : Leaf (oneExtent 1024 9).iBlock :=
  ⟨by decide +kernel, by decide +kernel, by decide +kernel, by decide +kernel⟩

theorem sampleDirectory {volume : Volume}
    (closed : volume.current = none) (size : volume.size = 8193 * 1024)
    (stored : load volume.bytes (9 * 1024) 1024 = chain records) :
    sample.Directory volume (oneExtent 1024 9) [some (9, records)] where
  closed := closed
  count := by
    have one : sample.dirBlocks (oneExtent 1024 9).size = 1 := by decide +kernel
    rw [one, length_singleton]
  found := by
    intro other _ logical slot isSlot
    rw [getBlock_leaf (by decide +kernel) oneExtent_leaf]
    cases logical with
    | zero =>
      cases isSlot
      have first : leafSearch (oneExtent 1024 9).iBlock 0 = some 9 := by decide +kernel
      rw [first]
      rfl
    | succ logical => cases isSlot
  distinct := nodup_singleton 9
  chains := by
    intro phys others member
    cases mem_singleton.mp member
    rw [size]
    exact ⟨by decide, stored⟩

theorem sampleDirVolume_stored :
    load sampleDirVolume.bytes (9 * 1024) 1024 = chain sampleRecords := by
  have length : (chain sampleRecords).length = 1024 := by decide +kernel
  have stored := @load_store_same _ sampleVolume.bytes (9 * 1024) (chain sampleRecords)
  rw [length] at stored
  exact stored

def secondName : List UInt8 := [98, 98, 98, 98, 98, 98, 98, 98]

/-- The second file goes, and the record of the first takes its place in. -/
theorem dirRemoveEntry_exact_second :
    ∃ next, sample.dirRemoveEntry (oneExtent 1024 9) secondName sampleDirVolume =
        (.ok (), next) ∧
      (sample.dirReadEntries (oneExtent 1024 9) next).1.toOption =
        some [⟨[97, 97], 11, 1⟩, ⟨[99], 13, 1⟩] := by
  have ok : (sample.dirRemoveEntry (oneExtent 1024 9) secondName sampleDirVolume).1.toOption =
      some () := by decide +kernel
  cases done : sample.dirRemoveEntry (oneExtent 1024 9) secondName sampleDirVolume with
  | mk answer next =>
    rw [done] at ok
    cases answer with
    | error error => cases ok
    | ok answer =>
      have others : (∀ record ∈ sampleRecords.take 1, ¬record.Named secondName) ∧
          ∀ record ∈ sampleRecords.drop 2, ¬record.Named secondName := by decide +kernel
      have removables : Removables [some (9, sampleRecords)] secondName := by
        intro phys before record after member named
        have split := Option.some.inj (congrArg (Option.map Prod.snd) (mem_singleton.mp member))
        cases before with
        | nil =>
          cases split
          exact absurd named (others.1 _ mem_cons_self)
        | cons head before =>
          cases before with
          | nil =>
            cases split
            exact .inr ⟨[], _, rfl, by decide +kernel, by decide +kernel⟩
          | cons second before =>
            refine absurd named (others.2 record ?_)
            rw [← show _ = sampleRecords from split]
            exact mem_append_right before mem_cons_self
      have present : ∃ entry ∈ [some (9, sampleRecords)].flatMap DirSlot.entries,
          entry.name = secondName := by decide +kernel
      have removal := dirRemoveEntry_exact
        (sampleDirectory rfl rfl sampleDirVolume_stored) present removables done
      have left : ([some (9, sampleRecords)].flatMap DirSlot.entries).eraseP
          (fun entry => entry.name = secondName) = [⟨[97, 97], 11, 1⟩, ⟨[99], 13, 1⟩] := by
        decide +kernel
      refine ⟨next, rfl, ?_⟩
      rw [removal.2.1, left]
      rfl

/-- The removal of the last file makes the first record swallow the second. -/
theorem dirRemoveEntry_loses_entry :
    (sample.dirReadEntries (oneExtent 1024 9) sampleDirVolume).1.toOption =
        some [⟨[97, 97], 11, 1⟩, ⟨[98, 98, 98, 98, 98, 98, 98, 98], 12, 1⟩, ⟨[99], 13, 1⟩] ∧
      (sample.dirRemoveEntry (oneExtent 1024 9) [99] sampleDirVolume).1.toOption = some () ∧
      (sample.dirReadEntries (oneExtent 1024 9)
        (sample.dirRemoveEntry (oneExtent 1024 9) [99] sampleDirVolume).2).1.toOption =
        some [⟨[97, 97], 11, 1⟩] := by
  refine ⟨by decide +kernel, by decide +kernel, by decide +kernel⟩

end Ext4Fs

end Qunix.Fs.Ext4
