import Qunix.Fs.Ext4.Volume
import Qunix.Foundation.Reachability

/-! # What an allocation writes

An allocation marks a clear bit of a bitmap, writes the descriptor of the group back
with one free block less, and writes the superblock of the mount.
-/

namespace Qunix.Fs.Ext4.Ext4Fs

open Foundation Bytes FlatArray List Procedure

open ByteBitmap (firstClear set)

variable (fs : Ext4Fs) {volume next : Volume} {group block : Nat}

/-! ## Disk access -/

theorem readBytesAt_run (volume : Volume) (offset length : Nat) :
    readBytesAt offset length volume =
      (if offset + length ≤ volume.size then .ok (load volume.bytes offset length)
        else .error .eio, volume) := rfl

variable {offset index : Nat} {error : VfsError}

variable {address length count other : Nat} {data : List UInt8} {bytes : Nat → UInt8}

theorem readBytesAt_ok :
    readBytesAt offset length volume = (.ok data, next) ↔
      offset + length ≤ volume.size ∧ data = load volume.bytes offset length ∧ next = volume := by
  rw [readBytesAt_run]
  split
  next inside =>
    rw [Prod.mk.injEq, Except.ok.injEq]
    exact ⟨fun ⟨same, kept⟩ => ⟨inside, same.symm, kept.symm⟩,
      fun ⟨_, same, kept⟩ => ⟨same.symm, kept.symm⟩⟩
  next outside =>
    refine iff_of_false ?_ fun ⟨inside, _⟩ => outside inside
    rw [Prod.mk.injEq]
    exact fun ⟨failed, _⟩ => by cases failed

theorem writeBytesAt_ok :
    writeBytesAt offset data volume = (.ok (), next) ↔
      offset + data.length ≤ volume.size ∧
        next = { volume with bytes := store volume.bytes offset data } := by
  rw [writeBytesAt]
  split
  next inside =>
    rw [Prod.mk.injEq]
    exact ⟨fun ⟨_, same⟩ => ⟨inside, same.symm⟩, fun ⟨_, same⟩ => ⟨rfl, same.symm⟩⟩
  next outside =>
    refine iff_of_false ?_ fun ⟨inside, _⟩ => outside inside
    rw [Prod.mk.injEq]
    exact fun ⟨failed, _⟩ => by cases failed

theorem readBytesAt_error (failed : readBytesAt offset length volume = (.error error, next)) :
    next = volume :=
  (Prod.mk.inj failed).2.symm

variable {fs} in
theorem readBlock_ok {phys : Nat} (inside : phys * fs.blockSize + fs.blockSize ≤ volume.size) :
    fs.readBlock phys volume =
      (.ok (load volume.bytes (phys * fs.blockSize) fs.blockSize), volume) :=
  readBytesAt_ok.mpr ⟨inside, rfl, rfl⟩

/-! ## Descriptors and bitmaps -/

def descOf (volume : Volume) (group : Nat) : List UInt8 :=
  resize 64 (load volume.bytes (fs.groupDescAt group) fs.descSize)

def bitmapBlockOf (volume : Volume) (group : Nat) : Nat :=
  splitBlock (fs.descOf volume group) 0 32

def bitmapOf (volume : Volume) (group : Nat) : List UInt8 :=
  load volume.bytes (fs.bitmapBlockOf volume group * fs.blockSize) fs.blockSize

theorem readGroupDesc_ok {desc : List UInt8} :
    fs.readGroupDesc group volume = (.ok desc, next) ↔
      fs.groupDescAt group + fs.descSize ≤ volume.size ∧ desc = fs.descOf volume group ∧
        next = volume := by
  rw [readGroupDesc, bind_ok]
  constructor
  · rintro ⟨buf, middle, read, done⟩
    rcases readBytesAt_ok.mp read with ⟨inside, rfl, rfl⟩
    cases done
    exact ⟨inside, rfl, rfl⟩
  · rintro ⟨inside, rfl, rfl⟩
    exact ⟨_, _, readBytesAt_ok.mpr ⟨inside, rfl, rfl⟩, rfl⟩

theorem groupBlockBitmap_ok {bitmapBlock : Nat} :
    fs.groupBlockBitmap group volume = (.ok bitmapBlock, next) ↔
      fs.groupDescAt group + fs.descSize ≤ volume.size ∧
        bitmapBlock = fs.bitmapBlockOf volume group ∧ next = volume := by
  rw [groupBlockBitmap, bind_ok]
  constructor
  · rintro ⟨desc, middle, read, done⟩
    rcases (readGroupDesc_ok fs).mp read with ⟨inside, rfl, rfl⟩
    cases done
    exact ⟨inside, rfl, rfl⟩
  · rintro ⟨inside, rfl, rfl⟩
    exact ⟨_, _, (readGroupDesc_ok fs).mpr ⟨inside, rfl, rfl⟩, rfl⟩

theorem readGroupDesc_error
    (failed : fs.readGroupDesc group volume = (.error error, next)) : next = volume := by
  rw [readGroupDesc, bind_error] at failed
  rcases failed with failed | ⟨buf, middle, _, done⟩
  · exact readBytesAt_error failed
  · cases done

theorem groupBlockBitmap_error
    (failed : fs.groupBlockBitmap group volume = (.error error, next)) : next = volume := by
  rw [groupBlockBitmap, bind_error] at failed
  rcases failed with failed | ⟨desc, middle, _, done⟩
  · exact fs.readGroupDesc_error failed
  · cases done

theorem descSize_bounds : 32 ≤ fs.descSize ∧ fs.descSize ≤ 64 := by
  have small := fs.smallDesc
  rw [descSize]
  split <;> omega

theorem blockSize_bounds : 1024 ≤ fs.blockSize ∧ fs.blockSize ≤ 65536 ∧ fs.blockSize % 4 = 0 := by
  have sizes : ∀ log ≤ 6, 1024 ≤ 1024 <<< log ∧ 1024 <<< log ≤ 65536 ∧ 1024 <<< log % 4 = 0 := by
    decide
  exact sizes fs.logBlockSize fs.smallBlocks

theorem groupDescOff_bound : 2048 ≤ fs.groupDescOff := by
  have offsets : ∀ log ≤ 6,
      2048 ≤ if 1024 <<< log = 1024 then 2 * (1024 <<< log) else 1024 <<< log := by
    decide
  exact offsets fs.logBlockSize fs.smallBlocks

theorem byteAt_descOf (inside : index < 64) :
    byteAt (fs.descOf volume group) index =
      if index < fs.descSize then (volume.bytes (fs.groupDescAt group + index)).toNat else 0 := by
  rw [descOf, byteAt_resize inside, byteAt, getD_eq_getElem?_getD]
  split
  next onDisk => rw [getElem?_load onDisk, Option.getD_some]
  next past =>
    rw [getElem?_eq_none (by rw [length_load]; omega)]
    rfl

theorem byteAt_descOf_congr (inside : index < 64) (same : index < fs.descSize →
      next.bytes (fs.groupDescAt group + index) = volume.bytes (fs.groupDescAt group + index)) :
    byteAt (fs.descOf next group) index = byteAt (fs.descOf volume group) index := by
  rw [byteAt_descOf fs inside, byteAt_descOf fs inside]
  split
  next onDisk => rw [same onDisk]
  next => rfl

/-! ## Allocation -/

def countedDesc (volume : Volume) (group : Nat) : List UInt8 :=
  (overwrite (fs.descOf volume group) 12
    (le16 (freeBlocksCount (fs.descOf volume group) - 1))).take fs.descSize

/-- The bit that an allocation marks, and the volume after it. -/
structure Allocated (volume : Volume) (group index : Nat) (next : Volume) : Prop where
  counted : freeBlocksCount (fs.descOf volume group) ≠ 0
  isClear : firstClear (fs.bitmapOf volume group) = some index
  writes : ∃ marked, fs.writeBlock (fs.bitmapBlockOf volume group)
      (set (fs.bitmapOf volume group) index) volume = (.ok (), marked) ∧
    next.current = marked.current ∧ next.size = marked.size ∧
    (next.bytes = store marked.bytes (fs.groupDescAt group) (fs.countedDesc volume group) ∨
      next.bytes = store (store marked.bytes (fs.groupDescAt group) (fs.countedDesc volume group))
        1024 fs.sbCopy)

theorem allocInGroup_ok {answer : Option Nat}
    (done : fs.allocInGroup group volume = (.ok answer, next)) :
    (answer = none ∧ next = volume) ∨
      ∃ index, answer = some (group * fs.blocksPerGroup + index + fs.firstDataBlock) ∧
        fs.Allocated volume group index next := by
  obtain ⟨desc, _, read, done⟩ := bind_ok.mp done
  obtain ⟨_, rfl, rfl⟩ := (readGroupDesc_ok fs).mp read
  split at done
  next =>
    cases done
    exact .inl ⟨rfl, rfl⟩
  next counted =>
    obtain ⟨bitmapBlock, _, located, done⟩ := bind_ok.mp done
    obtain ⟨_, rfl, rfl⟩ := (groupBlockBitmap_ok fs).mp located
    obtain ⟨bitmap, _, read, done⟩ := bind_ok.mp done
    obtain ⟨_, isBitmap, rfl⟩ := readBytesAt_ok.mp read
    cases isClear : firstClear bitmap with
    | none =>
      simp only [isClear] at done
      cases done
      exact .inl ⟨rfl, rfl⟩
    | some index =>
      simp only [isClear] at done
      cases isBitmap
      obtain ⟨_, marked, written, done⟩ := bind_ok.mp done
      obtain ⟨_, counter, recorded, done⟩ := bind_ok.mp done
      obtain ⟨_, last, attempted, done⟩ := bind_ok.mp done
      obtain ⟨_, rfl⟩ := writeBytesAt_ok.mp recorded
      cases done
      refine .inr ⟨index, rfl, counted, isClear, marked, written, ?_⟩
      cases attempted
      rw [writeBytesAt]
      split
      · exact ⟨rfl, rfl, .inr rfl⟩
      · exact ⟨rfl, rfl, .inl rfl⟩

/-- A group without a block to give leaves the volume alone, so the group that gives one
finds the volume as it was. -/
theorem allocInGroups_ok (groups : List Nat)
    (done : fs.allocInGroups groups volume = (.ok block, next)) :
    ∃ group ∈ groups, ∃ index, block = group * fs.blocksPerGroup + index + fs.firstDataBlock ∧
      fs.Allocated volume group index next := by
  induction groups with
  | nil => cases done
  | cons group rest induction =>
    obtain ⟨answer, middle, tried, finished⟩ := bind_ok.mp done
    rcases fs.allocInGroup_ok tried with ⟨rfl, unchanged⟩ | ⟨index, rfl, allocated⟩
    · rcases induction (unchanged ▸ finished) with ⟨other, member, found⟩
      exact ⟨other, mem_cons_of_mem group member, found⟩
    · cases finished
      exact ⟨group, mem_cons_self, index, rfl, allocated⟩

theorem allocBlock_ok (done : fs.allocBlock volume = (.ok block, next)) :
    ∃ group < fs.numGroups, ∃ index,
      block = group * fs.blocksPerGroup + index + fs.firstDataBlock ∧
        fs.Allocated volume group index next := by
  rcases fs.allocInGroups_ok _ done with ⟨group, member, found⟩
  exact ⟨group, mem_range.mp member, found⟩

/-! ## Bytes that an allocation leaves alone -/

theorem length_descOf : (fs.descOf volume group).length = 64 := length_resize 64 _

theorem length_countDesc (inside : offset + 2 ≤ 64) :
    (overwrite (fs.descOf volume group) offset (le16 count)).length = 64 := by
  rw [length_overwrite (by rw [length_descOf, length_le16]; exact inside), length_descOf]

theorem length_writtenDesc :
    ((overwrite (fs.descOf volume group) 12 (le16 count)).take fs.descSize).length =
      fs.descSize := by
  have small := fs.descSize_bounds.2
  rw [length_take, length_countDesc fs (by decide)]
  omega

theorem length_countedDesc : (fs.countedDesc volume group).length = fs.descSize :=
  fs.length_writtenDesc

theorem store_read {desc : List UInt8} (whole : desc.length = 64)
    (same : bytes address = volume.bytes address)
    (kept : ∀ index < fs.descSize, address = fs.groupDescAt group + index →
      desc[index]? = (fs.descOf volume group)[index]?) :
    store bytes (fs.groupDescAt group) (desc.take fs.descSize) address = volume.bytes address := by
  have small := fs.descSize_bounds.2
  by_cases inside : fs.groupDescAt group ≤ address ∧ address < fs.groupDescAt group + fs.descSize
  · obtain ⟨index, rfl⟩ := Nat.exists_eq_add_of_le inside.1
    have onDisk : index < fs.descSize := by omega
    rw [store, if_pos inside.1, Nat.add_sub_cancel_left, getElem?_take_of_lt onDisk,
      kept index onDisk rfl, descOf, resize, getElem?_take_of_lt (by omega),
      getElem?_append_left (by rw [length_load]; exact onDisk), getElem?_load onDisk,
      Option.getD_some]
  · rw [store_outside, same]
    rw [length_take, whole]
    omega

/-- The two bytes of the free count and the superblock. -/
def Counter (group address : Nat) : Prop :=
  address = fs.groupDescAt group + 12 ∨ address = fs.groupDescAt group + 13 ∨
    (1024 ≤ address ∧ address < 2048)

theorem groupDescAt_inj (inside : offset < fs.descSize) (otherInside : index < fs.descSize)
    (same : fs.groupDescAt other + offset = fs.groupDescAt group + index) :
    other = group ∧ offset = index := by
  rw [groupDescAt, groupDescAt] at same
  by_cases different : other = group
  · subst different
    omega
  · have apart := records_apart fs.descSize different
    omega

theorem Counter.desc (inside : offset < fs.descSize)
    (counter : fs.Counter group (fs.groupDescAt other + offset)) :
    other = group ∧ (offset = 12 ∨ offset = 13) := by
  have past := fs.groupDescOff_bound
  have large := fs.descSize_bounds.1
  rcases counter with low | high | super
  · exact (fs.groupDescAt_inj inside (by omega) low).imp_right .inl
  · exact (fs.groupDescAt_inj inside (by omega) high).imp_right .inr
  · rw [groupDescAt] at super
    omega

theorem splitBlock_congr {left right : List UInt8} {low high : Nat}
    (same : ∀ offset < 4, byteAt left (low + offset) = byteAt right (low + offset) ∧
      byteAt left (high + offset) = byteAt right (high + offset)) :
    splitBlock left low high = splitBlock right low high := by
  rw [splitBlock, splitBlock, readLe32_congr fun offset inside => (same offset inside).1,
    readLe32_congr fun offset inside => (same offset inside).2]

theorem length_sbCopy : fs.sbCopy.length = 1024 := by
  rw [sbCopy, length_overwrite (by simp [fs.wholeSb]), fs.wholeSb]

theorem store_countedDesc (notCounter : ¬fs.Counter group address)
    (same : bytes address = volume.bytes address) :
    store bytes (fs.groupDescAt group) (fs.countedDesc volume group) address =
      volume.bytes address := by
  have fits : 12 + (le16 (freeBlocksCount (fs.descOf volume group) - 1)).length ≤
      (fs.descOf volume group).length := by
    simp [length_descOf]
  apply fs.store_read (fs.length_countDesc (by decide)) same
  intro index _ place
  rw [Counter] at notCounter
  apply getElem?_overwrite_outside fits
  rw [length_le16]
  omega

theorem Allocated.bytes_eq (allocated : fs.Allocated volume group index next) {marked : Volume}
    (written : fs.writeBlock (fs.bitmapBlockOf volume group)
      (set (fs.bitmapOf volume group) index) volume = (.ok (), marked))
    (notCounter : ¬fs.Counter group address) (same : marked.bytes address = volume.bytes address) :
    next.bytes address = volume.bytes address := by
  rcases allocated.writes with ⟨other, same', _, _, stored⟩
  rw [written] at same'
  cases same'
  have counted := fs.store_countedDesc notCounter same
  rcases stored with stored | stored
  · rw [stored, counted]
  rw [stored, store_outside, counted]
  rw [Counter] at notCounter
  rw [length_sbCopy]
  omega

/-! ## Failures -/

/-- Where the bitmap can be written an allocation fails before it writes: the descriptor
that it writes back has been read from the same place. -/
theorem allocInGroup_error
    (writable : ∀ bitmap : List UInt8, bitmap.length = fs.blockSize → ∃ marked,
      fs.writeBlock (fs.bitmapBlockOf volume group) bitmap volume = (.ok (), marked) ∧
        marked.size = volume.size)
    (failed : fs.allocInGroup group volume = (.error error, next)) : next = volume := by
  rw [allocInGroup, bind_error] at failed
  rcases failed with failed | ⟨desc, _, read, failed⟩
  · exact fs.readGroupDesc_error failed
  obtain ⟨inside, rfl, rfl⟩ := (readGroupDesc_ok fs).mp read
  split at failed
  next => cases failed
  rw [bind_error] at failed
  rcases failed with failed | ⟨bitmapBlock, _, located, failed⟩
  · exact fs.groupBlockBitmap_error failed
  obtain ⟨_, rfl, rfl⟩ := (groupBlockBitmap_ok fs).mp located
  rw [bind_error] at failed
  rcases failed with failed | ⟨bitmap, _, read, failed⟩
  · exact readBytesAt_error failed
  obtain ⟨_, isBitmap, rfl⟩ := readBytesAt_ok.mp read
  cases isClear : firstClear bitmap with
  | none =>
    simp only [isClear] at failed
    cases failed
  | some index =>
    simp only [isClear] at failed
    rcases writable (set bitmap index)
      (by rw [ByteBitmap.length_set, isBitmap, length_load]) with ⟨marked, written, size⟩
    rw [bind_error, written] at failed
    rcases failed with failed | ⟨_, _, same, failed⟩
    · cases failed
    cases same
    rw [bind_error] at failed
    rcases failed with failed | ⟨_, _, recorded, failed⟩
    · exfalso
      rw [writeGroupDesc, writeBytesAt,
        if_pos (by rw [length_writtenDesc, size]; exact inside)] at failed
      cases failed
    · cases failed

theorem allocInGroups_error (groups : List Nat)
    (writable : ∀ group ∈ groups, ∀ bitmap : List UInt8, bitmap.length = fs.blockSize → ∃ marked,
      fs.writeBlock (fs.bitmapBlockOf volume group) bitmap volume = (.ok (), marked) ∧
        marked.size = volume.size)
    (failed : fs.allocInGroups groups volume = (.error error, next)) :
    next = volume := by
  induction groups with
  | nil =>
    cases failed
    rfl
  | cons group rest induction =>
    rw [allocInGroups, bind_error] at failed
    rcases failed with failed | ⟨answer, middle, tried, failed⟩
    · exact fs.allocInGroup_error (writable group mem_cons_self) failed
    rcases fs.allocInGroup_ok tried with ⟨rfl, unchanged⟩ | ⟨index, rfl, _⟩
    · exact induction (fun other member => writable other (mem_cons_of_mem _ member))
        (unchanged ▸ failed)
    · cases failed

/-! ## A volume of one group

The descriptor is in block 2, the bitmaps in 3 and 4, the inode table from 5 on. The
blocks up to 9 are used. -/

def sample : Ext4Fs where
  logBlockSize := 0
  inodesPerGroup := 16
  blocksPerGroup := 8192
  numGroups := 1
  inodeSize := 256
  has64bit := false
  sDescSize := 0
  firstDataBlock := 1
  sb := List.replicate 1024 0
  smallBlocks := by decide
  wholeSb := length_replicate
  smallDesc := by decide
  someInodes := by decide
  inodeBits := by decide
  someBlocks := by decide
  blockBits := by decide

def sampleVolume : Volume where
  bytes := fun address =>
    if address = 2048 then 3
    else if address = 2052 then 4
    else if address = 2056 then 5
    else if address = 2060 then 100
    else if address = 2062 then 10
    else if address = 3072 then 0xFF
    else if address = 3073 then 0x01
    else 0
  size := 8193 * 1024
  current := none

end Qunix.Fs.Ext4.Ext4Fs
