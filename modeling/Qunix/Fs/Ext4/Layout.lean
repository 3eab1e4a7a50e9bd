import Qunix.Fs.Ext4.Allocation
import Qunix.Fs.Ext4.Inode

/-! # The layout of a volume

Every block has one kind. What a call writes is described by the blocks that it changes,
so that blocks of other kinds stay as they are.
-/

namespace Qunix.Fs.Ext4

open Foundation Bytes FlatArray Nat ByteBitmap

inductive BlockKind
  | reserved
  | blockBitmap (group : Nat)
  | inodeBitmap (group : Nat)
  | inodeTable (group : Nat)
  | data
deriving DecidableEq

namespace Ext4Fs

variable (fs : Ext4Fs)

/-! ## Changed blocks -/

/-- Only blocks with a property have changed. -/
structure Changes (Changed : Nat → Prop) (volume next : Volume) : Prop where
  size : next.size = volume.size
  current : next.current = volume.current
  bytes : ∀ address, ¬Changed (address / fs.blockSize) → next.bytes address = volume.bytes address

variable {fs} {Changed Wider : Nat → Prop} {volume middle next : Volume}

theorem Changes.refl : fs.Changes Changed volume volume := ⟨rfl, rfl, fun _ _ => rfl⟩

theorem Changes.trans (first : fs.Changes Changed volume middle)
    (second : fs.Changes Changed middle next) : fs.Changes Changed volume next :=
  ⟨second.size.trans first.size, second.current.trans first.current,
    fun address kept => (second.bytes address kept).trans (first.bytes address kept)⟩

theorem Changes.mono (changes : fs.Changes Changed volume next)
    (wider : ∀ block, Changed block → Wider block) : fs.Changes Wider volume next :=
  ⟨changes.size, changes.current, fun address kept =>
    changes.bytes address fun changed => kept (wider _ changed)⟩

theorem blockSize_pos (fs : Ext4Fs) : 0 < fs.blockSize :=
  lt_of_lt_of_le (by decide) fs.blockSize_bounds.1

variable {block other offset address : Nat}

theorem block_address (fs : Ext4Fs) (inside : offset < fs.blockSize) :
    (block * fs.blockSize + offset) / fs.blockSize = block := by
  rw [mul_comm, mul_add_div fs.blockSize_pos, div_eq_of_lt inside, add_zero]

theorem Changes.load_block (changes : fs.Changes Changed volume next) {block : Nat}
    (kept : ¬Changed block) {offset count : Nat} (inside : offset + count ≤ fs.blockSize) :
    load next.bytes (block * fs.blockSize + offset) count =
      load volume.bytes (block * fs.blockSize + offset) count := by
  apply load_congr
  intro index small
  rw [add_assoc]
  apply changes.bytes
  rw [fs.block_address (by omega)]
  exact kept

theorem changes_store {block offset : Nat} {data : List UInt8}
    (inside : offset + data.length ≤ fs.blockSize) :
    fs.Changes (· = block) volume
      { volume with bytes := store volume.bytes (block * fs.blockSize + offset) data } := by
  refine ⟨rfl, rfl, ?_⟩
  intro address other
  apply store_outside
  by_cases before : address < block * fs.blockSize
  · omega
  have place := div_add_mod address fs.blockSize
  by_cases past : block * fs.blockSize + fs.blockSize ≤ address
  · omega
  · refine absurd ?_ other
    have split : address = block * fs.blockSize + (address - block * fs.blockSize) := by omega
    rw [split, fs.block_address (by omega)]

theorem writeBlock_ok (closed : volume.current = none) {data : List UInt8}
    (whole : data.length = fs.blockSize) :
    fs.writeBlock block data volume = (.ok (), next) ↔
      block * fs.blockSize + fs.blockSize ≤ volume.size ∧
        next = { volume with bytes := store volume.bytes (block * fs.blockSize) data } := by
  have direct : fs.writeBlock block data volume =
      writeBytesAt (block * fs.blockSize) data volume := by
    rw [writeBlock, closed, List.take_of_length_le (le_of_eq whole)]
  rw [direct, writeBytesAt_ok, whole]

/-! ## Layouts -/

variable (fs) in
/-- Where the metadata is, and which blocks hold data. -/
structure Layout where
  kind : Nat → BlockKind
  bitmap : Nat → Nat
  inodeBitmap : Nat → Nat
  inodeTable : Nat → Nat
  size : Nat
  sizeSmall : size ≤ Word.modulus
  groupsSmall : fs.numGroups ≤ 4294967296
  inodesSmall : fs.numGroups * fs.inodesPerGroup < 4294967296
  wholeInodes : 128 ≤ fs.inodeSize
  superblock : ∀ address, 1024 ≤ address → address < 2048 →
    kind (address / fs.blockSize) = .reserved
  descs : ∀ group < fs.numGroups, ∀ offset < fs.descSize,
    kind ((fs.groupDescAt group + offset) / fs.blockSize) = .reserved
  descsInside : ∀ group < fs.numGroups, fs.groupDescAt group + fs.descSize ≤ size
  bitmaps : ∀ group < fs.numGroups, kind (bitmap group) = .blockBitmap group ∧
    bitmap group * fs.blockSize + fs.blockSize ≤ size
  inodeBitmaps : ∀ group < fs.numGroups, kind (inodeBitmap group) = .inodeBitmap group ∧
    inodeBitmap group * fs.blockSize + fs.blockSize ≤ size
  inodeTables : ∀ group < fs.numGroups, ∀ index < fs.inodesPerGroup, ∀ offset < fs.inodeSize,
    kind ((inodeTable group * fs.blockSize + index * fs.inodeSize + offset) / fs.blockSize) =
      .inodeTable group
  tablesInside : ∀ group < fs.numGroups, ∀ index < fs.inodesPerGroup,
    inodeTable group * fs.blockSize + index * fs.inodeSize + fs.inodeSize ≤ size
  dataInside : ∀ block, kind block = .data → fs.firstDataBlock ≤ block ∧
    (block - fs.firstDataBlock) / fs.blocksPerGroup < fs.numGroups ∧
    block * fs.blockSize + fs.blockSize ≤ size ∧ block < 281474976710656

variable (fs) in
def marked (volume : Volume) (block : Nat) : Bool :=
  test (fs.bitmapOf volume ((block - fs.firstDataBlock) / fs.blocksPerGroup))
    ((block - fs.firstDataBlock) % fs.blocksPerGroup)

variable {layout : fs.Layout}

/-- The descriptors say where the metadata is, and only blocks with data are free. -/
structure Formatted (layout : fs.Layout) (volume : Volume) : Prop where
  closed : volume.current = none
  size : volume.size = layout.size
  bitmaps : ∀ group < fs.numGroups, fs.bitmapBlockOf volume group = layout.bitmap group
  inodeBitmaps : ∀ group < fs.numGroups,
    splitBlock (fs.descOf volume group) 4 36 = layout.inodeBitmap group
  inodeTables : ∀ group < fs.numGroups,
    splitBlock (fs.descOf volume group) 8 40 = layout.inodeTable group
  free : ∀ group < fs.numGroups, ∀ index < 8 * fs.blockSize,
    test (fs.bitmapOf volume group) index = false →
      index < fs.blocksPerGroup ∧
        layout.kind (group * fs.blocksPerGroup + index + fs.firstDataBlock) = .data

theorem Formatted.of_desc (formatted : Formatted layout volume) (closed : next.current = none)
    (size : next.size = volume.size)
    (kept : ∀ group < fs.numGroups, ∀ offset < 64, offset ≠ 12 ∧ offset ≠ 13 ∧ offset ≠ 14 ∧
      offset ≠ 15 ∧ offset ≠ 16 ∧ offset ≠ 17 →
        byteAt (fs.descOf next group) offset = byteAt (fs.descOf volume group) offset)
    (free : ∀ group < fs.numGroups, fs.bitmapBlockOf next group = fs.bitmapBlockOf volume group →
      ∀ index < 8 * fs.blockSize,
        test (fs.bitmapOf next group) index = false →
          index < fs.blocksPerGroup ∧
            layout.kind (group * fs.blocksPerGroup + index + fs.firstDataBlock) = .data) :
    Formatted layout next := by
  have fields : ∀ group < fs.numGroups, ∀ low ≤ 8,
      splitBlock (fs.descOf next group) low (32 + low) =
        splitBlock (fs.descOf volume group) low (32 + low) := by
    intro group inGroups low small
    apply splitBlock_congr
    intro offset inside
    exact ⟨kept group inGroups (low + offset) (by omega) (by omega),
      kept group inGroups (32 + low + offset) (by omega) (by omega)⟩
  refine ⟨closed, size.trans formatted.size, ?_, ?_, ?_, ?_⟩
  · intro group inGroups
    rw [← formatted.bitmaps group inGroups]
    exact fields group inGroups 0 (by omega)
  · intro group inGroups
    rw [← formatted.inodeBitmaps group inGroups]
    exact fields group inGroups 4 (by omega)
  · intro group inGroups
    rw [← formatted.inodeTables group inGroups]
    exact fields group inGroups 8 (by omega)
  · intro group inGroups
    exact free group inGroups (fields group inGroups 0 (by omega))

theorem Changes.bitmapOf_eq (changes : fs.Changes Changed volume next) {group : Nat}
    (same : fs.bitmapBlockOf next group = fs.bitmapBlockOf volume group)
    (kept : ¬Changed (fs.bitmapBlockOf volume group)) :
    fs.bitmapOf next group = fs.bitmapOf volume group := by
  rw [bitmapOf, same]
  exact @Changes.load_block fs Changed volume next changes _ kept 0 fs.blockSize (by omega)

theorem Formatted.of_desc_changes (formatted : Formatted layout volume)
    (changes : fs.Changes Changed volume next)
    (apart : ∀ block, Changed block → ∀ group, layout.kind block ≠ .blockBitmap group)
    (kept : ∀ group < fs.numGroups, ∀ offset < 64, offset ≠ 12 ∧ offset ≠ 13 ∧ offset ≠ 14 ∧
      offset ≠ 15 ∧ offset ≠ 16 ∧ offset ≠ 17 → offset < fs.descSize →
        next.bytes (fs.groupDescAt group + offset) = volume.bytes (fs.groupDescAt group + offset)) :
    Formatted layout next ∧
      ∀ group < fs.numGroups, fs.bitmapOf next group = fs.bitmapOf volume group := by
  have bitmap : ∀ group < fs.numGroups,
      fs.bitmapBlockOf next group = fs.bitmapBlockOf volume group →
        fs.bitmapOf next group = fs.bitmapOf volume group := by
    intro group inGroups same
    apply changes.bitmapOf_eq same
    intro changed
    rw [formatted.bitmaps group inGroups] at changed
    exact apart _ changed group (layout.bitmaps group inGroups).1
  have stays : Formatted layout next := by
    refine formatted.of_desc (changes.current.trans formatted.closed) changes.size
      (fun group inGroups offset inside fields =>
        fs.byteAt_descOf_congr inside (kept group inGroups offset inside fields)) ?_
    intro group inGroups same
    rw [bitmap group inGroups same]
    exact formatted.free group inGroups
  refine ⟨stays, ?_⟩
  intro group inGroups
  apply bitmap group inGroups
  rw [stays.bitmaps group inGroups, formatted.bitmaps group inGroups]

theorem Formatted.of_changes (formatted : Formatted layout volume)
    (changes : fs.Changes Changed volume next) (apart : ∀ block, Changed block →
      layout.kind block ≠ .reserved ∧ ∀ group, layout.kind block ≠ .blockBitmap group) :
    Formatted layout next ∧
      ∀ group < fs.numGroups, fs.bitmapOf next group = fs.bitmapOf volume group := by
  apply formatted.of_desc_changes changes fun block changed => (apart block changed).2
  intro group inGroups offset _ _ onDisk
  apply changes.bytes
  exact fun changed => (apart _ changed).1 (layout.descs group inGroups offset onDisk)

theorem Layout.store_desc (layout : fs.Layout) {bytes : Nat → UInt8} {desc : List UInt8}
    {group address : Nat} (inGroups : group < fs.numGroups) (short : desc.length ≤ fs.descSize)
    (notReserved : layout.kind (address / fs.blockSize) ≠ .reserved) :
    store bytes (fs.groupDescAt group) desc address = bytes address := by
  apply store_outside
  by_contra touching
  have place : address = fs.groupDescAt group + (address - fs.groupDescAt group) := by
    omega
  rw [place] at notReserved
  exact notReserved (layout.descs group inGroups _ (by omega))

/-! ## Allocating a block -/

/-- The metadata that an allocation in a group changes. -/
def Layout.Bookkeeping (layout : fs.Layout) (group block : Nat) : Prop :=
  layout.kind block = .reserved ∨ layout.kind block = .blockBitmap group

theorem Counter.reserved {group : Nat} (inGroups : group < fs.numGroups)
    (counter : fs.Counter group address) : layout.kind (address / fs.blockSize) = .reserved := by
  have large := fs.descSize_bounds.1
  rcases counter with same | same | super
  · rw [same]
    exact layout.descs group inGroups 12 (by omega)
  · rw [same]
    exact layout.descs group inGroups 13 (by omega)
  · exact layout.superblock address super.1 super.2

theorem length_bitmapOf {group : Nat} : (fs.bitmapOf volume group).length = fs.blockSize := by
  rw [bitmapOf, length_load]

theorem length_set_bitmapOf {group index : Nat} :
    (set (fs.bitmapOf volume group) index).length = fs.blockSize := by
  rw [length_set, length_bitmapOf]

theorem length_clear_bitmapOf {group index : Nat} :
    (clear (fs.bitmapOf volume group) index).length = fs.blockSize := by
  rw [length_clear, length_bitmapOf]

theorem Formatted.writeBitmap (formatted : Formatted layout volume) {group : Nat}
    (inGroups : group < fs.numGroups) {bitmap : List UInt8} (whole : bitmap.length = fs.blockSize) :
    fs.writeBlock (fs.bitmapBlockOf volume group) bitmap volume = (.ok (), { volume with
      bytes := store volume.bytes (fs.bitmapBlockOf volume group * fs.blockSize) bitmap }) := by
  refine (writeBlock_ok formatted.closed whole).mpr ⟨?_, rfl⟩
  rw [formatted.bitmaps group inGroups, formatted.size]
  exact (layout.bitmaps group inGroups).2

section Allocated

variable {group index : Nat} (formatted : Formatted layout volume)
  (inGroups : group < fs.numGroups) (allocated : fs.Allocated volume group index next)

include formatted inGroups allocated

theorem Allocated.bytes_kept (notCounter : ¬fs.Counter group address)
    (notBitmap : layout.kind (address / fs.blockSize) ≠ .blockBitmap group) :
    next.bytes address = volume.bytes address := by
  apply allocated.bytes_eq fs (formatted.writeBitmap inGroups length_set_bitmapOf) notCounter
  apply (@changes_store fs volume (fs.bitmapBlockOf volume group) 0 _
    (by rw [length_set_bitmapOf]; omega)).bytes
  intro same
  rw [same, formatted.bitmaps group inGroups] at notBitmap
  exact notBitmap (layout.bitmaps group inGroups).1

theorem Allocated.changes : fs.Changes (layout.Bookkeeping group) volume next := by
  rcases allocated.writes with ⟨marked, written, current, size, _⟩
  rw [formatted.writeBitmap inGroups length_set_bitmapOf] at written
  cases written
  refine ⟨size, current, ?_⟩
  intro address kept
  apply allocated.bytes_kept formatted inGroups
  · exact fun counter => kept (.inl (Counter.reserved inGroups counter))
  · exact fun bitmap => kept (.inr bitmap)

theorem Allocated.bitmapOf_group
    (same : fs.bitmapBlockOf next group = fs.bitmapBlockOf volume group) :
    fs.bitmapOf next group = set (fs.bitmapOf volume group) index := by
  rcases allocated.writes with ⟨marked, written, _, _, stored⟩
  rw [formatted.writeBitmap inGroups length_set_bitmapOf] at written
  obtain ⟨_, rfl⟩ := Prod.mk.inj written
  have loaded := @load_store_same _ volume.bytes (fs.bitmapBlockOf volume group * fs.blockSize)
    (set (fs.bitmapOf volume group) index)
  rw [length_set_bitmapOf] at loaded
  generalize store volume.bytes (fs.bitmapBlockOf volume group * fs.blockSize)
    (set (fs.bitmapOf volume group) index) = bytes at stored loaded
  have kept : ∀ offset < fs.blockSize,
      next.bytes (fs.bitmapBlockOf volume group * fs.blockSize + offset) =
        bytes (fs.bitmapBlockOf volume group * fs.blockSize + offset) := by
    intro offset inside
    have notReserved : layout.kind ((fs.bitmapBlockOf volume group * fs.blockSize + offset) /
        fs.blockSize) ≠ .reserved := by
      rw [fs.block_address inside, formatted.bitmaps group inGroups,
        (layout.bitmaps group inGroups).1]
      simp
    have pastDesc := fun bytes => @Layout.store_desc fs layout bytes (fs.countedDesc volume group)
      group _ inGroups (by rw [length_countedDesc]) notReserved
    rcases stored with stored | stored
    · rw [stored, pastDesc]
    rw [stored, store_outside, pastDesc]
    rw [length_sbCopy]
    by_contra touching
    exact notReserved (layout.superblock _ (by omega) (by omega))
  rw [bitmapOf, same, load_congr kept, loaded]

theorem Allocated.desc_eq (otherInGroups : other < fs.numGroups) (inside : offset < 64)
    (notCount : offset ≠ 12 ∧ offset ≠ 13) :
    byteAt (fs.descOf next other) offset = byteAt (fs.descOf volume other) offset := by
  apply fs.byteAt_descOf_congr inside
  intro onDisk
  apply allocated.bytes_kept formatted inGroups
  · intro counter
    have count := counter.desc fs onDisk
    omega
  · rw [layout.descs other otherInGroups offset onDisk]
    simp

theorem Allocated.bitmapOf_eq (otherInGroups : other < fs.numGroups) :
    fs.bitmapOf next other = if other = group then set (fs.bitmapOf volume group) index
      else fs.bitmapOf volume other := by
  have place : fs.bitmapBlockOf next other = fs.bitmapBlockOf volume other := by
    apply splitBlock_congr
    intro offset small
    exact ⟨allocated.desc_eq formatted inGroups otherInGroups (by omega) (by omega),
      allocated.desc_eq formatted inGroups otherInGroups (by omega) (by omega)⟩
  split
  next same =>
    subst same
    exact allocated.bitmapOf_group formatted inGroups place
  next different =>
    apply (allocated.changes formatted inGroups).bitmapOf_eq place
    rw [formatted.bitmaps other otherInGroups, Layout.Bookkeeping,
      (layout.bitmaps other otherInGroups).1]
    rintro (reserved | isBitmap)
    · cases reserved
    · exact different (BlockKind.blockBitmap.inj isBitmap)

theorem Allocated.test_bitmapOf {other bit : Nat} (otherInGroups : other < fs.numGroups)
    (inside : index < 8 * fs.blockSize) :
    test (fs.bitmapOf next other) bit =
      (decide (other = group ∧ bit = index) || test (fs.bitmapOf volume other) bit) := by
  rw [allocated.bitmapOf_eq formatted inGroups otherInGroups]
  split
  next same =>
    rw [test_set (by rw [length_bitmapOf]; omega), same]
    simp only [true_and]
  next different => simp only [different, false_and, decide_false, Bool.false_or]

end Allocated

theorem marked_index {volume : Volume} {group index : Nat} (inside : index < fs.blocksPerGroup) :
    fs.marked volume (group * fs.blocksPerGroup + index + fs.firstDataBlock) =
      test (fs.bitmapOf volume group) index := by
  rw [marked, Nat.add_sub_cancel, mul_comm, mul_add_div fs.someBlocks,
    div_eq_of_lt inside, mul_add_mod, mod_eq_of_lt inside, add_zero]

theorem block_inj {group index bit : Nat} (bitInGroup : bit < fs.blocksPerGroup)
    (inGroup : index < fs.blocksPerGroup) :
    other * fs.blocksPerGroup + bit + fs.firstDataBlock =
      group * fs.blocksPerGroup + index + fs.firstDataBlock ↔ other = group ∧ bit = index := by
  constructor
  · intro same
    have sum := Nat.add_right_cancel same
    have first := congrArg (· / fs.blocksPerGroup) sum
    have second := congrArg (· % fs.blocksPerGroup) sum
    simp only [mul_comm _ fs.blocksPerGroup, mul_add_div fs.someBlocks,
      div_eq_of_lt inGroup, div_eq_of_lt bitInGroup, mul_add_mod,
      mod_eq_of_lt inGroup, mod_eq_of_lt bitInGroup, add_zero] at first second
    exact ⟨first, second⟩
  · rintro ⟨rfl, rfl⟩
    rfl

theorem Layout.data_index (layout : fs.Layout) (isData : layout.kind block = .data) :
    ∃ group < fs.numGroups, ∃ index < fs.blocksPerGroup,
      block = group * fs.blocksPerGroup + index + fs.firstDataBlock := by
  rcases layout.dataInside block isData with ⟨past, inGroups, _⟩
  have place := div_add_mod (block - fs.firstDataBlock) fs.blocksPerGroup
  refine ⟨_, inGroups, _, mod_lt (block - fs.firstDataBlock) fs.someBlocks, ?_⟩
  rw [mul_comm, place, Nat.sub_add_cancel past]

def Layout.withClearBit (layout : fs.Layout) (volume : Volume) (group index : Nat) : Volume :=
  { volume with
    bytes := store volume.bytes (layout.bitmap group * fs.blockSize)
      (clear (fs.bitmapOf volume group) index) }

theorem Layout.changes_withClearBit {group index : Nat} (inGroups : group < fs.numGroups) :
    fs.Changes (fun block => layout.kind block = .blockBitmap group) volume
      (layout.withClearBit volume group index) := by
  apply (@changes_store fs volume (layout.bitmap group) 0 (clear (fs.bitmapOf volume group) index)
    (by rw [length_clear_bitmapOf]; omega)).mono
  rintro block rfl
  exact (layout.bitmaps group inGroups).1

section

variable (formatted : Formatted layout volume)

include formatted

variable {group phys : Nat}

theorem Formatted.allocBlock (done : fs.allocBlock volume = (.ok phys, next)) :
    Formatted layout next ∧ layout.kind phys = .data ∧ fs.marked volume phys = false ∧
      (∀ block, layout.kind block = .data →
        fs.marked next block = (decide (block = phys) || fs.marked volume block)) ∧
      ∃ group, fs.Changes (layout.Bookkeeping group) volume next := by
  rcases fs.allocBlock_ok done with ⟨group, inGroups, index, rfl, allocated⟩
  rcases firstClear_some allocated.isClear with ⟨inside, isClear⟩
  rw [length_bitmapOf] at inside
  rcases formatted.free group inGroups index inside isClear with ⟨inGroup, isData⟩
  have bits := fun {other bit} otherInGroups =>
    @Allocated.test_bitmapOf fs volume next layout group index formatted inGroups allocated other
      bit
      otherInGroups inside
  have changes := allocated.changes formatted inGroups
  refine ⟨?_, isData, by rw [marked_index inGroup, isClear], ?_, group, changes⟩
  · refine formatted.of_desc (changes.current.trans formatted.closed) changes.size ?_ ?_
    · intro other otherInGroups offset small fields
      exact allocated.desc_eq formatted inGroups otherInGroups small ⟨fields.1, fields.2.1⟩
    · intro other otherInGroups _ bit small clear
      rw [bits otherInGroups, Bool.or_eq_false_iff] at clear
      exact formatted.free other otherInGroups bit small clear.2
  · intro block blockIsData
    rcases layout.data_index blockIsData with ⟨other, otherInGroups, bit, bitInGroup, rfl⟩
    rw [marked_index bitInGroup, marked_index bitInGroup, bits otherInGroups]
    simp only [block_inj bitInGroup inGroup]

theorem Formatted.allocBlock_error {error : VfsError}
    (failed : fs.allocBlock volume = (.error error, next)) : next = volume := by
  refine fs.allocInGroups_error _ ?_ failed
  intro group member bitmap whole
  exact ⟨_, formatted.writeBitmap (List.mem_range.mp member) whole, rfl⟩

/-! ## Freeing a block -/

theorem Formatted.groupBlockBitmap (inGroups : group < fs.numGroups) :
    fs.groupBlockBitmap group volume = (.ok (layout.bitmap group), volume) := by
  refine (groupBlockBitmap_ok fs).mpr ⟨?_, (formatted.bitmaps group inGroups).symm, rfl⟩
  rw [formatted.size]
  exact layout.descsInside group inGroups

theorem Formatted.bitmapOf_write {group : Nat}
    (inGroups : group < fs.numGroups) {bitmap : List UInt8} (whole : bitmap.length = fs.blockSize)
    {other : Nat} (otherInGroups : other < fs.numGroups) (same : fs.bitmapBlockOf { volume with
      bytes := store volume.bytes (layout.bitmap group * fs.blockSize) bitmap } other =
        fs.bitmapBlockOf volume other) :
    fs.bitmapOf { volume with
        bytes := store volume.bytes (layout.bitmap group * fs.blockSize) bitmap } other =
      if other = group then bitmap else fs.bitmapOf volume other := by
  split
  next here =>
    have loaded := @load_store_same _ volume.bytes (layout.bitmap group * fs.blockSize) bitmap
    rw [whole] at loaded
    rw [bitmapOf, same, here, formatted.bitmaps group inGroups]
    exact loaded
  next elsewhere =>
    apply (@changes_store fs volume (layout.bitmap group) 0 bitmap (by omega)).bitmapOf_eq same
    rw [formatted.bitmaps other otherInGroups]
    intro meet
    have kinds := (layout.bitmaps other otherInGroups).1
    rw [meet, (layout.bitmaps group inGroups).1] at kinds
    cases kinds
    exact elsewhere rfl

theorem Formatted.freeBlock_run {index : Nat} (inGroups : group < fs.numGroups)
    (inGroup : index < fs.blocksPerGroup)
    (isBlock : block = group * fs.blocksPerGroup + index + fs.firstDataBlock)
    (small : block < Word.modulus) :
    fs.freeBlock block volume = (.ok (), layout.withClearBit volume group index) := by
  have place : Word.sub block fs.firstDataBlock = group * fs.blocksPerGroup + index := by
    rw [Word.sub_eq (by omega) small, isBlock, Nat.add_sub_cancel]
  have inside := (layout.bitmaps group inGroups).2
  rw [← formatted.size] at inside
  have groups := layout.groupsSmall
  rw [Ext4Fs.freeBlock, place, mul_comm group, mul_add_div fs.someBlocks,
    div_eq_of_lt inGroup, add_zero, mod_eq_of_lt (by omega), mul_add_mod,
    mod_eq_of_lt inGroup, Procedure.bind_of_ok (formatted.groupBlockBitmap inGroups)]
  rw [Procedure.bind_of_ok (readBlock_ok inside)]
  rw [Layout.withClearBit, ← formatted.bitmaps group inGroups]
  exact formatted.writeBitmap inGroups length_clear_bitmapOf

theorem Formatted.freeBlock (isData : layout.kind phys = .data) :
    ∃ next group, fs.freeBlock phys volume = (.ok (), next) ∧ Formatted layout next ∧
      (∀ block, layout.kind block = .data →
        fs.marked next block = (decide (block ≠ phys) && fs.marked volume block)) ∧
      fs.Changes (layout.Bookkeeping group) volume next := by
  rcases layout.data_index isData with ⟨group, inGroups, index, inGroup, isPhys⟩
  have data := layout.dataInside phys isData
  have bits : index < 8 * fs.blockSize := lt_of_lt_of_le inGroup fs.blockBits
  have small : phys < Word.modulus := by
    have bound := layout.sizeSmall
    have scaled := Nat.le_mul_of_pos_right phys fs.blockSize_pos
    omega
  have written := formatted.freeBlock_run inGroups inGroup isPhys small
  have changes := @Layout.changes_withClearBit fs volume layout group index inGroups
  have desc : ∀ other < fs.numGroups, ∀ offset < 64,
      byteAt (fs.descOf (layout.withClearBit volume group index) other) offset =
        byteAt (fs.descOf volume other) offset := by
    intro other otherInGroups offset small
    apply fs.byteAt_descOf_congr small
    intro onDisk
    apply changes.bytes
    rw [layout.descs other otherInGroups offset onDisk]
    simp
  have cleared := fun {other} otherInGroups =>
    @Formatted.bitmapOf_write fs volume layout formatted group inGroups _ length_clear_bitmapOf
      other otherInGroups (splitBlock_congr fun offset small =>
        ⟨desc other otherInGroups _ (by omega),
        desc other otherInGroups _ (by omega)⟩)
  refine ⟨_, group, written, ?_, ?_, changes.mono fun block isBitmap => .inr isBitmap⟩
  · refine formatted.of_desc (changes.current.trans formatted.closed) changes.size
      (fun other otherInGroups offset small _ => desc other otherInGroups offset small) ?_
    intro other otherInGroups _ bit small isClear
    rw [Layout.withClearBit, cleared otherInGroups] at isClear
    split at isClear
    next same =>
      subst same
      rw [test_clear (by rw [length_bitmapOf]; omega)] at isClear
      by_cases here : bit = index
      · subst here
        rw [← isPhys]
        exact ⟨inGroup, isData⟩
      · simp only [ne_eq, here, not_false_eq_true, decide_true, Bool.true_and] at isClear
        exact formatted.free other otherInGroups bit small isClear
    next => exact formatted.free other otherInGroups bit small isClear
  · intro block blockIsData
    rcases layout.data_index blockIsData with ⟨other, otherInGroups, bit, bitInGroup, rfl⟩
    rw [marked_index bitInGroup, marked_index bitInGroup, Layout.withClearBit,
      cleared otherInGroups, isPhys]
    simp only [ne_eq, block_inj bitInGroup inGroup]
    split
    next same =>
      subst same
      rw [test_clear (by rw [length_bitmapOf]; omega)]
      simp only [ne_eq, true_and]
    next different =>
      simp only [different, false_and, not_false_eq_true, decide_true, Bool.true_and]

end

/-! ## The layout of the volume of one group -/

def sampleKind (block : Nat) : BlockKind :=
  if block < 3 then .reserved
  else if block = 3 then .blockBitmap 0
  else if block = 4 then .inodeBitmap 0
  else if block < 9 then .inodeTable 0
  else if block ≤ 8192 then .data
  else .reserved

theorem sampleKind_data : sampleKind block = .data ↔ 9 ≤ block ∧ block ≤ 8192 := by
  rw [sampleKind]
  constructor
  · intro isData
    split_ifs at isData
    omega
  · rintro ⟨low, high⟩
    rw [if_neg (by omega), if_neg (by omega), if_neg (by omega), if_neg (by omega), if_pos high]

theorem sample_groups {Holds : Nat → Prop} (first : Holds 0) :
    ∀ group < sample.numGroups, Holds group := by
  intro group inGroups
  rw [Nat.lt_one_iff.mp inGroups]
  exact first

def sampleLayout : sample.Layout where
  kind := sampleKind
  bitmap := fun _ => 3
  inodeBitmap := fun _ => 4
  inodeTable := fun _ => 5
  size := 8193 * 1024
  sizeSmall := by decide
  groupsSmall := by decide
  inodesSmall := by decide
  wholeInodes := by decide
  superblock := by
    intro address low high
    have place : address / sample.blockSize = 1 := by
      change address / 1024 = 1
      omega
    rw [place]
    rfl
  descs := by
    apply sample_groups
    intro offset inside
    have small : offset < 32 := inside
    have place : (sample.groupDescAt 0 + offset) / sample.blockSize = 2 := by
      change (2048 + 0 * 32 + offset) / 1024 = 2
      omega
    rw [place]
    rfl
  descsInside := by decide
  bitmaps := by
    apply sample_groups
    decide
  inodeBitmaps := by
    apply sample_groups
    decide
  inodeTables := by
    apply sample_groups
    intro index inTable offset inside
    have small : index < 16 := inTable
    have short : offset < 256 := inside
    have low :
        5 ≤ (5 * sample.blockSize + index * sample.inodeSize + offset) / sample.blockSize := by
      change 5 ≤ (5 * 1024 + index * 256 + offset) / 1024
      omega
    have high :
        (5 * sample.blockSize + index * sample.inodeSize + offset) / sample.blockSize < 9 := by
      change (5 * 1024 + index * 256 + offset) / 1024 < 9
      omega
    rw [sampleKind, if_neg (by omega), if_neg (by omega), if_neg (by omega), if_pos high]
  tablesInside := by
    intro group inGroups index inTable
    have small : index < 16 := inTable
    change 5 * 1024 + index * 256 + 256 ≤ 8193 * 1024
    omega
  dataInside := by
    intro block isData
    rcases sampleKind_data.mp isData with ⟨low, high⟩
    refine ⟨?_, ?_, ?_, ?_⟩
    · change 1 ≤ block
      omega
    · change (block - 1) / 8192 < 1
      omega
    · change block * 1024 + 1024 ≤ 8193 * 1024
      omega
    · omega

section SampleMetadata

variable {volume : Volume}
  (same : ∀ address < 4096, volume.bytes address = sampleVolume.bytes address)

include same

theorem sampleDesc : sample.descOf volume 0 = sample.descOf sampleVolume 0 := by
  rw [descOf, descOf, load_congr]
  intro index inside
  apply same
  have small : index < 32 := inside
  change 2048 + 0 * 32 + index < 4096
  omega

theorem sampleBitmap : sample.bitmapOf volume 0 = sample.bitmapOf sampleVolume 0 := by
  rw [bitmapOf, bitmapOf, bitmapBlockOf, sampleDesc same, load_congr]
  intro index inside
  apply same
  have small : index < 1024 := inside
  have block : splitBlock (sample.descOf sampleVolume 0) 0 32 = 3 := by decide +kernel
  rw [block]
  change 3 * 1024 + index < 4096
  omega

theorem sampleFormatted (closed : volume.current = none) (size : volume.size = 8193 * 1024) :
    Formatted sampleLayout volume := by
  have desc := sampleDesc same
  have bitmap := sampleBitmap same
  refine ⟨closed, size, ?_, ?_, ?_, ?_⟩
  · apply sample_groups
    rw [bitmapBlockOf, desc]
    decide +kernel
  · apply sample_groups
    rw [desc]
    decide +kernel
  · apply sample_groups
    rw [desc]
    decide +kernel
  · apply sample_groups
    intro index inside isClear
    rw [bitmap] at isClear
    have used : ∀ index < 9,
        test (sample.bitmapOf sampleVolume 0) index = true := by decide +kernel
    have small : index < 8192 := inside
    by_cases low : index < 9
    · rw [used index low] at isClear
      cases isClear
    · refine ⟨small, sampleKind_data.mpr ?_⟩
      change 9 ≤ 0 * 8192 + index + 1 ∧ 0 * 8192 + index + 1 ≤ 8192
      omega

end SampleMetadata

end Ext4Fs

end Qunix.Fs.Ext4
