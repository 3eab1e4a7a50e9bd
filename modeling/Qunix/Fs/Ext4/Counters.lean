import Mathlib.Algebra.BigOperators.Group.Finset.Basic
import Qunix.Fs.Ext4.InodeAllocation

/-! # Free counts

The free counts of the group descriptors and of the superblock beside the bitmaps they
count, and what each allocation and each release does to the three.
-/

namespace Qunix.Fs.Ext4

open Foundation Bytes FlatArray List ByteBitmap Procedure

namespace Ext4Fs

open ByteBitmap (clearCount firstClear set test)

variable {fs : Ext4Fs} {layout : fs.Layout} {volume next : Volume} {group index : Nat}

/-- `bg_free_inodes_count`. -/
def freeInodesCount (desc : List UInt8) : Nat := readLe16 desc 14 + readLe16 desc 46 * 65536

def superOf (volume : Volume) : List UInt8 := load volume.bytes 1024 1024

/-- `s_free_blocks_count`. -/
def superFreeBlocks (sb : List UInt8) : Nat := readLe32 sb 12 + readLe32 sb 344 * 4294967296

/-- `s_free_inodes_count`. -/
def superFreeInodes (sb : List UInt8) : Nat := readLe32 sb 16

/-- The counts are the numbers of clear bits, and their sums. -/
structure Tallied (layout : fs.Layout) (volume : Volume) : Prop where
  blocks : ∀ group < fs.numGroups, freeBlocksCount (fs.descOf volume group) =
    clearCount (fs.bitmapOf volume group)
  inodes : ∀ group < fs.numGroups, freeInodesCount (fs.descOf volume group) =
    clearCount (layout.inodeBitmapOf volume group)
  allBlocks : superFreeBlocks (superOf volume) =
    ∑ group ∈ Finset.range fs.numGroups, freeBlocksCount (fs.descOf volume group)
  allInodes : superFreeInodes (superOf volume) =
    ∑ group ∈ Finset.range fs.numGroups, freeInodesCount (fs.descOf volume group)

/-! ## Sums in which one term changes -/

variable {count : Nat} {result : Except VfsError Nat}

theorem sum_change {left right : Nat → Nat} {more less : Nat} (inside : index < count)
    (same : ∀ other < count, other ≠ index → left other = right other)
    (here : left index + more = right index + less) :
    ∑ other ∈ Finset.range count, left other + more =
      ∑ other ∈ Finset.range count, right other + less := by
  have member := Finset.mem_range.mpr inside
  rw [← Finset.add_sum_erase _ left member, ← Finset.add_sum_erase _ right member]
  have rest : ∑ other ∈ (Finset.range count).erase index, left other =
      ∑ other ∈ (Finset.range count).erase index, right other := by
    apply Finset.sum_congr rfl
    intro other isOther
    rcases Finset.mem_erase.mp isOther with ⟨different, inRange⟩
    exact same other (Finset.mem_range.mp inRange) different
  omega

/-! ## Views that a change leaves alone -/

theorem superOf_congr (same : ∀ address, 1024 ≤ address → address < 2048 →
    next.bytes address = volume.bytes address) : superOf next = superOf volume := by
  apply load_congr
  intro offset inside
  exact same (1024 + offset) (by omega) (by omega)

theorem Changes.inodeBitmapOf_eq {Changed : Nat → Prop} (changes : fs.Changes Changed volume next)
    (inGroups : group < fs.numGroups)
    (kept : ∀ block, layout.kind block = .inodeBitmap group → ¬Changed block) :
    layout.inodeBitmapOf next group = layout.inodeBitmapOf volume group :=
  @Changes.load_block fs _ _ _ changes _ (kept _ (layout.inodeBitmaps group inGroups).1) 0
    fs.blockSize (by omega)

/-! ## Releasing a block -/

section FreeBlock

variable (formatted : Formatted layout volume) (inGroups : group < fs.numGroups)
  (inGroup : index < fs.blocksPerGroup)

include inGroups

theorem Layout.descOf_withClearBit {other : Nat} (otherInGroups : other < fs.numGroups) :
    fs.descOf (layout.withClearBit volume group index) other = fs.descOf volume other := by
  apply descOf_congr
  intro offset onDisk
  apply (layout.changes_withClearBit inGroups).bytes
  rw [layout.descs other otherInGroups offset onDisk]
  simp

theorem Layout.superOf_withClearBit :
    superOf (layout.withClearBit volume group index) = superOf volume := by
  apply superOf_congr
  intro address low high
  apply (layout.changes_withClearBit inGroups).bytes
  rw [layout.superblock address low high]
  simp

include formatted inGroup

/-- The counts stay as they are, so the bit must have been clear before. -/
theorem Tallied.withClearBit_iff (tallied : Tallied layout volume) :
    Tallied layout (layout.withClearBit volume group index) ↔
      test (fs.bitmapOf volume group) index = false := by
  have descs := fun {other} otherInGroups =>
    @Layout.descOf_withClearBit fs layout volume group index inGroups other otherInGroups
  have super := @Layout.superOf_withClearBit fs layout volume group index inGroups
  have bits := fun {other} otherInGroups =>
    @Formatted.bitmapOf_write fs volume layout formatted group inGroups _ length_clear_bitmapOf
      other otherInGroups
      (by
        exact congrArg (splitBlock · 0 32) (descs otherInGroups))
  have inodes : ∀ other < fs.numGroups,
      layout.inodeBitmapOf (layout.withClearBit volume group index) other =
        layout.inodeBitmapOf volume other := by
    intro other otherInGroups
    apply (layout.changes_withClearBit inGroups).inodeBitmapOf_eq otherInGroups
    intro block isBitmap
    rw [isBitmap]
    simp
  have place : index / 8 < (fs.bitmapOf volume group).length := by
    have bound : fs.blocksPerGroup ≤ 8 * fs.blockSize := fs.blockBits
    rw [length_bitmapOf]
    omega
  have count := clearCount_clear place
  constructor
  · intro after
    have counted := after.blocks group inGroups
    rw [descs inGroups, Layout.withClearBit, bits inGroups, if_pos rfl, count,
      tallied.blocks group inGroups] at counted
    split at counted
    next => omega
    next isClear => simpa using isClear
  · intro isClear
    rw [isClear, if_neg Bool.false_ne_true, add_zero] at count
    refine ⟨?_, ?_, ?_, ?_⟩
    · intro other otherInGroups
      rw [descs otherInGroups, Layout.withClearBit, bits otherInGroups,
        tallied.blocks other otherInGroups]
      split
      next same => rw [same, count]
      next => rfl
    · intro other otherInGroups
      rw [descs otherInGroups, inodes other otherInGroups]
      exact tallied.inodes other otherInGroups
    · rw [super, tallied.allBlocks]
      apply Finset.sum_congr rfl
      intro other member
      rw [descs (Finset.mem_range.mp member)]
    · rw [super, tallied.allInodes]
      apply Finset.sum_congr rfl
      intro other member
      rw [descs (Finset.mem_range.mp member)]

end FreeBlock

/-! ## Inodes -/

section Inodes

variable {bitmap desc : List UInt8} (inGroups : group < fs.numGroups)
  (whole : bitmap.length = fs.blockSize)

include inGroups whole

/-- The superblock does not hear of inodes. -/
theorem Layout.superOf_withInodeBits :
    superOf (layout.withInodeBits volume group bitmap desc) = superOf volume := by
  apply superOf_congr
  intro address low high
  have past := fs.groupDescOff_bound
  have written : (layout.withInodeBits volume group bitmap desc).bytes address =
      store volume.bytes (layout.inodeBitmap group * fs.blockSize) bitmap address := by
    apply store_outside
    rw [groupDescAt]
    omega
  rw [written]
  apply layout.store_inodeBitmap inGroups whole
  rw [layout.superblock address low high]
  simp

/-- A change in the number of free inodes makes the superblock wrong. -/
theorem Tallied.not_withInodeBits (tallied : Tallied layout volume)
    (changed : clearCount bitmap ≠ clearCount (layout.inodeBitmapOf volume group)) :
    ¬Tallied layout (layout.withInodeBits volume group bitmap desc) := by
  intro after
  have bits := fun {other} otherInGroups =>
    @Layout.inodeBitmapOf_withInodeBits fs layout volume group bitmap desc inGroups whole other
      otherInGroups
  have total := after.allInodes
  rw [layout.superOf_withInodeBits inGroups whole, tallied.allInodes] at total
  have same : ∀ other < fs.numGroups, other ≠ group →
      freeInodesCount (fs.descOf volume other) =
        freeInodesCount (fs.descOf (layout.withInodeBits volume group bitmap desc) other) := by
    intro other otherInGroups different
    rw [after.inodes other otherInGroups, bits otherInGroups, if_neg different,
      tallied.inodes other otherInGroups]
  have here := sum_change inGroups same (add_comm (freeInodesCount (fs.descOf volume group))
    (freeInodesCount (fs.descOf (layout.withInodeBits volume group bitmap desc) group)))
  rw [total] at here
  have counted := Nat.add_left_cancel here
  rw [after.inodes group inGroups, bits inGroups, if_pos rfl, tallied.inodes group inGroups]
    at counted
  exact changed counted

end Inodes

theorem Tallied.allocInode_iff (tallied : Tallied layout volume)
    (formatted : Formatted layout volume) {isDir : Bool}
    (run : fs.allocInode isDir volume = (result, next)) :
    Tallied layout next ↔ ∀ group < fs.numGroups, layout.NoInode volume group := by
  rw [allocInode] at run
  rcases formatted.allocInodeInGroups isDir (List.range fs.numGroups)
      (fun _ => mem_range.mp) with
    ⟨nowhere, full⟩ |
      ⟨group, inGroups, _, gives, index, inGroup, isClear, desc, wholeDesc, _, taken⟩
  · rw [full] at run
    cases run
    exact iff_of_true tallied fun group inGroups => nowhere group (mem_range.mpr inGroups)
  · rw [taken] at run
    cases run
    refine iff_of_false ?_ fun nowhere => gives (nowhere group inGroups)
    have bound : fs.inodesPerGroup ≤ 8 * fs.blockSize := fs.inodeBits
    have count := clearCount_set
      (show index / 8 < (layout.inodeBitmapOf volume group).length by
        rw [Layout.length_inodeBitmapOf]
        omega) isClear
    apply tallied.not_withInodeBits inGroups
      (by rw [ByteBitmap.length_set, Layout.length_inodeBitmapOf])
    omega

theorem Layout.freeInodesCount_withInodeBits {bitmap : List UInt8}
    (inGroups : group < fs.numGroups) (whole : bitmap.length = fs.blockSize) :
    freeInodesCount (fs.descOf (layout.withInodeBits volume group bitmap
      (overwrite (fs.descOf volume group) 14 (le16 count))) group) =
        count % 65536 + readLe16 (fs.descOf volume group) 46 * 65536 := by
  have counted := fs.inodeCount_overwrite volume group count
  have large := fs.descSize_bounds.1
  refine congrArg₂ (· + · * 65536) ?_ ?_
  · rw [← readLe16_overwrite_here count (show 14 ≤ (fs.descOf volume group).length by
      rw [length_descOf]; omega)]
    apply readLe16_congr
    intro offset small
    have onDisk : 14 + offset < fs.descSize := by
      omega
    have isWritten : 14 + offset < ((overwrite (fs.descOf volume group) 14 (le16 count)).take
        fs.descSize).length := by
      rw [length_take, counted.whole]
      omega
    rw [byteAt_descOf fs (by omega), if_pos onDisk, Layout.withInodeBits]
    dsimp only
    rw [store_inside isWritten, getElem_take, byteAt, getD_eq_getElem?_getD,
      getElem?_eq_getElem (by rw [counted.whole]; omega), Option.getD_some]
  · apply readLe16_congr
    intro offset small
    apply fs.byteAt_descOf_congr (by omega)
    intro onDisk
    apply layout.bytes_withInodeBits inGroups whole counted (by omega)
    rw [layout.descs group inGroups _ onDisk]
    simp

theorem Tallied.not_freeInode {ino : Nat} (tallied : Tallied layout volume)
    (formatted : Formatted layout volume) (inTable : fs.InTable ino)
    {result : Except VfsError Unit} (run : fs.freeInode ino volume = (result, next)) :
    ¬Tallied layout next := by
  rw [formatted.freeInode_run rfl inTable.2] at run
  cases run
  have inGroups := inTable.2
  have inGroup := Nat.mod_lt (ino - 1) fs.someInodes
  generalize (ino - 1) / fs.inodesPerGroup = group at inGroups
  generalize (ino - 1) % fs.inodesPerGroup = index at inGroup
  have bound : fs.inodesPerGroup ≤ 8 * fs.blockSize := fs.inodeBits
  have place : index / 8 < (layout.inodeBitmapOf volume group).length := by
    rw [Layout.length_inodeBitmapOf]
    omega
  have whole := (@ByteBitmap.length_clear (layout.inodeBitmapOf volume group) index).trans
    Layout.length_inodeBitmapOf
  have count := clearCount_clear place
  by_cases marked : test (layout.inodeBitmapOf volume group) index = true
  · rw [if_pos marked] at count
    apply tallied.not_withInodeBits inGroups whole
    omega
  · -- The bits stay, and the count moves.
    rw [if_neg marked] at count
    intro after
    have counted := after.inodes group inGroups
    rw [layout.freeInodesCount_withInodeBits inGroups whole,
      layout.inodeBitmapOf_withInodeBits inGroups whole inGroups, if_pos rfl, count,
      ← tallied.inodes group inGroups, freeInodesCount] at counted
    omega

/-! ## Taking a block -/

/-- The volume after a block has been taken: the bitmap, the descriptor and the superblock of
the mount are written, in this order. -/
def withTakenBlock (fs : Ext4Fs) (volume : Volume) (group index : Nat) : Volume :=
  { volume with
    bytes := store (store (store volume.bytes (fs.bitmapBlockOf volume group * fs.blockSize)
      (set (fs.bitmapOf volume group) index)) (fs.groupDescAt group)
        (fs.countedDesc volume group)) 1024 fs.sbCopy }

theorem Formatted.allocInGroup_run (formatted : Formatted layout volume)
    (inGroups : group < fs.numGroups) (counted : freeBlocksCount (fs.descOf volume group) ≠ 0)
    (isClear : firstClear (fs.bitmapOf volume group) = some index) :
    fs.allocInGroup group volume =
      (.ok (some (group * fs.blocksPerGroup + index + fs.firstDataBlock)),
        fs.withTakenBlock volume group index) := by
  have inside := (layout.bitmaps group inGroups).2
  have descInside := layout.descsInside group inGroups
  rw [← formatted.size] at inside descInside
  have past := fs.groupDescOff_bound
  rw [allocInGroup, bind_of_ok (formatted.readGroupDesc inGroups)]
  rw [if_neg counted, bind_of_ok (formatted.groupBlockBitmap inGroups)]
  rw [bind_of_ok (readBlock_ok inside)]
  have isBitmap : load volume.bytes (layout.bitmap group * fs.blockSize) fs.blockSize =
      fs.bitmapOf volume group := by
    rw [bitmapOf, formatted.bitmaps group inGroups]
  rw [isBitmap, isClear]
  dsimp only
  rw [← formatted.bitmaps group inGroups, bind_of_ok (formatted.writeBitmap inGroups
    length_set_bitmapOf)]
  rw [bind_of_ok (writeGroupDesc_run (fs.length_countDesc (by decide)) (by exact descInside))]
  rw [bind_run, Procedure.attempt, writeBytesAt, if_pos]
  · rfl
  · rw [length_sbCopy]
    rw [groupDescAt] at descInside
    change 1024 + 1024 ≤ volume.size
    omega

theorem Formatted.allocInGroup_none (formatted : Formatted layout volume)
    (inGroups : group < fs.numGroups) (counted : freeBlocksCount (fs.descOf volume group) = 0) :
    fs.allocInGroup group volume = (.ok none, volume) := by
  rw [allocInGroup, bind_of_ok (formatted.readGroupDesc inGroups)]
  rw [if_pos counted]
  rfl

def firstGroup (fs : Ext4Fs) (volume : Volume) : Option Nat :=
  (List.range fs.numGroups).find? fun group => freeBlocksCount (fs.descOf volume group) ≠ 0

/-- Where the counts are right the first group with a count has a clear bit. -/
theorem Tallied.allocInGroups (tallied : Tallied layout volume)
    (formatted : Formatted layout volume) (groups : List Nat)
    (inGroups : ∀ group ∈ groups, group < fs.numGroups) :
    match groups.find? fun group => freeBlocksCount (fs.descOf volume group) ≠ 0 with
    | none => fs.allocInGroups groups volume = (.error .enospc, volume)
    | some group => ∃ index, firstClear (fs.bitmapOf volume group) = some index ∧
        fs.allocInGroups groups volume =
          (.ok (group * fs.blocksPerGroup + index + fs.firstDataBlock),
            fs.withTakenBlock volume group index) := by
  induction groups with
  | nil => rfl
  | cons group rest induction =>
    have here := inGroups group mem_cons_self
    by_cases counted : freeBlocksCount (fs.descOf volume group) = 0
    · rw [find?_cons_of_neg (by simpa using counted), Ext4Fs.allocInGroups,
        bind_of_ok (formatted.allocInGroup_none here counted)]
      exact induction fun other member => inGroups other (mem_cons_of_mem _ member)
    rw [find?_cons_of_pos (by simpa using counted)]
    have someBit : firstClear (fs.bitmapOf volume group) ≠ none := by
      rw [Ne, ← clearCount_eq_zero, ← tallied.blocks group here]
      exact counted
    rcases Option.ne_none_iff_exists'.mp someBit with ⟨index, isClear⟩
    refine ⟨index, isClear, ?_⟩
    rw [Ext4Fs.allocInGroups, bind_of_ok (formatted.allocInGroup_run here counted isClear)]
    rfl

/-- The superblock that is written has the counts of the mount, with one block less. -/
theorem superFree_sbCopy : superFreeBlocks fs.sbCopy =
      readLe32 fs.sb 12 - 1 + readLe32 fs.sb 344 * 4294967296 ∧
    superFreeInodes fs.sbCopy = superFreeInodes fs.sb := by
  have room : 12 + (le32 (readLe32 fs.sb 12 - 1)).length ≤ fs.sb.length := by
    rw [fs.wholeSb, length_le32]
    omega
  have small := readLe32_lt fs.sb 12
  constructor
  · rw [superFreeBlocks, sbCopy, readLe32_overwrite_here _ (by rw [fs.wholeSb]; omega),
      readLe32_overwrite_outside room (by rw [length_le32]; omega), Nat.mod_eq_of_lt (by omega)]
  · rw [superFreeInodes, superFreeInodes, sbCopy,
      readLe32_overwrite_outside room (by rw [length_le32]; omega)]

section TakenBlock

variable (formatted : Formatted layout volume) (inGroups : group < fs.numGroups)
  (counted : freeBlocksCount (fs.descOf volume group) ≠ 0)
  (isClear : firstClear (fs.bitmapOf volume group) = some index)

theorem superOf_withTakenBlock : superOf (fs.withTakenBlock volume group index) = fs.sbCopy := by
  rw [superOf]
  have loaded := @load_store_same _ (store (store volume.bytes
    (fs.bitmapBlockOf volume group * fs.blockSize)
      (set (fs.bitmapOf volume group) index))
    (fs.groupDescAt group) (fs.countedDesc volume group)) 1024 fs.sbCopy
  rwa [length_sbCopy] at loaded

include formatted inGroups counted isClear

theorem Formatted.allocated_withTakenBlock :
    fs.Allocated volume group index (fs.withTakenBlock volume group index) :=
  ⟨counted, isClear, _, formatted.writeBitmap inGroups length_set_bitmapOf, rfl, rfl, .inr rfl⟩

theorem Formatted.descOf_withTakenBlock {other : Nat} (otherInGroups : other < fs.numGroups)
    (different : other ≠ group) :
    fs.descOf (fs.withTakenBlock volume group index) other = fs.descOf volume other := by
  have allocated := formatted.allocated_withTakenBlock inGroups counted isClear
  apply descOf_congr
  intro offset onDisk
  apply allocated.bytes_kept formatted inGroups fun counter =>
    different (counter.desc fs onDisk).1
  rw [layout.descs other otherInGroups offset onDisk]
  simp

theorem Formatted.freeInodesCount_withTakenBlock {other : Nat}
    (otherInGroups : other < fs.numGroups) :
    freeInodesCount (fs.descOf (fs.withTakenBlock volume group index) other) =
      freeInodesCount (fs.descOf volume other) := by
  have allocated := formatted.allocated_withTakenBlock inGroups counted isClear
  have half : ∀ place, 14 ≤ place → place < 62 →
      readLe16 (fs.descOf (fs.withTakenBlock volume group index) other) place =
        readLe16 (fs.descOf volume other) place := by
    intro place low high
    apply readLe16_congr
    intro offset small
    exact allocated.desc_eq formatted inGroups otherInGroups (by omega) (by omega)
  rw [freeInodesCount, freeInodesCount, half 14 (by omega) (by omega),
    half 46 (by omega) (by omega)]

/-- Only the low half of the count is written. -/
theorem Formatted.freeBlocksCount_withTakenBlock :
    freeBlocksCount (fs.descOf (fs.withTakenBlock volume group index) group) =
      (freeBlocksCount (fs.descOf volume group) - 1) % 65536 +
        readLe16 (fs.descOf volume group) 44 * 65536 := by
  have allocated := formatted.allocated_withTakenBlock inGroups counted isClear
  have bounds := fs.descSize_bounds
  have past := fs.groupDescOff_bound
  have high : readLe16 (fs.descOf (fs.withTakenBlock volume group index) group) 44 =
      readLe16 (fs.descOf volume group) 44 := by
    apply readLe16_congr
    intro offset small
    exact allocated.desc_eq formatted inGroups inGroups (by omega) (by omega)
  have low : readLe16 (fs.descOf (fs.withTakenBlock volume group index) group) 12 =
      (freeBlocksCount (fs.descOf volume group) - 1) % 65536 := by
    have room : 12 ≤ (fs.descOf volume group).length := by
      rw [length_descOf]
      omega
    rw [← readLe16_overwrite_here _ room]
    apply readLe16_congr
    intro offset small
    have onDisk : 12 + offset < fs.descSize := by
      omega
    have isWritten : 12 + offset < (fs.countedDesc volume group).length := by
      rw [length_countedDesc]
      exact onDisk
    rw [byteAt_descOf fs (by omega), if_pos onDisk, withTakenBlock]
    dsimp only
    rw [store_outside (by rw [length_sbCopy, groupDescAt]; omega), store_inside isWritten]
    simp only [countedDesc, getElem_take]
    rw [byteAt, getD_eq_getElem?_getD,
      getElem?_eq_getElem (by rw [fs.length_countDesc (by decide)]; omega), Option.getD_some]
  rw [freeBlocksCount, low, high]

end TakenBlock

/-- What an allocation needs to leave all counts right: the low half of the count does not
borrow, and the counts that were read at the mount are still those of the volume. -/
def CountsBlock (fs : Ext4Fs) (volume : Volume) (group : Nat) : Prop :=
  readLe16 (fs.descOf volume group) 12 ≠ 0 ∧
    readLe32 fs.sb 12 - 1 + readLe32 fs.sb 344 * 4294967296 + 1 = superFreeBlocks (superOf volume) ∧
    superFreeInodes fs.sb = superFreeInodes (superOf volume)

theorem Tallied.withTakenBlock_iff (tallied : Tallied layout volume)
    (formatted : Formatted layout volume) (inGroups : group < fs.numGroups)
    (counted : freeBlocksCount (fs.descOf volume group) ≠ 0)
    (isClear : firstClear (fs.bitmapOf volume group) = some index) :
    Tallied layout (fs.withTakenBlock volume group index) ↔ fs.CountsBlock volume group := by
  have allocated := formatted.allocated_withTakenBlock inGroups counted isClear
  have descs := fun {other} => @Formatted.descOf_withTakenBlock fs layout volume group index
    formatted inGroups counted isClear other
  have inodeCounts := fun {other} =>
    @Formatted.freeInodesCount_withTakenBlock fs layout volume group
    index formatted inGroups counted isClear other
  have bits := fun {other} (otherInGroups : other < fs.numGroups) =>
    allocated.bitmapOf_eq formatted inGroups otherInGroups
  have count := formatted.freeBlocksCount_withTakenBlock inGroups counted isClear
  have super := @superOf_withTakenBlock fs volume group index
  generalize fs.withTakenBlock volume group index = taking at *
  have inodeBits : ∀ other < fs.numGroups,
      layout.inodeBitmapOf taking other = layout.inodeBitmapOf volume other := by
    intro other otherInGroups
    apply (allocated.changes formatted inGroups).inodeBitmapOf_eq otherInGroups
    intro block isBitmap
    rw [Layout.Bookkeeping, isBitmap]
    simp
  rcases firstClear_some isClear with ⟨inside, clear⟩
  have taken := clearCount_set (by omega) clear
  rw [← tallied.blocks group inGroups] at taken
  -- The count of the group is right if nothing is borrowed from the upper half.
  have group_iff : freeBlocksCount (fs.descOf taking group) =
      clearCount (fs.bitmapOf taking group) ↔ readLe16 (fs.descOf volume group) 12 ≠ 0 := by
    have small := readLe16_lt (fs.descOf volume group) 12
    rw [count, bits inGroups, if_pos rfl]
    rw [freeBlocksCount] at taken ⊢
    omega
  have sameSum : readLe16 (fs.descOf volume group) 12 ≠ 0 →
      ∑ other ∈ Finset.range fs.numGroups, freeBlocksCount (fs.descOf taking other) + 1 =
        superFreeBlocks (superOf volume) := by
    intro noBorrow
    rw [tallied.allBlocks]
    change _ = _ + 0
    apply sum_change inGroups
    · intro other otherInGroups different
      rw [descs otherInGroups different]
    · have right := group_iff.mpr noBorrow
      rw [bits inGroups, if_pos rfl] at right
      omega
  have sumInodes : ∑ other ∈ Finset.range fs.numGroups, freeInodesCount (fs.descOf taking other) =
      superFreeInodes (superOf volume) := by
    rw [tallied.allInodes]
    apply Finset.sum_congr rfl
    intro other member
    rw [inodeCounts (Finset.mem_range.mp member)]
  rcases @superFree_sbCopy fs with ⟨mountBlocks, mountInodes⟩
  constructor
  · intro after
    have noBorrow := group_iff.mp (after.blocks group inGroups)
    have blocks := after.allBlocks
    have inodes := after.allInodes
    rw [super, mountBlocks] at blocks
    rw [super, mountInodes, sumInodes] at inodes
    refine ⟨noBorrow, ?_, inodes⟩
    rw [blocks, sameSum noBorrow]
  · rintro ⟨noBorrow, blocks, inodes⟩
    refine ⟨?_, ?_, ?_, ?_⟩
    · intro other otherInGroups
      by_cases same : other = group
      · subst same
        exact group_iff.mpr noBorrow
      · rw [descs otherInGroups same, bits otherInGroups, if_neg same]
        exact tallied.blocks other otherInGroups
    · intro other otherInGroups
      rw [inodeCounts otherInGroups, inodeBits other otherInGroups]
      exact tallied.inodes other otherInGroups
    · rw [super]
      omega
    · rw [super, mountInodes, sumInodes]
      exact inodes

theorem Tallied.allocBlock_iff (tallied : Tallied layout volume)
    (formatted : Formatted layout volume) (done : fs.allocBlock volume = (result, next)) :
    Tallied layout next ↔
      ∀ group, fs.firstGroup volume = some group → fs.CountsBlock volume group := by
  have run := tallied.allocInGroups formatted (List.range fs.numGroups)
    fun _ => mem_range.mp
  rw [allocBlock] at done
  rw [firstGroup]
  cases found : (List.range fs.numGroups).find? fun group =>
      freeBlocksCount (fs.descOf volume group) ≠ 0 with
  | none =>
    rw [found] at run
    rw [run] at done
    cases done
    exact iff_of_true tallied (by simp)
  | some group =>
    rw [found] at run
    rcases run with ⟨index, isClear, run⟩
    rw [run] at done
    cases done
    have inGroups := mem_range.mp (mem_of_find?_eq_some found)
    have counted := find?_some found
    rw [tallied.withTakenBlock_iff formatted inGroups (by simpa using counted) isClear]
    simp

end Ext4Fs

end Qunix.Fs.Ext4
