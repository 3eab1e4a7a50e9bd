import Qunix.Fs.Ext4.BlockMap

/-! # Allocating and freeing inodes

An inode is live when its bit is set. The bits are in a block of their own, and the
count of free inodes is in the descriptor of the group.
-/

namespace Qunix.Fs.Ext4.Ext4Fs

open Foundation Bytes FlatArray List Nat

open Procedure

variable {fs : Ext4Fs} {layout : fs.Layout} {volume next : Volume} {group ino : Nat}

def Layout.inodeBitmapOf (layout : fs.Layout) (volume : Volume) (group : Nat) : List UInt8 :=
  load volume.bytes (layout.inodeBitmap group * fs.blockSize) fs.blockSize

def Layout.Live (layout : fs.Layout) (volume : Volume) (ino : Nat) : Prop :=
  fs.InTable ino ∧ ByteBitmap.test
    (layout.inodeBitmapOf volume ((ino - 1) / fs.inodesPerGroup))
      ((ino - 1) % fs.inodesPerGroup) = true

instance (layout : fs.Layout) (volume : Volume) (ino : Nat) : Decidable (layout.Live volume ino) :=
  inferInstanceAs (Decidable (_ ∧ _))

/-! ## The count of free inodes -/

variable (fs) in
/-- A descriptor that differs in the count of free inodes. -/
structure InodeCount (volume : Volume) (group : Nat) (desc : List UInt8) : Prop where
  whole : desc.length = 64
  same : ∀ index < 64, index ≠ 14 ∧ index ≠ 15 → desc[index]? = (fs.descOf volume group)[index]?

theorem inodeCount_overwrite (volume : Volume) (group count : Nat) :
    fs.InodeCount volume group (overwrite (fs.descOf volume group) 14 (le16 count)) := by
  have fits : 14 + (le16 count).length ≤ (fs.descOf volume group).length := by
    rw [length_le16, length_descOf]
    decide
  refine ⟨fs.length_countDesc (by decide), ?_⟩
  intro index _ other
  apply getElem?_overwrite_outside fits
  rw [length_le16]
  omega

theorem InodeCount.store_eq {desc : List UInt8} (counted : fs.InodeCount volume group desc)
    {bytes : Nat → UInt8} {address : Nat}
    (notCount : address ≠ fs.groupDescAt group + 14 ∧ address ≠ fs.groupDescAt group + 15)
    (same : bytes address = volume.bytes address) :
    store bytes (fs.groupDescAt group) (desc.take fs.descSize) address = volume.bytes address := by
  have small := fs.descSize_bounds.2
  apply fs.store_read counted.whole same
  intro index onDisk place
  exact counted.same index (by omega) (by omega)

/-- The volume with a bitmap of inodes and a descriptor written. -/
def Layout.withInodeBits (layout : fs.Layout) (volume : Volume) (group : Nat)
    (bitmap desc : List UInt8) : Volume :=
  { volume with
    bytes := store (store volume.bytes (layout.inodeBitmap group * fs.blockSize) bitmap)
      (fs.groupDescAt group) (desc.take fs.descSize) }

theorem descOf_congr (same : ∀ offset < fs.descSize,
    next.bytes (fs.groupDescAt group + offset) = volume.bytes (fs.groupDescAt group + offset)) :
    fs.descOf next group = fs.descOf volume group := by
  rw [descOf, descOf, load_congr same]

theorem Layout.store_inodeBitmap {bitmap : List UInt8} {address : Nat}
    (inGroups : group < fs.numGroups) (whole : bitmap.length = fs.blockSize)
    (other : layout.kind (address / fs.blockSize) ≠ .inodeBitmap group) :
    store volume.bytes (layout.inodeBitmap group * fs.blockSize) bitmap address =
      volume.bytes address := by
  apply (@changes_store fs volume (layout.inodeBitmap group) 0 bitmap (by omega)).bytes
  intro same
  rw [same] at other
  exact other (layout.inodeBitmaps group inGroups).1

theorem Layout.changes_withInodeBits (layout : fs.Layout) (volume : Volume)
    {bitmap desc : List UInt8} (inGroups : group < fs.numGroups)
    (whole : bitmap.length = fs.blockSize) :
    fs.Changes (fun block => layout.kind block = .reserved ∨
      layout.kind block = .inodeBitmap group) volume
      (layout.withInodeBits volume group bitmap desc) := by
  refine ⟨rfl, rfl, ?_⟩
  intro address kept
  exact (layout.store_desc inGroups (length_take_le _ _) (kept <| .inl ·)).trans
    (layout.store_inodeBitmap inGroups whole (kept <| .inr ·))

section Bits

variable {bitmap desc : List UInt8} (inGroups : group < fs.numGroups)
  (whole : bitmap.length = fs.blockSize) (counted : fs.InodeCount volume group desc)

include inGroups whole counted

theorem Layout.bytes_withInodeBits {address : Nat}
    (notCount : address ≠ fs.groupDescAt group + 14 ∧ address ≠ fs.groupDescAt group + 15)
    (notBitmap : layout.kind (address / fs.blockSize) ≠ .inodeBitmap group) :
    (layout.withInodeBits volume group bitmap desc).bytes address = volume.bytes address := by
  exact counted.store_eq notCount (layout.store_inodeBitmap inGroups whole notBitmap)

theorem Formatted.withInodeBits (formatted : Formatted layout volume) :
    Formatted layout (layout.withInodeBits volume group bitmap desc) ∧
      ∀ other < fs.numGroups, fs.bitmapOf (layout.withInodeBits volume group bitmap desc) other =
        fs.bitmapOf volume other := by
  apply formatted.of_desc_changes (layout.changes_withInodeBits volume inGroups whole)
  · rintro block (reserved | isBitmap) other
    · rw [reserved]
      simp
    · rw [isBitmap]
      simp
  · intro other otherInGroups offset _ fields onDisk
    have large := fs.descSize_bounds.1
    apply layout.bytes_withInodeBits inGroups whole counted
    · exact ⟨fun same => fields.2.2.1 (fs.groupDescAt_inj onDisk (by omega) same).2,
        fun same => fields.2.2.2.1 (fs.groupDescAt_inj onDisk (by omega) same).2⟩
    · rw [layout.descs other otherInGroups offset onDisk]
      simp

end Bits

theorem Layout.inodeBitmapOf_withInodeBits {bitmap desc : List UInt8}
    (inGroups : group < fs.numGroups) (whole : bitmap.length = fs.blockSize) {other : Nat}
    (otherInGroups : other < fs.numGroups) :
    layout.inodeBitmapOf (layout.withInodeBits volume group bitmap desc) other =
      if other = group then bitmap else layout.inodeBitmapOf volume other := by
  split
  next here =>
    have loaded := @load_store_same _ volume.bytes (layout.inodeBitmap group * fs.blockSize) bitmap
    rw [whole] at loaded
    rw [here]
    refine Eq.trans ?_ loaded
    apply load_congr
    intro index inside
    apply layout.store_desc inGroups (length_take_le _ _)
    rw [fs.block_address inside, (layout.inodeBitmaps group inGroups).1]
    simp
  next elsewhere =>
    refine @Changes.load_block fs _ _ _ (layout.changes_withInodeBits volume inGroups whole) _ ?_ 0
      fs.blockSize (by omega)
    rw [(layout.inodeBitmaps other otherInGroups).1]
    rintro (reserved | same)
    · cases reserved
    · exact elsewhere (BlockKind.inodeBitmap.inj same)

/-! ## Live inodes -/

theorem inode_place {index : Nat} (inGroup : index < fs.inodesPerGroup) :
    (group * fs.inodesPerGroup + index + 1 - 1) / fs.inodesPerGroup = group ∧
      (group * fs.inodesPerGroup + index + 1 - 1) % fs.inodesPerGroup = index := by
  rw [Nat.add_sub_cancel, mul_comm group, mul_add_div (by omega), mul_add_mod,
    div_eq_of_lt inGroup, mod_eq_of_lt inGroup]
  exact ⟨rfl, rfl⟩

theorem inode_eq {first second : Nat} (firstUsed : first ≠ 0) (secondUsed : second ≠ 0)
    (sameGroup : (first - 1) / fs.inodesPerGroup = (second - 1) / fs.inodesPerGroup)
    (sameIndex : (first - 1) % fs.inodesPerGroup = (second - 1) % fs.inodesPerGroup) :
    first = second := by
  have firstParts := div_add_mod (first - 1) fs.inodesPerGroup
  have secondParts := div_add_mod (second - 1) fs.inodesPerGroup
  rw [sameGroup] at firstParts
  omega

theorem Layout.live_withInodeBits {bitmap desc : List UInt8} {other : Nat} {bit : Bool}
    (inTable : fs.InTable ino) (otherInTable : fs.InTable other)
    (whole : bitmap.length = fs.blockSize)
    (bits : ∀ index, ByteBitmap.test bitmap index =
      if index = (ino - 1) % fs.inodesPerGroup then bit
      else ByteBitmap.test (layout.inodeBitmapOf volume ((ino - 1) / fs.inodesPerGroup)) index) :
    layout.Live (layout.withInodeBits volume ((ino - 1) / fs.inodesPerGroup) bitmap desc) other ↔
      if other = ino then bit = true else layout.Live volume other := by
  rw [Layout.Live, layout.inodeBitmapOf_withInodeBits inTable.2 whole otherInTable.2]
  by_cases sameGroup : (other - 1) / fs.inodesPerGroup = (ino - 1) / fs.inodesPerGroup
  · rw [if_pos sameGroup, bits]
    by_cases sameIndex : (other - 1) % fs.inodesPerGroup = (ino - 1) % fs.inodesPerGroup
    · rw [if_pos sameIndex, if_pos (inode_eq otherInTable.1 inTable.1 sameGroup sameIndex)]
      exact and_iff_right otherInTable
    · rw [if_neg sameIndex, if_neg (fun same => sameIndex (by rw [same])), Layout.Live, sameGroup]
  · rw [if_neg sameGroup, if_neg (fun same => sameGroup (by rw [same])), Layout.Live]

/-! ## The calls -/

/-- What an allocation or a release of an inode leaves alone. -/
structure InodeBitsChange (layout : fs.Layout) (volume next : Volume) : Prop where
  formatted : Formatted layout next
  marks : ∀ block, layout.kind block = .data → fs.marked next block = fs.marked volume block
  changes : fs.Changes (fun block => layout.kind block = .reserved ∨
    ∃ group, layout.kind block = .inodeBitmap group) volume next

theorem Formatted.inodeBitsChange (formatted : Formatted layout volume)
    (inGroups : group < fs.numGroups) {bitmap desc : List UInt8}
    (whole : bitmap.length = fs.blockSize) (counted : fs.InodeCount volume group desc) :
    InodeBitsChange layout volume (layout.withInodeBits volume group bitmap desc) := by
  rcases Formatted.withInodeBits inGroups whole counted formatted with ⟨stays, bitmaps⟩
  refine ⟨stays, fun block isData => layout.marked_congr isData bitmaps, ?_⟩
  apply (layout.changes_withInodeBits volume inGroups whole).mono
  rintro block (reserved | isBitmap)
  · exact .inl reserved
  · exact .inr ⟨group, isBitmap⟩

theorem Layout.length_inodeBitmapOf :
    (layout.inodeBitmapOf volume group).length = fs.blockSize := by
  rw [Layout.inodeBitmapOf, length_load]

section

variable (formatted : Formatted layout volume) (inGroups : group < fs.numGroups)

include formatted inGroups

theorem Formatted.readGroupDesc :
    fs.readGroupDesc group volume = (.ok (fs.descOf volume group), volume) := by
  refine (readGroupDesc_ok fs).mpr ⟨?_, rfl, rfl⟩
  rw [formatted.size]
  exact layout.descsInside group inGroups

theorem Formatted.groupInodeBitmap :
    fs.groupInodeBitmap group volume = (.ok (layout.inodeBitmap group), volume) := by
  rw [Ext4Fs.groupInodeBitmap, bind_run, formatted.readGroupDesc inGroups,
    ← formatted.inodeBitmaps group inGroups]
  rfl

theorem Formatted.readInodeBitmap :
    fs.readBlock (layout.inodeBitmap group) volume =
      (.ok (layout.inodeBitmapOf volume group), volume) := by
  apply readBlock_ok
  rw [formatted.size]
  exact (layout.inodeBitmaps group inGroups).2

theorem Formatted.writeInodeBitmap {bitmap : List UInt8} (whole : bitmap.length = fs.blockSize) :
    fs.writeBlock (layout.inodeBitmap group) bitmap volume = (.ok (), { volume with
      bytes := store volume.bytes (layout.inodeBitmap group * fs.blockSize) bitmap }) := by
  refine (writeBlock_ok formatted.closed whole).mpr ⟨?_, rfl⟩
  rw [formatted.size]
  exact (layout.inodeBitmaps group inGroups).2

end

theorem writeGroupDesc_run {desc : List UInt8} (whole : desc.length = 64)
    (inside : fs.groupDescAt group + fs.descSize ≤ volume.size) :
    fs.writeGroupDesc group desc volume = (.ok (), { volume with
      bytes := store volume.bytes (fs.groupDescAt group) (desc.take fs.descSize) }) := by
  have small := fs.descSize_bounds.2
  rw [writeGroupDesc, writeBytesAt, if_pos]
  rw [length_take, whole, min_eq_left small]
  exact inside

def Layout.NoInode (layout : fs.Layout) (volume : Volume) (group : Nat) : Prop :=
  readLe16 (fs.descOf volume group) 14 = 0 ∨
    fs.firstFreeInode (layout.inodeBitmapOf volume group) = none

variable (formatted : Formatted layout volume)

include formatted

theorem Formatted.allocInodeInGroup (isDir : Bool)
    (inGroups : group < fs.numGroups) :
    (layout.NoInode volume group ∧ fs.allocInodeInGroup isDir group volume = (.ok none, volume)) ∨
      ¬layout.NoInode volume group ∧ ∃ index < fs.inodesPerGroup,
        ByteBitmap.test (layout.inodeBitmapOf volume group) index = false ∧
        ∃ desc, desc.length = 64 ∧ (isDir = false → fs.InodeCount volume group desc) ∧
          fs.allocInodeInGroup isDir group volume =
            (.ok (some ((group * fs.inodesPerGroup + index + 1) % 4294967296)),
              layout.withInodeBits volume group
                (ByteBitmap.set (layout.inodeBitmapOf volume group) index) desc) := by
  rw [Ext4Fs.allocInodeInGroup, bind_of_ok (formatted.readGroupDesc inGroups)]
  split
  next none => exact .inl ⟨.inl none, rfl⟩
  next counts =>
  rw [bind_of_ok (formatted.groupInodeBitmap inGroups)]
  rw [bind_of_ok (formatted.readInodeBitmap inGroups)]
  cases found : fs.firstFreeInode (layout.inodeBitmapOf volume group) with
  | none => exact .inl ⟨.inr found, rfl⟩
  | some index =>
    have inGroup := mem_range.mp (mem_of_find?_eq_some found)
    have isClear := find?_some found
    have counted := fs.inodeCount_overwrite volume group
      (readLe16 (fs.descOf volume group) 14 - 1)
    generalize overwrite (fs.descOf volume group) 14
      (le16 (readLe16 (fs.descOf volume group) 14 - 1)) = lower at counted
    have whole : (if isDir then overwrite lower 16 (le16 (readLe16 lower 16 + 1))
        else lower).length = 64 := by
      split
      · rw [length_overwrite (by rw [counted.whole, length_le16]; omega), counted.whole]
      · exact counted.whole
    have gives : ¬layout.NoInode volume group := by
      rintro (none | none)
      · exact counts none
      · rw [found] at none
        cases none
    refine .inr ⟨gives, index, inGroup, by simpa using isClear, _, whole, ?_, ?_⟩
    · intro isFile
      rw [if_neg (by rw [isFile]; exact Bool.false_ne_true)]
      exact counted
    have inside := layout.descsInside group inGroups
    rw [← formatted.size] at inside
    dsimp only
    rw [bind_of_ok (formatted.writeInodeBitmap inGroups
      (by rw [ByteBitmap.length_set, Layout.length_inodeBitmapOf]))]
    rw [bind_run, writeGroupDesc_run whole (by exact inside)]
    rfl

theorem Formatted.allocInodeInGroups (isDir : Bool)
    (groups : List Nat) (inGroups : ∀ group ∈ groups, group < fs.numGroups) :
    ((∀ group ∈ groups, layout.NoInode volume group) ∧
        fs.allocInodeInGroups isDir groups volume = (.error .enospc, volume)) ∨
      ∃ group < fs.numGroups, group ∈ groups ∧ ¬layout.NoInode volume group ∧
        ∃ index < fs.inodesPerGroup,
        ByteBitmap.test (layout.inodeBitmapOf volume group) index = false ∧
        ∃ desc, desc.length = 64 ∧ (isDir = false → fs.InodeCount volume group desc) ∧
          fs.allocInodeInGroups isDir groups volume =
            (.ok ((group * fs.inodesPerGroup + index + 1) % 4294967296),
              layout.withInodeBits volume group
                (ByteBitmap.set (layout.inodeBitmapOf volume group) index) desc) := by
  induction groups with
  | nil => exact .inl ⟨by simp, rfl⟩
  | cons group rest induction =>
    have here := inGroups group mem_cons_self
    rw [Ext4Fs.allocInodeInGroups, bind_run]
    rcases formatted.allocInodeInGroup isDir here with ⟨none, full⟩ |
      ⟨gives, index, inGroup, isClear, desc, whole, counted, taken⟩
    · rw [full]
      rcases induction fun other member => inGroups other (mem_cons_of_mem _ member) with
        ⟨nowhere, failed⟩ | ⟨other, otherInGroups, member, found⟩
      · exact .inl ⟨forall_mem_cons.mpr ⟨none, nowhere⟩, failed⟩
      · exact .inr ⟨other, otherInGroups, mem_cons_of_mem _ member, found⟩
    · rw [taken]
      exact .inr ⟨group, here, mem_cons_self, gives, index, inGroup, isClear, desc, whole,
        counted, rfl⟩

theorem Formatted.allocInode :
    fs.allocInode false volume = (.error .enospc, volume) ∨
      ∃ ino next, fs.allocInode false volume = (.ok ino, next) ∧ fs.InTable ino ∧
        ¬layout.Live volume ino ∧ InodeBitsChange layout volume next ∧
        ∀ other, fs.InTable other →
          (layout.Live next other ↔ other = ino ∨ layout.Live volume other) := by
  rcases formatted.allocInodeInGroups false (List.range fs.numGroups)
      (fun _ => mem_range.mp) with
    ⟨_, full⟩ | ⟨group, inGroups, _, _, index, inGroup, isClear, desc, _, counts, taken⟩
  · exact .inl full
  have counted := counts rfl
  rcases @inode_place fs group index inGroup with ⟨isGroup, isIndex⟩
  have small : group * fs.inodesPerGroup + index + 1 < 4294967296 := by
    have bound := layout.inodesSmall
    have scaled := Nat.mul_le_mul_right fs.inodesPerGroup (succ_le_of_lt inGroups)
    rw [succ_mul] at scaled
    omega
  rw [mod_eq_of_lt small] at taken
  refine .inr ⟨_, _, taken, ?_⟩
  have used : group * fs.inodesPerGroup + index + 1 ≠ 0 := succ_ne_zero _
  generalize group * fs.inodesPerGroup + index + 1 = ino at *
  subst isGroup isIndex
  have inTable : fs.InTable ino := ⟨used, inGroups⟩
  have fewInodes : fs.inodesPerGroup ≤ 8 * fs.blockSize := fs.inodeBits
  have whole := (@ByteBitmap.length_set
    (layout.inodeBitmapOf volume ((ino - 1) / fs.inodesPerGroup))
    ((ino - 1) % fs.inodesPerGroup)).trans Layout.length_inodeBitmapOf
  refine ⟨inTable, ?_, formatted.inodeBitsChange inGroups whole counted, ?_⟩
  · intro live
    rw [Layout.Live, isClear] at live
    cases live.2
  · intro other otherInTable
    refine (@Layout.live_withInodeBits fs layout volume ino _ _ other true inTable
      otherInTable whole ?_).trans ?_
    · intro index
      rw [ByteBitmap.test_set (by rw [Layout.length_inodeBitmapOf]; omega)]
      by_cases same : index = (ino - 1) % fs.inodesPerGroup
      · rw [decide_eq_true same, Bool.true_or, if_pos same]
      · rw [decide_eq_false same, Bool.false_or, if_neg same]
    · split
      next same => exact iff_of_true rfl (.inl same)
      next different => exact (or_iff_right different).symm

theorem Formatted.freeInode_run {group : Nat}
    (isGroup : (ino - 1) / fs.inodesPerGroup = group) (inGroups : group < fs.numGroups) :
    fs.freeInode ino volume = (.ok (), layout.withInodeBits volume group
      (ByteBitmap.clear (layout.inodeBitmapOf volume group) ((ino - 1) % fs.inodesPerGroup))
      (overwrite (fs.descOf volume group) 14
        (le16 (readLe16 (fs.descOf volume group) 14 + 1)))) := by
  have whole := (@ByteBitmap.length_clear (layout.inodeBitmapOf volume group)
    ((ino - 1) % fs.inodesPerGroup)).trans Layout.length_inodeBitmapOf
  have counted := fs.inodeCount_overwrite volume group (readLe16 (fs.descOf volume group) 14 + 1)
  have inside := layout.descsInside group inGroups
  rw [← formatted.size] at inside
  rw [Ext4Fs.freeInode, isGroup, bind_of_ok (formatted.groupInodeBitmap inGroups)]
  rw [bind_of_ok (formatted.readInodeBitmap inGroups)]
  rw [bind_of_ok (formatted.writeInodeBitmap inGroups whole)]
  -- The descriptor is read after the bitmap has been written.
  have desc : fs.descOf volume group = fs.descOf { volume with
      bytes := store volume.bytes (layout.inodeBitmap group * fs.blockSize)
        (ByteBitmap.clear (layout.inodeBitmapOf volume group) ((ino - 1) % fs.inodesPerGroup)) }
      group := by
    apply descOf_congr
    intro offset onDisk
    apply Eq.symm
    apply layout.store_inodeBitmap inGroups whole
    rw [layout.descs group inGroups offset onDisk]
    simp
  have read := fun onDisk => (readGroupDesc_ok fs).mpr ⟨onDisk, desc, rfl⟩
  rw [bind_of_ok (read inside)]
  exact writeGroupDesc_run counted.whole (by exact inside)

theorem Formatted.freeInode (inTable : fs.InTable ino) :
    ∃ next, fs.freeInode ino volume = (.ok (), next) ∧ InodeBitsChange layout volume next ∧
      ∀ other, fs.InTable other →
        (layout.Live next other ↔ other ≠ ino ∧ layout.Live volume other) := by
  have inGroups := inTable.2
  have inGroup := mod_lt (ino - 1) fs.someInodes
  have fewInodes : fs.inodesPerGroup ≤ 8 * fs.blockSize := fs.inodeBits
  have whole := (@ByteBitmap.length_clear
    (layout.inodeBitmapOf volume ((ino - 1) / fs.inodesPerGroup))
    ((ino - 1) % fs.inodesPerGroup)).trans Layout.length_inodeBitmapOf
  have counted := fs.inodeCount_overwrite volume ((ino - 1) / fs.inodesPerGroup)
    (readLe16 (fs.descOf volume ((ino - 1) / fs.inodesPerGroup)) 14 + 1)
  refine ⟨_, formatted.freeInode_run rfl inGroups,
    formatted.inodeBitsChange inGroups whole counted, ?_⟩
  intro other otherInTable
  refine (@Layout.live_withInodeBits fs layout volume ino _ _ other false inTable
    otherInTable whole ?_).trans ?_
  · intro index
    rw [ByteBitmap.test_clear (by rw [Layout.length_inodeBitmapOf]; omega)]
    by_cases same : index = (ino - 1) % fs.inodesPerGroup
    · rw [if_pos same, decide_eq_false (fun different => different same), Bool.false_and]
    · rw [if_neg same, decide_eq_true same, Bool.true_and]
  · split
    next same => exact iff_of_false Bool.false_ne_true (fun both => both.1 same)
    next different => exact (and_iff_right different).symm

end Qunix.Fs.Ext4.Ext4Fs
