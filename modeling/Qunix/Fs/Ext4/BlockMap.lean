import Qunix.Fs.Ext4.ExtentMap
import Qunix.Fs.Ext4.Layout

/-! # Block maps on a volume

The inodes of a volume, and what a new block does to the map of an inode.
-/

namespace Qunix.Fs.Ext4

open Foundation Bytes FlatArray List Nat Procedure

/-! ## Fields of inodes -/

variable {root : List UInt8}

namespace Inode

variable (self : Inode) {offset : Nat} {data : List UInt8} {inside : offset + data.length ≤ 160}

theorem length_iBlock : self.iBlock.length = 60 := by
  rw [iBlock, length_take, length_drop, self.whole]
  rfl

variable {index : Nat}

theorem byteAt_iBlock (small : index < 60) :
    byteAt self.iBlock index = byteAt self.raw (40 + index) := by
  rw [byteAt, byteAt, getD_eq_getElem?_getD, getD_eq_getElem?_getD, iBlock,
    getElem?_take_of_lt small, getElem?_drop]

theorem blockPointer_iBlock (small : index < 15) :
    self.blockPointer index = readLe32 self.iBlock (4 * index) := by
  refine readLe32_congr fun offset inside => ?_
  rw [self.byteAt_iBlock (by omega), add_assoc]

variable {self}

theorem readLe32_patch (outside : index + 4 ≤ offset ∨ offset + data.length ≤ index) :
    readLe32 (self.patch offset data inside).raw index = readLe32 self.raw index :=
  readLe32_overwrite_outside (by rw [self.whole]; exact inside) outside

theorem readLe16_patch (outside : index + 2 ≤ offset ∨ offset + data.length ≤ index) :
    readLe16 (self.patch offset data inside).raw index = readLe16 self.raw index :=
  readLe16_overwrite_outside (by rw [self.whole]; exact inside) outside

theorem readLe32_patch_same {value : Nat} (inside : offset + (le32 value).length ≤ 160) :
    readLe32 (self.patch offset (le32 value) inside).raw offset = value % 4294967296 := by
  exact @readLe32_overwrite_part self.raw offset [] [] value (by rw [self.whole]; omega)

theorem readLe16_patch_same {value : Nat} (inside : offset + (le16 value).length ≤ 160) :
    readLe16 (self.patch offset (le16 value) inside).raw offset = value % 65536 := by
  exact @readLe16_overwrite_part self.raw offset [] [] value (by rw [self.whole]; omega)

theorem iBlock_patch (outside : offset + data.length ≤ 40 ∨ 100 ≤ offset) :
    (self.patch offset data inside).iBlock = self.iBlock := by
  apply ext_getElem?
  intro index
  by_cases small : index < 60
  · rw [iBlock, iBlock, getElem?_take_of_lt small, getElem?_take_of_lt small,
      getElem?_drop, getElem?_drop]
    exact getElem?_overwrite_outside (by rw [self.whole]; exact inside) (by omega)
  · rw [getElem?_eq_none (by rw [length_iBlock]; omega),
      getElem?_eq_none (by rw [length_iBlock]; omega)]

@[simp] theorem iBlock_setSize (size : Nat) : (self.setSize size).iBlock = self.iBlock := by
  rw [setSize, iBlock_patch (by simp), iBlock_patch (by simp)]

@[simp] theorem hasExtents_setSize (size : Nat) :
    (self.setSize size).hasExtents = self.hasExtents := by
  rw [hasExtents, hasExtents, flags, flags, setSize, readLe32_patch (by simp),
    readLe32_patch (by simp)]

theorem size_setSize {size : Nat} (small : size < 18446744073709551616) :
    (self.setSize size).size = size := by
  generalize isLow : self.patch 4 (le32 size) (by rw [length_le32]; decide) = middle
  have low : readLe32 middle.raw 4 = size % 4294967296 := by
    have part := @readLe32_overwrite_part self.raw 4 [] [] size (by rw [self.whole]; decide)
    rw [← isLow]
    exact part
  have high := @readLe32_overwrite_part middle.raw 108 [] [] (size / 4294967296)
    (by rw [middle.whole]; decide)
  have isHigh : readLe32 (self.setSize size).raw 108 = size / 4294967296 % 4294967296 := by
    rw [setSize, isLow]
    exact high
  rw [Inode.size, isHigh, setSize, readLe32_patch (by simp), isLow]
  omega

theorem iBlock_setIBlock (whole : root.length = 60) :
    (self.setIBlock root).iBlock = root := by
  have same : resize 60 root = root := by
    rw [resize, take_append_of_le_length (le_of_eq whole.symm),
      take_of_length_le (le_of_eq whole)]
  have raw : (self.setIBlock root).raw = overwrite self.raw 40 root :=
    congrArg (overwrite self.raw 40) same
  have front : (self.raw.take 40).length = 40 := by
    rw [length_take, self.whole]
    rfl
  rw [iBlock, raw, overwrite, append_assoc]
  nth_rewrite 1 [← front]
  rw [drop_left, ← whole, take_left]

@[simp] theorem hasExtents_setIBlock (root : List UInt8) :
    (self.setIBlock root).hasExtents = self.hasExtents := by
  rw [hasExtents, hasExtents, flags, flags, setIBlock, readLe32_patch (by simp)]

@[simp] theorem size_setIBlock (root : List UInt8) : (self.setIBlock root).size = self.size := by
  rw [Inode.size, Inode.size, setIBlock, readLe32_patch (by simp),
    readLe32_patch (by simp [length_resize])]

/-- The fields are in the first 128 bytes. -/
structure Agrees (first second : Inode) : Prop where
  bytes : ∀ index < 128, byteAt first.raw index = byteAt second.raw index

variable {other : Inode}

variable (agrees : self.Agrees other)

include agrees

theorem Agrees.readLe32 {index : Nat} (inside : index + 4 ≤ 128) :
    Bytes.readLe32 self.raw index = Bytes.readLe32 other.raw index :=
  readLe32_congr fun _ small => agrees.bytes _ (by omega)

theorem Agrees.readLe16 {index : Nat} (inside : index + 2 ≤ 128) :
    Bytes.readLe16 self.raw index = Bytes.readLe16 other.raw index :=
  readLe16_congr fun _ small => agrees.bytes _ (by omega)

theorem Agrees.size : self.size = other.size := by
  rw [Inode.size, Inode.size, agrees.readLe32 (by decide), agrees.readLe32 (by decide)]

theorem Agrees.hasExtents : self.hasExtents = other.hasExtents := by
  rw [Inode.hasExtents, Inode.hasExtents, flags, flags, agrees.readLe32 (by decide)]

theorem Agrees.mode : self.mode = other.mode :=
  agrees.readLe16 (by decide)

theorem Agrees.iBlock : self.iBlock = other.iBlock := by
  apply ext_getElem?
  intro index
  by_cases small : index < 60
  · have same := agrees.bytes (40 + index) (by omega)
    have inSelf : 40 + index < self.raw.length := by rw [self.whole]; omega
    have inOther : 40 + index < other.raw.length := by rw [other.whole]; omega
    rw [byteAt, byteAt, getD_eq_getElem?_getD, getD_eq_getElem?_getD,
      getElem?_eq_getElem inSelf, getElem?_eq_getElem inOther, Option.getD_some,
      Option.getD_some] at same
    rw [Inode.iBlock, Inode.iBlock, getElem?_take_of_lt small, getElem?_take_of_lt small,
      getElem?_drop, getElem?_drop, getElem?_eq_getElem inSelf,
      getElem?_eq_getElem inOther, UInt8.toNat_inj.mp same]
  · rw [getElem?_eq_none (by rw [length_iBlock]; omega),
      getElem?_eq_none (by rw [length_iBlock]; omega)]

end Inode

namespace Ext4Fs

variable {fs : Ext4Fs} {inode other : Inode} {volume next : Volume}

/-- The map is in the flags and in `i_block`. -/
theorem getBlock_congr (flags : inode.hasExtents = other.hasExtents)
    (blocks : inode.iBlock = other.iBlock) (logical : Nat) :
    fs.getBlock inode logical = fs.getBlock other logical := by
  have pointers : ∀ index < 15, inode.blockPointer index = other.blockPointer index := by
    intro index small
    rw [inode.blockPointer_iBlock small, other.blockPointer_iBlock small, blocks]
  rw [getBlock, getBlock, flags, extentGetBlock, blocks, indirectGetBlock,
    indirectGetBlock, pointers 12 (by decide), pointers 13 (by decide)]
  split
  next => rfl
  split
  next direct => rw [pointers logical (by omega)]
  next => rfl

theorem extentGetBlock_leaf (leaf : Leaf inode.iBlock) (logical : Nat) (volume : Volume) :
    fs.extentGetBlock inode logical volume = (.ok (leafSearch inode.iBlock logical), volume) := by
  rw [extentGetBlock, extentSearch, if_neg (not_not_intro leaf.magic), if_pos leaf.isLeaf]
  rfl

theorem getBlock_leaf (extents : inode.hasExtents = true) (leaf : Leaf inode.iBlock)
    (logical : Nat) (volume : Volume) :
    fs.getBlock inode logical volume = (.ok (leafSearch inode.iBlock logical), volume) := by
  rw [getBlock, if_pos extents, extentGetBlock_leaf leaf]

/-! ## The inode table -/

variable {layout : fs.Layout} {ino : Nat}

variable (fs) in
def InTable (ino : Nat) : Prop := ino ≠ 0 ∧ (ino - 1) / fs.inodesPerGroup < fs.numGroups

instance (ino : Nat) : Decidable (fs.InTable ino) := inferInstanceAs (Decidable (_ ∧ _))

def Layout.record (layout : fs.Layout) (ino : Nat) : Nat :=
  layout.inodeTable ((ino - 1) / fs.inodesPerGroup) * fs.blockSize +
    (ino - 1) % fs.inodesPerGroup * fs.inodeSize

def Layout.inodeAt (layout : fs.Layout) (volume : Volume) (ino : Nat) : Inode :=
  ⟨resize 160 (load volume.bytes (layout.record ino) fs.inodeSize), length_resize 160 _⟩

theorem Layout.record_kind (layout : fs.Layout) (inTable : fs.InTable ino) {offset : Nat}
    (inside : offset < fs.inodeSize) :
    layout.kind ((layout.record ino + offset) / fs.blockSize) =
      .inodeTable ((ino - 1) / fs.inodesPerGroup) :=
  layout.inodeTables _ inTable.2 _ (mod_lt _ fs.someInodes) offset inside

section

variable (formatted : Formatted layout volume)

include formatted

section

variable (inTable : fs.InTable ino)
include inTable

theorem Formatted.inodeLocation :
    fs.inodeLocation ino volume = (.ok (layout.record ino), volume) := by
  have desc := layout.descsInside _ inTable.2
  rw [← formatted.size] at desc
  have table : fs.groupInodeTable ((ino - 1) / fs.inodesPerGroup) volume =
      (.ok (layout.inodeTable ((ino - 1) / fs.inodesPerGroup)), volume) := by
    rw [groupInodeTable, bind_of_ok ((readGroupDesc_ok fs).mpr ⟨desc, rfl, rfl⟩)]
    rw [← formatted.inodeTables _ inTable.2]
    rfl
  rw [Ext4Fs.inodeLocation, if_neg inTable.1, bind_run, table]
  rfl

theorem Formatted.record_inside :
    layout.record ino + fs.inodeSize ≤ volume.size := by
  rw [formatted.size]
  exact layout.tablesInside _ inTable.2 _ (mod_lt _ fs.someInodes)

theorem Formatted.readInode :
    fs.readInode ino volume = (.ok (layout.inodeAt volume ino), volume) := by
  rw [Ext4Fs.readInode, bind_of_ok (formatted.inodeLocation inTable)]
  rw [bind_run, readBytesAt_ok.mpr ⟨formatted.record_inside inTable, rfl, rfl⟩]
  rfl

def Layout.withInode (layout : fs.Layout) (volume : Volume) (ino : Nat) (inode : Inode) : Volume :=
  { volume with bytes := store volume.bytes (layout.record ino) (resize fs.inodeSize inode.raw) }

theorem Formatted.writeInode (inode : Inode) :
    fs.writeInode ino inode volume = (.ok (), layout.withInode volume ino inode) := by
  rw [Ext4Fs.writeInode, bind_run, formatted.inodeLocation inTable]
  refine writeBytesAt_ok.mpr ⟨?_, rfl⟩
  rw [length_resize]
  exact formatted.record_inside inTable

end

end

theorem Layout.changes_withInode (layout : fs.Layout) (volume : Volume) (inTable : fs.InTable ino)
    (inode : Inode) :
    fs.Changes (fun block => layout.kind block = .inodeTable ((ino - 1) / fs.inodesPerGroup)) volume
      (layout.withInode volume ino inode) := by
  refine ⟨rfl, rfl, ?_⟩
  intro address other
  apply store_outside
  rw [length_resize]
  by_contra touching
  have place : address = layout.record ino + (address - layout.record ino) := by omega
  rw [place] at other
  exact other (layout.record_kind inTable (by omega))

theorem Formatted.withInode (formatted : Formatted layout volume) (inTable : fs.InTable ino)
    (inode : Inode) :
    Formatted layout (layout.withInode volume ino inode) ∧
      ∀ group < fs.numGroups, fs.bitmapOf (layout.withInode volume ino inode) group =
        fs.bitmapOf volume group := by
  refine formatted.of_changes (layout.changes_withInode volume inTable inode) ?_
  intro block table
  rw [table]
  exact ⟨fun same => (by cases same), fun group same => (by cases same)⟩

theorem Layout.inodeAt_withInode (layout : fs.Layout) (volume : Volume) {first : Nat}
    (inTable : fs.InTable ino) (firstInTable : fs.InTable first) (different : first ≠ ino)
    (inode : Inode) :
    layout.inodeAt (layout.withInode volume ino inode) first = layout.inodeAt volume first := by
  have same : load (layout.withInode volume ino inode).bytes (layout.record first) fs.inodeSize =
      load volume.bytes (layout.record first) fs.inodeSize := by
    by_cases group : (first - 1) / fs.inodesPerGroup = (ino - 1) / fs.inodesPerGroup
    · apply load_store_outside
      have firstPlace := div_add_mod (first - 1) fs.inodesPerGroup
      have inoPlace := div_add_mod (ino - 1) fs.inodesPerGroup
      have apart : (first - 1) % fs.inodesPerGroup ≠ (ino - 1) % fs.inodesPerGroup := by
        intro equal
        rw [group, equal] at firstPlace
        have notZero := inTable.1
        have firstNotZero := firstInTable.1
        omega
      rw [length_resize, Layout.record, Layout.record, group]
      have gap := records_apart fs.inodeSize apart
      omega
    · apply load_congr
      intro index inside
      apply (layout.changes_withInode volume inTable inode).bytes
      rw [layout.record_kind firstInTable inside]
      exact fun equal => group (BlockKind.inodeTable.inj equal)
  simp only [Layout.inodeAt, same]

theorem Layout.inodeAt_self (layout : fs.Layout) (volume : Volume) (ino : Nat) (inode : Inode) :
    (layout.inodeAt (layout.withInode volume ino inode) ino).Agrees inode := by
  have wholeInodes := layout.wholeInodes
  refine ⟨fun index small => ?_⟩
  have loaded := @load_store_same _ volume.bytes (layout.record ino)
    (resize fs.inodeSize inode.raw)
  rw [length_resize] at loaded
  simp only [Layout.inodeAt, Layout.withInode]
  rw [loaded, byteAt_resize (by omega), byteAt_resize (by omega)]

/-! ## New blocks -/

variable (fs) in
/-- The map of an inode is read from these blocks only. -/
def Depends (pointers : Nat → Prop) (inode : Inode) (volume : Volume) : Prop :=
  ∀ other, fs.Changes (fun block => ¬pointers block) volume other → ∀ logical,
    fs.getBlock inode logical other = ((fs.getBlock inode logical volume).1, other)

/-- The blocks where the use of blocks is recorded. -/
def Layout.Accounts (layout : fs.Layout) (block : Nat) : Prop :=
  ∃ group, layout.Bookkeeping group block

variable {block logical phys : Nat} {larger : Inode}

theorem Layout.data_not_accounts (layout : fs.Layout) (isData : layout.kind block = .data) :
    ¬layout.Accounts block := by
  rintro ⟨group, reserved | bitmap⟩
  · rw [isData] at reserved
    cases reserved
  · rw [isData] at bitmap
    cases bitmap

variable (fs) in
/-- The map finds a block at a place where it found nothing, and the rest is as it was. -/
structure MapExtends (inode : Inode) (volume : Volume) (key phys : Nat) (larger : Inode)
    (next : Volume) : Prop where
  sound : ∀ other block, (fs.getBlock larger other next).1 = .ok (some block) →
    (fs.getBlock inode other volume).1 = .ok (some block) ∨ (other = key ∧ block = phys)
  complete : ∀ other answer, (fs.getBlock inode other volume).1 = .ok answer →
    (fs.getBlock larger other next).1 = .ok (answer.or (if other = key then some phys else none))
  added : (∀ block, (fs.getBlock inode key volume).1 ≠ .ok (some block)) →
    (fs.getBlock larger key next).1 = .ok (some phys)

/-- One more block in the map of an inode: it was free, and the map finds it where it
found nothing before. -/
structure Growth (layout : fs.Layout) (pointers : Nat → Prop) (inode : Inode) (volume : Volume)
    (logical phys : Nat) (larger : Inode) (next : Volume) : Prop where
  formatted : Formatted layout next
  isData : layout.kind phys = .data
  wasFree : fs.marked volume phys = false
  isMarked : fs.marked next phys = true
  keeps : ∀ block, layout.kind block = .data → fs.marked volume block = true →
    fs.marked next block = true
  notPointer : ¬pointers phys
  changes : fs.Changes (fun block => layout.Accounts block ∨ block = phys) volume next
  sameSize : larger.size = inode.size
  sameFlags : larger.hasExtents = inode.hasExtents
  zeroed : load next.bytes (phys * fs.blockSize) fs.blockSize = List.replicate fs.blockSize 0
  depends : fs.Depends pointers larger next
  mapped : ∃ key, (logical < 4294967296 → key = logical) ∧
    fs.MapExtends inode volume key phys larger next

theorem Layout.marked_congr (layout : fs.Layout) (isData : layout.kind block = .data)
    (same : ∀ group < fs.numGroups, fs.bitmapOf next group = fs.bitmapOf volume group) :
    fs.marked next block = fs.marked volume block := by
  rw [marked, marked, same _ (layout.dataInside block isData).2.1]

theorem Formatted.of_contents (formatted : Formatted layout volume) {Changed : Nat → Prop}
    (changes : fs.Changes Changed volume next) (contents : ∀ block, Changed block →
      layout.kind block = .data ∨ ∃ group, layout.kind block = .inodeTable group) :
    Formatted layout next ∧
      ∀ block, layout.kind block = .data → fs.marked next block = fs.marked volume block := by
  have kept := formatted.of_changes changes (by
    intro block changed
    rcases contents block changed with isData | ⟨group, table⟩
    · rw [isData]
      exact ⟨fun same => (by cases same), fun group same => (by cases same)⟩
    · rw [table]
      exact ⟨fun same => (by cases same), fun group same => (by cases same)⟩)
  exact ⟨kept.1, fun block isData => layout.marked_congr isData kept.2⟩

theorem Formatted.allocZeroed (formatted : Formatted layout volume) {phys : Nat} {middle : Volume}
    (allocated : fs.allocBlock volume = (.ok phys, middle))
    (written : fs.writeBlock phys (List.replicate fs.blockSize 0) middle = (.ok (), next)) :
    Formatted layout next ∧ layout.kind phys = .data ∧ fs.marked volume phys = false ∧
      (∀ block, layout.kind block = .data →
        fs.marked next block = (decide (block = phys) || fs.marked volume block)) ∧
      fs.Changes (fun block => layout.Accounts block ∨ block = phys) volume next ∧
      load next.bytes (phys * fs.blockSize) fs.blockSize = List.replicate fs.blockSize 0 := by
  rcases formatted.allocBlock allocated with ⟨middleFormatted, isData, wasFree, marks, group,
    changes⟩
  have whole : (List.replicate fs.blockSize (0 : UInt8)).length = fs.blockSize :=
    length_replicate
  obtain ⟨_, rfl⟩ := (writeBlock_ok middleFormatted.closed whole).mp written
  have zeroes := @changes_store fs middle phys 0 (List.replicate fs.blockSize 0) (by omega)
  rcases middleFormatted.of_contents zeroes
    (by rintro block rfl; exact .inl isData) with ⟨nextFormatted, kept⟩
  refine ⟨nextFormatted, isData, wasFree, ?_, ?_, ?_⟩
  · intro block blockIsData
    rw [← marks block blockIsData]
    exact kept block blockIsData
  · refine Changes.trans (changes.mono ?_) (zeroes.mono ?_)
    · exact fun block bookkeeping => .inl ⟨group, bookkeeping⟩
    · exact fun block same => .inr same
  · have loaded := @load_store_same _ middle.bytes (phys * fs.blockSize)
      (List.replicate fs.blockSize 0)
    rwa [whole] at loaded

theorem extentAllocBlock_ok
    (done : fs.extentAllocBlock inode logical volume = (.ok (phys, larger), next)) :
    ∃ middle root, fs.allocBlock volume = (.ok phys, middle) ∧
      fs.writeBlock phys (List.replicate fs.blockSize 0) middle = (.ok (), next) ∧
      extentInsert inode.iBlock logical phys = .ok root ∧ larger = inode.setIBlock root := by
  obtain ⟨block, middle, allocated, done⟩ := bind_ok.mp done
  obtain ⟨_, zeroed, written, done⟩ := bind_ok.mp done
  cases inserted : extentInsert inode.iBlock logical block with
  | error error =>
    simp only [inserted] at done
    cases done
  | ok root =>
    simp only [inserted] at done
    cases done
    exact ⟨middle, root, allocated, written, inserted, rfl⟩

theorem extentGetBlock_setIBlock (leaf : Leaf root) (logical : Nat) (volume : Volume) :
    fs.extentGetBlock (inode.setIBlock root) logical volume =
      (.ok (leafSearch root logical), volume) := by
  have isRoot : (inode.setIBlock root).iBlock = root := Inode.iBlock_setIBlock leaf.whole
  rw [extentGetBlock_leaf (by rwa [isRoot]), isRoot]

theorem mapExtends_insert {logical phys : Nat} {root : List UInt8}
    (extents : inode.hasExtents = true)
    (few : readLe16 inode.iBlock 0 = extentMagic → entryCount inode.iBlock ≤ 4)
    (small : phys < 281474976710656)
    (inserted : extentInsert inode.iBlock logical phys = .ok root) (volume next : Volume) :
    Leaf root ∧ ∃ key, (logical < 4294967296 → key = logical) ∧
      fs.MapExtends inode volume key phys (inode.setIBlock root) next := by
  rcases extentInsert_ok inode.length_iBlock few small inserted with
    ⟨leaf, key, old, isKey, was, found⟩
  have after : ∀ other, fs.getBlock (inode.setIBlock root) other next =
      (.ok ((old other).or (if other = key then some phys else none)), next) := by
    intro other
    rw [getBlock, if_pos (by simpa using extents), extentGetBlock_setIBlock leaf, found]
  have finds : ∀ other block, old other = some block →
      (fs.getBlock inode other volume).1 = .ok (some block) := by
    intro other block isOld
    rcases was with ⟨wasLeaf, rfl⟩ | ⟨_, rfl⟩
    · rw [getBlock_leaf extents wasLeaf, isOld]
    · cases isOld
  refine ⟨leaf, key, isKey, ?_, ?_, ?_⟩
  · intro other block isBlock
    rw [after] at isBlock
    cases isOld : old other with
    | some old =>
      rw [isOld] at isBlock
      cases isBlock
      exact .inl (finds other _ isOld)
    | none =>
      rw [isOld] at isBlock
      split at isBlock
      next here =>
        cases isBlock
        exact .inr ⟨here, rfl⟩
      next => cases isBlock
  · intro other answer isAnswer
    rw [after]
    rcases was with ⟨wasLeaf, rfl⟩ | ⟨fresh, _⟩
    · rw [getBlock_leaf extents wasLeaf] at isAnswer
      cases isAnswer
      rfl
    · rw [getBlock, if_pos extents, extentGetBlock, extentSearch, if_pos fresh] at isAnswer
      cases isAnswer
  · intro unmapped
    have none := Option.eq_none_iff_forall_ne_some.mpr fun block isOld =>
      unmapped block (finds key block isOld)
    rw [after, none, Option.none_or, if_pos rfl]

theorem extentInsert_maps {logical phys : Nat} {root : List UInt8}
    (few : entryCount inode.iBlock ≤ 4) (inFile : logical < 4294967296)
    (small : phys < 281474976710656)
    (unmapped : (fs.extentGetBlock inode logical volume).1 = .ok none)
    (inserted : extentInsert inode.iBlock logical phys = .ok root) :
    (fs.extentGetBlock (inode.setIBlock root) logical volume).1 = .ok (some phys) ∧
      ∀ other, other ≠ logical →
        fs.extentGetBlock (inode.setIBlock root) other = fs.extentGetBlock inode other := by
  rcases extentInsert_ok inode.length_iBlock (fun _ => few) small inserted with
    ⟨leaf, key, old, isKey, was, found⟩
  cases isKey inFile
  rcases was with ⟨wasLeaf, rfl⟩ | ⟨fresh, _⟩
  · rw [extentGetBlock_leaf wasLeaf] at unmapped
    refine ⟨?_, fun other differs => funext fun volume => ?_⟩
    · rw [extentGetBlock_setIBlock leaf, found, Except.ok.inj unmapped, Option.none_or, if_pos rfl]
    · rw [extentGetBlock_setIBlock leaf, extentGetBlock_leaf wasLeaf, found, if_neg differs,
        Option.or_none]
  · rw [extentGetBlock, extentSearch, if_pos fresh] at unmapped
    cases unmapped

/-- The logical block 5 is mapped, and the block behind it goes into the same extent. -/
theorem extentInsert_maps_merged :
    ∃ (inode : Inode) (root : _), extentInsert inode.iBlock 6 8 = .ok root ∧
      entryCount root = entryCount inode.iBlock ∧
      (sample.extentGetBlock (inode.setIBlock root) 6 sampleVolume).1 = .ok (some 8) ∧
      (sample.extentGetBlock (inode.setIBlock root) 5 sampleVolume).1 = .ok (some 7) := by
  let inode := Inode.setIBlock ⟨List.replicate 160 0, Inode.length_zeroed⟩
    (overwrite (overwrite (initRoot (List.replicate 60 0)) 12 (extentBytes 5 7)) 2 (le16 1))
  have inserted : extentInsert inode.iBlock 6 8 = .ok (overwrite inode.iBlock 16 (le16 2)) := by
    decide +kernel
  have mapped := @extentInsert_maps sample inode sampleVolume 6 8 _ (by decide +kernel)
    (by decide) (by decide) (by decide +kernel) inserted
  refine ⟨inode, _, inserted, by decide +kernel, mapped.1, ?_⟩
  rw [mapped.2 5 (by decide)]
  decide +kernel

theorem Formatted.mapNewBlock (formatted : Formatted layout volume) {pointers : Nat → Prop}
    (extents : inode.hasExtents = true)
    (few : readLe16 inode.iBlock 0 = extentMagic → entryCount inode.iBlock ≤ 4)
    (placed : ∀ block, pointers block → fs.marked volume block = true)
    (done : fs.mapNewBlock ino inode logical volume = (.ok (phys, larger), next)) :
    Growth layout pointers inode volume logical phys larger next ∧
      Leaf larger.iBlock := by
  rw [Ext4Fs.mapNewBlock, if_pos extents] at done
  rcases extentAllocBlock_ok done with ⟨middle, root, allocated, written, inserted, rfl⟩
  rcases formatted.allocZeroed allocated written with ⟨nextFormatted, isData, wasFree, marks,
    changes, zeroed⟩
  have small := (layout.dataInside phys isData).2.2.2
  rcases @mapExtends_insert fs inode logical phys root extents few small inserted volume next with
    ⟨leaf, mapped⟩
  have isRoot : (inode.setIBlock root).iBlock = root := Inode.iBlock_setIBlock leaf.whole
  have isLeaf : Leaf (inode.setIBlock root).iBlock := by
    rw [isRoot]
    exact leaf
  have stillExtents : (inode.setIBlock root).hasExtents = true := by simpa using extents
  refine ⟨?_, isLeaf⟩
  exact {
    formatted := nextFormatted
    isData := isData
    wasFree := wasFree
    isMarked := by rw [marks phys isData, decide_eq_true rfl, Bool.true_or]
    keeps := fun block blockIsData isMarked => by
      rw [marks block blockIsData, isMarked, Bool.or_true]
    notPointer := fun isPointer => by
      rw [placed phys isPointer] at wasFree
      cases wasFree
    changes := changes
    sameSize := Inode.size_setIBlock root
    sameFlags := Inode.hasExtents_setIBlock root
    zeroed := zeroed
    depends := fun other _ logical => by
      rw [getBlock_leaf stillExtents isLeaf, getBlock_leaf stillExtents isLeaf]
    mapped := mapped }

end Ext4Fs

end Qunix.Fs.Ext4
