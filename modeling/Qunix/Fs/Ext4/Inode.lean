import Qunix.Fs.Ext4.Volume

/-! # ext4 inodes and their block maps

An inode is its bytes on the disk. Its block map is an extent tree or a table of direct
and indirect blocks, by a flag. The times of an inode are not modelled.
-/

namespace Qunix.Fs.Ext4

open Foundation Bytes FlatArray

/-- The 160 bytes of `Ext4Inode`. -/
structure Inode where
  raw : List UInt8
  whole : raw.length = 160

namespace Inode

variable (self : Inode)

def mode : Nat := readLe16 self.raw 0

def size : Nat := readLe32 self.raw 4 + readLe32 self.raw 108 * 4294967296

def linksCount : Nat := readLe16 self.raw 26

def flags : Nat := readLe32 self.raw 32

/-- `i_block` as bytes. -/
def iBlock : List UInt8 := (self.raw.drop 40).take 60

/-- One word of `i_block`. -/
def blockPointer (index : Nat) : Nat := readLe32 self.raw (40 + 4 * index)

/-- `EXT4_INODE_FLAG_EXTENTS`. -/
def hasExtents : Bool := self.flags.testBit 19

def isDir : Bool := self.mode / 4096 % 16 = 4

def patch (offset : Nat) (data : List UInt8) (inside : offset + data.length ≤ 160) : Inode where
  raw := overwrite self.raw offset data
  whole := by rw [length_overwrite (by rw [self.whole]; exact inside), self.whole]

theorem length_zeroed : (List.replicate 160 (0 : UInt8)).length = 160 := List.length_replicate

theorem mode_inside (mode : Nat) : 0 + (le16 mode).length ≤ 160 := by
  rw [length_le16]
  decide

theorem size_inside (size : Nat) : 4 + (le32 size).length ≤ 160 := by
  rw [length_le32]
  decide

theorem flags_inside (flags : Nat) : 32 + (le32 flags).length ≤ 160 := by
  rw [length_le32]
  decide

theorem extentsFlag_inside : 32 + (le32 0x80000).length ≤ 160 := flags_inside 0x80000

def setSize (size : Nat) : Inode :=
  (self.patch 4 (le32 size) (size_inside size)).patch 108
    (le32 (size / 4294967296)) (by rw [length_le32]; decide)

def setLinksCount (count : Nat) : Inode :=
  self.patch 26 (le16 count) (by rw [length_le16]; decide)

def setBlockPointer (index block : Nat) (inside : index < 15) : Inode :=
  self.patch (40 + 4 * index) (le32 block) (by rw [length_le32]; omega)

def setIBlock (root : List UInt8) : Inode :=
  self.patch 40 (resize 60 root) (by rw [length_resize]; decide)

end Inode

namespace Ext4Fs

variable (fs : Ext4Fs)

/-! ## The inode table -/

variable (ino : Nat)

def inodeLocation : Ext4M Nat :=
  if ino = 0 then .fail .einval
  else do
    let table ← fs.groupInodeTable ((ino - 1) / fs.inodesPerGroup)
    pure (table * fs.blockSize + (ino - 1) % fs.inodesPerGroup * fs.inodeSize)

def readInode : Ext4M Inode := do
  let offset ← fs.inodeLocation ino
  let buf ← readBytesAt offset fs.inodeSize
  pure ⟨resize 160 buf, length_resize 160 buf⟩

variable (inode : Inode)

def writeInode : Ext4M Unit := do
  let offset ← fs.inodeLocation ino
  writeBytesAt offset (resize fs.inodeSize inode.raw)

/-! ## Extents -/

def extentMagic : Nat := 0xF30A

variable (node : List UInt8)

/-- A node of the tree starts with its magic number, the number of its entries, the
number it has room for and its depth. -/
def entryCount : Nat := readLe16 node 2

def entryRoom : Nat := readLe16 node 4

def nodeDepth : Nat := readLe16 node 6

structure Extent where
  block : Nat
  length : Nat
  start : Nat
deriving DecidableEq

def entryOffset (index : Nat) : Nat := 12 + index * 12

/-- The top bit of the length marks unwritten extents. -/
def extentAt (index : Nat) : Extent where
  block := readLe32 node (entryOffset index)
  length := readLe16 node (entryOffset index + 4) % 32768
  start := readLe16 node (entryOffset index + 6) * 4294967296 +
    readLe32 node (entryOffset index + 8)

def Extent.find (extent : Extent) (logical : Nat) : Option Nat :=
  if extent.block ≤ logical ∧ logical < extent.block + extent.length then
    some (extent.start + (logical - extent.block))
  else none

def entriesInside : List Nat :=
  (List.range (entryCount node)).takeWhile fun index => entryOffset index + 12 ≤ node.length

variable (logical : Nat)

def leafSearch : Option Nat :=
  (entriesInside node).findSome? fun index => (extentAt node index).find logical

/-- The last entry that does not start behind the block, as a block of the next level. -/
def childBlock : Option Nat :=
  ((entriesInside node).reverse.find? fun index =>
    readLe32 node (entryOffset index) ≤ logical).map fun index =>
      readLe32 node (entryOffset index + 4) + readLe16 node (entryOffset index + 8) * 4294967296

/-- The search through a tree of at most `levels` levels. The kernel has no such limit
and overflows its stack on a tree that has a circle. -/
def extentSearch : (levels : Nat) → (node : List UInt8) → (logical : Nat) → Ext4M (Option Nat)
  | 0, _, _ => .fail .eio
  | levels + 1, node, logical =>
    if readLe16 node 0 ≠ extentMagic then .fail .eio
    else if nodeDepth node = 0 then pure (leafSearch node logical)
    else
      match childBlock node logical with
      | none => pure none
      | some child => do
          let block ← fs.readBlock child
          extentSearch levels block logical

/-- ext4 trees have at most five levels below their root. -/
def extentGetBlock : Ext4M (Option Nat) :=
  fs.extentSearch 6 inode.iBlock logical

/-- The root, made an empty leaf if it is not a node. -/
def initRoot (root : List UInt8) : List UInt8 :=
  if readLe16 root 0 ≠ extentMagic then
    overwrite root 0 (le16 extentMagic ++ le16 0 ++ le16 4 ++ le16 0 ++ le32 0)
  else root

/-- Append a block to the last extent of a leaf, if it continues there. -/
def extendLast (root : List UInt8) (logical phys : Nat) : Option (List UInt8) :=
  if 0 < entryCount root then
    let last := extentAt root (entryCount root - 1)
    if last.block + last.length = logical ∧ last.start + last.length = phys ∧
        last.length < 0x7FFF then
      some (overwrite root (entryOffset (entryCount root - 1) + 4)
        (le16 (readLe16 root (entryOffset (entryCount root - 1) + 4) + 1)))
    else none
  else none

def extentBytes (logical phys : Nat) : List UInt8 :=
  le32 logical ++ le16 1 ++ le16 (phys / 4294967296) ++ le32 phys

/-- The root with one more mapped block. Only a root that is a leaf can grow. -/
def extentInsert (root : List UInt8) (logical phys : Nat) : Except VfsError (List UInt8) :=
  let root := initRoot root
  if nodeDepth root ≠ 0 then .error .enospc
  else
    match extendLast root logical phys with
    | some root => .ok root
    | none =>
      if entryRoom root ≤ entryCount root then .error .enospc
      else if 60 < entryOffset (entryCount root) + 12 then .error .enospc
      else
        .ok (overwrite (overwrite root (entryOffset (entryCount root)) (extentBytes logical phys))
          2 (le16 (entryCount root + 1)))

/-! ## Direct and indirect blocks -/

def readIndirectPtr (block index : Nat) : Ext4M (Option Nat) := do
  let buf ← readBytesAt (block * fs.blockSize + index * 4) 4
  pure (if readLe32 buf 0 = 0 then none else some (readLe32 buf 0))

def writeIndirectPtr (block index phys : Nat) : Ext4M Unit :=
  writeBytesAt (block * fs.blockSize + index * 4) (le32 phys)

def indirectGetBlock : Ext4M (Option Nat) :=
  let perBlock := fs.blockSize / 4
  if logical < 12 then
    pure (if inode.blockPointer logical = 0 then none else some (inode.blockPointer logical))
  else if logical - 12 < perBlock then
    if inode.blockPointer 12 = 0 then pure none
    else fs.readIndirectPtr (inode.blockPointer 12) (logical - 12)
  else if logical - 12 - perBlock < perBlock * perBlock then
    if inode.blockPointer 13 = 0 then pure none
    else do
      match ← fs.readIndirectPtr (inode.blockPointer 13)
        ((logical - 12 - perBlock) / perBlock) with
      | some single => fs.readIndirectPtr single ((logical - 12 - perBlock) % perBlock)
      | none => pure none
  else pure none

/-- The block of the single indirect table, allocated if there is none. -/
def indirectTable : Ext4M Inode :=
  if inode.blockPointer 12 = 0 then do
    let table ← fs.allocBlock
    fs.writeBlock table (List.replicate fs.blockSize 0)
    let inode := inode.setBlockPointer 12 table (by decide)
    fs.writeInode ino inode
    pure inode
  else pure inode

def indirectSetBlock (logical phys : Nat) : Ext4M Inode :=
  if direct : logical < 12 then do
    let inode := inode.setBlockPointer logical phys (by omega)
    fs.writeInode ino inode
    pure inode
  else if logical - 12 < fs.blockSize / 4 then do
    let inode ← fs.indirectTable ino inode
    fs.writeIndirectPtr (inode.blockPointer 12) (logical - 12) phys
    pure inode
  else .fail .enospc

/-! ## Block maps -/

def getBlock : Ext4M (Option Nat) :=
  if inode.hasExtents then fs.extentGetBlock inode logical
  else fs.indirectGetBlock inode logical

def extentAllocBlock : Ext4M (Nat × Inode) := do
  let phys ← fs.allocBlock
  fs.writeBlock phys (List.replicate fs.blockSize 0)
  match extentInsert inode.iBlock logical phys with
  | .error error => .fail error
  | .ok root => pure (phys, inode.setIBlock root)

/-- Give a logical block a new block. Without extents it is not zeroed. -/
def mapNewBlock : Ext4M (Nat × Inode) :=
  if inode.hasExtents then fs.extentAllocBlock inode logical
  else do
    let phys ← fs.allocBlock
    let inode ← fs.indirectSetBlock ino inode logical phys
    pure (phys, inode)

end Ext4Fs

end Qunix.Fs.Ext4
