import Qunix.Foundation.ByteBitmap
import Qunix.Foundation.Procedure
import Qunix.Foundation.Word
import Qunix.Fs.Ext4.Journal

/-! # ext4 volumes

`Ext4Fs` of `fs/ext4/mod.rs`: the bytes of the disk, blocks, group descriptors and the
block bitmaps. Writes of blocks go to the open transaction of the journal, if there is
one; everything else goes to the disk.
-/

namespace Qunix.Fs.Ext4

open Foundation Bytes FlatArray

inductive VfsError
  | eio
  | einval
  | enospc
  | enoent
  | eisdir
deriving DecidableEq

structure Volume where
  bytes : Nat → UInt8
  size : Nat
  current : Option Transaction

abbrev Ext4M := Procedure Volume VfsError

/-- What the mount reads from the superblock, with what the kernel needs to get through
its slices and divisions. -/
structure Ext4Fs where
  logBlockSize : Nat
  inodesPerGroup : Nat
  blocksPerGroup : Nat
  numGroups : Nat
  inodeSize : Nat
  has64bit : Bool
  sDescSize : Nat
  firstDataBlock : Nat
  /-- The superblock as it was at the mount. -/
  sb : List UInt8
  smallBlocks : logBlockSize ≤ 6
  wholeSb : sb.length = 1024
  smallDesc : sDescSize ≤ 64
  someInodes : 0 < inodesPerGroup
  inodeBits : inodesPerGroup ≤ 8 * (1024 <<< logBlockSize)
  someBlocks : 0 < blocksPerGroup
  blockBits : blocksPerGroup ≤ 8 * (1024 <<< logBlockSize)

namespace Ext4Fs

variable (fs : Ext4Fs)

def blockSize : Nat := 1024 <<< fs.logBlockSize

def descSize : Nat := if fs.has64bit then max fs.sDescSize 64 else 32

def groupDescOff : Nat := if fs.blockSize = 1024 then 2 * fs.blockSize else fs.blockSize

/-! ## Disk access -/

def readBytesAt (offset length : Nat) : Ext4M (List UInt8) :=
  .observe fun volume =>
    if offset + length ≤ volume.size then .ok (load volume.bytes offset length) else .error .eio

def writeBytesAt (offset : Nat) (data : List UInt8) : Ext4M Unit := fun volume =>
  if offset + data.length ≤ volume.size then
    (.ok (), { volume with bytes := store volume.bytes offset data })
  else (.error .eio, volume)

/-- The offset of the block is not reduced to 64 bits. It wraps from block `2 ^ 64 / blockSize`
on, which lies behind the end of every disk. -/
def readBlock (block : Nat) : Ext4M (List UInt8) :=
  readBytesAt (block * fs.blockSize) fs.blockSize

def writeBlock (block : Nat) (data : List UInt8) : Ext4M Unit := fun volume =>
  match volume.current with
  | some txn =>
    (.ok (), { volume with current := some (txn.addBlock block (data.take fs.blockSize)) })
  | none => writeBytesAt (block * fs.blockSize) (data.take fs.blockSize) volume

/-! ## Group descriptors -/

variable (group : Nat)

def groupDescAt : Nat := fs.groupDescOff + group * fs.descSize

/-- A descriptor of 64 bytes, the upper half zero where it is not on the disk. -/
def readGroupDesc : Ext4M (List UInt8) := do
  let buf ← readBytesAt (fs.groupDescAt group) fs.descSize
  pure (resize 64 buf)

def writeGroupDesc (desc : List UInt8) : Ext4M Unit :=
  writeBytesAt (fs.groupDescAt group) (desc.take fs.descSize)

def splitBlock (desc : List UInt8) (low high : Nat) : Nat :=
  readLe32 desc low + readLe32 desc high * 4294967296

def groupBlockBitmap : Ext4M Nat := do
  let desc ← fs.readGroupDesc group
  pure (splitBlock desc 0 32)

def groupInodeBitmap : Ext4M Nat := do
  let desc ← fs.readGroupDesc group
  pure (splitBlock desc 4 36)

def groupInodeTable : Ext4M Nat := do
  let desc ← fs.readGroupDesc group
  pure (splitBlock desc 8 40)

/-- `bg_free_blocks_count`. -/
def freeBlocksCount (desc : List UInt8) : Nat := readLe16 desc 12 + readLe16 desc 44 * 65536

/-! ## Block allocation -/

/-- The superblock of the mount with one free block less. -/
def sbCopy : List UInt8 := overwrite fs.sb 12 (le32 (readLe32 fs.sb 12 - 1))

def allocInGroup : Ext4M (Option Nat) := do
  let desc ← fs.readGroupDesc group
  let free := freeBlocksCount desc
  if free = 0 then pure none
  else do
    let bitmapBlock ← fs.groupBlockBitmap group
    let bitmap ← fs.readBlock bitmapBlock
    match ByteBitmap.firstClear bitmap with
    | none => pure none
    | some index => do
        fs.writeBlock bitmapBlock (ByteBitmap.set bitmap index)
        fs.writeGroupDesc group (overwrite desc 12 (le16 (free - 1)))
        let _ ← Procedure.attempt (writeBytesAt 1024 fs.sbCopy)
        pure (some (group * fs.blocksPerGroup + index + fs.firstDataBlock))

def allocInGroups : List Nat → Ext4M Nat
  | [] => .fail .enospc
  | group :: rest => do
      match ← fs.allocInGroup group with
      | some block => pure block
      | none => allocInGroups rest

def allocBlock : Ext4M Nat := fs.allocInGroups (List.range fs.numGroups)

/-- The counts of free blocks stay as they are. -/
def freeBlock (block : Nat) : Ext4M Unit := do
  let index := Word.sub block fs.firstDataBlock
  let bitmapBlock ← fs.groupBlockBitmap (index / fs.blocksPerGroup % 4294967296)
  let bitmap ← fs.readBlock bitmapBlock
  fs.writeBlock bitmapBlock (ByteBitmap.clear bitmap (index % fs.blocksPerGroup))

/-! ## Inode allocation -/

/-- The lowest free inode of a bitmap, among the inodes of the group. -/
def firstFreeInode (bitmap : List UInt8) : Option Nat :=
  (List.range fs.inodesPerGroup).find? fun index => !ByteBitmap.test bitmap index

def allocInodeInGroup (isDir : Bool) (group : Nat) : Ext4M (Option Nat) := do
  let desc ← fs.readGroupDesc group
  if readLe16 desc 14 = 0 then pure none
  else do
    let bitmapBlock ← fs.groupInodeBitmap group
    let bitmap ← fs.readBlock bitmapBlock
    match fs.firstFreeInode bitmap with
    | none => pure none
    | some index => do
        fs.writeBlock bitmapBlock (ByteBitmap.set bitmap index)
        let counted := overwrite desc 14 (le16 (readLe16 desc 14 - 1))
        fs.writeGroupDesc group
          (if isDir then overwrite counted 16 (le16 (readLe16 counted 16 + 1)) else counted)
        pure (some ((group * fs.inodesPerGroup + index + 1) % 4294967296))

def allocInodeInGroups (isDir : Bool) : List Nat → Ext4M Nat
  | [] => .fail .enospc
  | group :: rest => do
      match ← fs.allocInodeInGroup isDir group with
      | some ino => pure ino
      | none => allocInodeInGroups isDir rest

def allocInode (isDir : Bool) : Ext4M Nat := fs.allocInodeInGroups isDir (List.range fs.numGroups)

def freeInode (ino : Nat) : Ext4M Unit := do
  let group := (ino - 1) / fs.inodesPerGroup
  let bitmapBlock ← fs.groupInodeBitmap group
  let bitmap ← fs.readBlock bitmapBlock
  fs.writeBlock bitmapBlock (ByteBitmap.clear bitmap ((ino - 1) % fs.inodesPerGroup))
  let desc ← fs.readGroupDesc group
  fs.writeGroupDesc group (overwrite desc 14 (le16 (readLe16 desc 14 + 1)))

end Ext4Fs

end Qunix.Fs.Ext4
