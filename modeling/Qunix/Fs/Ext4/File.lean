import Qunix.Fs.Ext4.Directory

/-! # ext4 files

`read_file`, `write_file` and `truncate_file` of `fs/ext4/mod.rs`. The loops go from
block to block; every turn handles at least one byte, so the number of bytes bounds the
turns. A call that changes the inode returns it as it is left.
-/

namespace Qunix.Fs.Ext4

open Foundation Bytes FlatArray

namespace Ext4Fs

variable (fs : Ext4Fs)

def chunkSize (position remaining : Nat) : Nat :=
  min (fs.blockSize - position % fs.blockSize) remaining

/-! ## Reading -/

def readChunk (inode : Inode) (position count : Nat) : Ext4M (List UInt8) := do
  match ← fs.getBlock inode (position / fs.blockSize) with
  | none => pure (List.replicate count 0)
  | some phys => readBytesAt (phys * fs.blockSize + position % fs.blockSize) count

def readLoop (inode : Inode) : (turns position remaining : Nat) → Ext4M (List UInt8)
  | 0, _, _ => pure []
  | turns + 1, position, remaining =>
    if remaining = 0 then pure []
    else do
      let count := fs.chunkSize position remaining
      let chunk ← fs.readChunk inode position count
      let rest ← readLoop inode turns (position + count) (remaining - count)
      pure (chunk ++ rest)

/-- Read into a buffer of `length` bytes. -/
def readFile (inode : Inode) (length offset : Nat) : Ext4M (List UInt8) :=
  if inode.size ≤ offset then pure []
  else
    let toRead := min length (inode.size - offset)
    fs.readLoop inode toRead offset toRead

/-! ## Writing -/

/-- The block of a logical block, a new one for a hole. -/
def blockForWrite (ino : Nat) (inode : Inode) (logical : Nat) : Ext4M (Nat × Inode) := do
  match ← fs.getBlock inode logical with
  | some phys => pure (phys, inode)
  | none => fs.mapNewBlock ino inode logical

/-- A whole block is written at once, a part of one by reading the block first. -/
def writeChunk (phys blkOff : Nat) (chunk : List UInt8) : Ext4M Unit :=
  if blkOff = 0 ∧ chunk.length = fs.blockSize then
    writeBytesAt (phys * fs.blockSize + blkOff) chunk
  else do
    let block ← fs.readBlock phys
    fs.writeBlock phys (overwrite block blkOff chunk)

def writeLoop (ino : Nat) : (turns : Nat) → Inode → (position : Nat) → List UInt8 → Ext4M Inode
  | 0, inode, _, _ => pure inode
  | turns + 1, inode, position, data =>
    if data = [] then pure inode
    else do
      let count := fs.chunkSize position data.length
      let (phys, inode) ← fs.blockForWrite ino inode (position / fs.blockSize)
      fs.writeChunk phys (position % fs.blockSize) (data.take count)
      writeLoop ino turns inode (Word.add position count) (data.drop count)

def writeFile (ino : Nat) (inode : Inode) (data : List UInt8) (offset : Nat) : Ext4M Inode := do
  let inode ← fs.writeLoop ino data.length inode offset data
  let inode := inode.setSize (max (Word.add offset data.length) inode.size)
  fs.writeInode ino inode
  pure inode

/-! ## Truncation -/

/-- `(size + block_size - 1) / block_size`. -/
def blocksFor (size : Nat) : Nat := Word.sub (Word.add size fs.blockSize) 1 / fs.blockSize

/-- Free the mapped blocks of a list. The map keeps them, and failures are ignored. -/
def freeBlocks (inode : Inode) : List Nat → Ext4M Unit
  | [] => pure ()
  | logical :: rest => do
      match ← Procedure.attempt (fs.getBlock inode logical) with
      | .ok (some phys) => do
          let _ ← Procedure.attempt (fs.freeBlock phys)
          freeBlocks inode rest
      | _ => freeBlocks inode rest

/-- A file that does not grow gives up the blocks behind its new end. -/
def freeTail (inode : Inode) (size : Nat) : Ext4M Unit :=
  if inode.size < size then pure ()
  else
    fs.freeBlocks inode (List.range' (fs.blocksFor size)
      (fs.blocksFor inode.size - fs.blocksFor size))

def truncateFile (ino : Nat) (inode : Inode) (size : Nat) : Ext4M Inode := do
  fs.freeTail inode size
  let inode := inode.setSize size
  fs.writeInode ino inode
  pure inode

/-! ## Calls on an inode -/

def read (ino length offset : Nat) : Ext4M (List UInt8) := do
  let inode ← fs.readInode ino
  fs.readFile inode length offset

def write (ino : Nat) (data : List UInt8) (offset : Nat) : Ext4M Unit := do
  let inode ← fs.readInode ino
  let _ ← fs.writeFile ino inode data offset
  pure ()

def truncate (ino size : Nat) : Ext4M Unit := do
  let inode ← fs.readInode ino
  let _ ← fs.truncateFile ino inode size
  pure ()

end Ext4Fs

/-! ## Creating and removing files

The operations of a directory inode. Owners, times, versions and generations of inodes
are not modelled, their fields are zero here.
-/

/-- `EXT4_INODE_FLAG_EXTENTS`. -/
def extentsFlag : Nat := 0x80000

def emptyRoot : List UInt8 := le16 Ext4Fs.extentMagic ++ le16 0 ++ le16 4 ++ le16 0

def newInode (mode size flags : Nat) (root : List UInt8) : Inode :=
  let zero : Inode := ⟨List.replicate 160 0, Inode.length_zeroed⟩
  let withMode := zero.patch 0 (le16 mode) (Inode.mode_inside mode)
  let withSize := withMode.patch 4 (le32 size) (Inode.size_inside size)
  let withFlags := withSize.patch 32 (le32 flags) (Inode.flags_inside flags)
  (withFlags.setLinksCount 1).setIBlock root

namespace Ext4Fs

variable (fs : Ext4Fs)

def create (dirIno : Nat) (name : List UInt8) (mode : Nat) : Ext4M Nat := do
  let ino ← fs.allocInode false
  fs.writeInode ino (newInode (mode &&& 0x1FFF ||| 0x8000) 0 extentsFlag emptyRoot)
  let dirInode ← fs.readInode dirIno
  let _ ← fs.dirAddEntry dirIno dirInode ino name 1
  pure ino

/-- Without links the blocks of an inode up to its size are freed, and then the inode. -/
def release (ino : Nat) (child : Inode) : Ext4M Unit :=
  if child.linksCount = 0 then do
    fs.freeBlocks child (List.range (fs.blocksFor child.size))
    fs.freeInode ino
  else pure ()

def unlink (dirIno : Nat) (name : List UInt8) : Ext4M Unit := do
  let dirInode ← fs.readInode dirIno
  let ino ← fs.dirLookupIno dirInode name
  let child ← fs.readInode ino
  if child.isDir then .fail .eisdir
  else do
    fs.dirRemoveEntry dirInode name
    let child := child.setLinksCount (child.linksCount - 1)
    fs.writeInode ino child
    fs.release ino child

/-- The inode of a new link: up to 60 bytes of the target are kept in `i_block`, more are
written to blocks. -/
def linkInode (ino : Nat) (target : List UInt8) : Ext4M Inode :=
  if target.length ≤ 60 then pure (newInode 0xA1FF target.length 0 target)
  else do
    fs.writeInode ino (newInode 0xA1FF target.length extentsFlag emptyRoot)
    let inode ← fs.readInode ino
    let _ ← fs.writeFile ino inode target 0
    fs.readInode ino

def symlink (dirIno : Nat) (name target : List UInt8) : Ext4M Nat := do
  let ino ← fs.allocInode false
  let inode ← fs.linkInode ino target
  fs.writeInode ino inode
  let dirInode ← fs.readInode dirIno
  let _ ← fs.dirAddEntry dirIno dirInode ino name 7
  pure ino

end Ext4Fs

end Qunix.Fs.Ext4
