import Qunix.Fs.Ext4.Inode

/-! # ext4 directories

`dir_read_entries`, `dir_add_entry` and `dir_remove_entry` of `fs/ext4/mod.rs`. A
directory block is a chain of records, each with the distance to the next one. Names are
bytes here: the kernel turns them into strings with replacement characters for bytes
that are not UTF-8.
-/

namespace Qunix.Fs.Ext4

open Foundation Bytes FlatArray

structure DirEntry where
  name : List UInt8
  ino : Nat
  fileType : UInt8
deriving DecidableEq

/-! ## Records in a block -/

variable (block : List UInt8) (bpos : Nat)

def recIno : Nat := readLe32 block bpos

def recLen : Nat := readLe16 block (bpos + 4)

def recNameLen : Nat := byteAt block (bpos + 6)

def recFileType : UInt8 := block.getD (bpos + 7) 0

def recName : List UInt8 :=
  (block.drop (bpos + 8)).take (recNameLen block bpos)

def align4 (length : Nat) : Nat := (length + 3) / 4 * 4

def entrySize (nameLen : Nat) : Nat := align4 (8 + nameLen)

def recEntry : Option DirEntry :=
  if recIno block bpos ≠ 0 ∧ 0 < recNameLen block bpos ∧
      bpos + 8 + recNameLen block bpos ≤ block.length then
    some ⟨recName block bpos, recIno block bpos, recFileType block bpos⟩
  else none

/-- The entries of a block from a record on. Every turn advances by eight bytes or more,
so the length of the block bounds the turns. -/
def readRecords (block : List UInt8) : (turns bpos : Nat) → List DirEntry
  | 0, _ => []
  | turns + 1, bpos =>
    if bpos + 8 ≤ block.length then
      if recLen block bpos < 8 ∨ block.length < bpos + recLen block bpos then []
      else
        (recEntry block bpos).toList ++ readRecords block turns (bpos + recLen block bpos)
    else []

/-- A record as `dir_add_entry` writes it, up to its name. -/
def recordBytes (ino recLen : Nat) (name : List UInt8) (fileType : UInt8) : List UInt8 :=
  le32 ino ++ le16 recLen ++ [UInt8.ofNat name.length, fileType] ++ name

/-- Put a record behind the record of a position, or in its place if it is unused. The
new record gets the whole rest of the block. -/
def placeRecord (bpos ino : Nat) (name : List UInt8) (fileType : UInt8) :
    List UInt8 :=
  if recIno block bpos = 0 then
    overwrite block bpos (recordBytes ino (block.length - bpos) name fileType)
  else
    let actual := entrySize (recNameLen block bpos)
    overwrite (overwrite block (bpos + 4) (le16 actual)) (bpos + actual)
      (recordBytes ino (block.length - (bpos + actual)) name fileType)

/-- The slack of a record. The subtraction wraps. -/
def slack : Nat :=
  Word.sub (recLen block bpos)
    (if recIno block bpos = 0 then 0 else entrySize (recNameLen block bpos))

def findRecord (block : List UInt8) (accept : Nat → Bool) : (turns bpos : Nat) → Option Nat
  | 0, _ => none
  | turns + 1, bpos =>
    if bpos + 8 ≤ block.length then
      if recLen block bpos < 8 then none
      else if accept bpos then some bpos
      else findRecord block accept turns (bpos + recLen block bpos)
    else none

def findSlack (needed : Nat) : Option Nat :=
  findRecord block (fun bpos => needed ≤ slack block bpos) block.length 0

def findName (name : List UInt8) : Option Nat :=
  findRecord block (fun bpos => recIno block bpos ≠ 0 ∧ recNameLen block bpos = name.length ∧
    recName block bpos = name) block.length 0

/-- Unuse the record of a position. The length of the record goes to the record that
would precede it if both had one length. -/
def removeRecord : List UInt8 :=
  let cleared := overwrite block bpos (le32 0)
  if 0 < bpos then
    let prev := bpos - recLen block bpos
    overwrite cleared (prev + 4) (le16 (recLen cleared prev + recLen block bpos))
  else cleared

namespace Ext4Fs

variable (fs : Ext4Fs)

/-! ## Directories -/

def dirBlocks (size : Nat) : Nat := (size + fs.blockSize - 1) / fs.blockSize

def dirReadBlocks (inode : Inode) : List Nat → Ext4M (List DirEntry)
  | [] => pure []
  | logical :: rest => do
      match ← fs.getBlock inode logical with
      | none => dirReadBlocks inode rest
      | some phys => do
          let block ← fs.readBlock phys
          let later ← dirReadBlocks inode rest
          pure (readRecords block block.length 0 ++ later)

def dirReadEntries (inode : Inode) : Ext4M (List DirEntry) :=
  fs.dirReadBlocks inode (List.range (fs.dirBlocks inode.size))

def dirLookupIno (inode : Inode) (name : List UInt8) : Ext4M Nat := do
  let entries ← fs.dirReadEntries inode
  match entries.find? fun entry => entry.name = name with
  | some entry => pure entry.ino
  | none => .fail .enoent

/-- Add an entry to the first block of a list that has room for it. -/
def dirAddInBlocks (inode : Inode) (ino : Nat) (name : List UInt8) (fileType : UInt8) :
    List Nat → Ext4M Bool
  | [] => pure false
  | logical :: rest => do
      match ← fs.getBlock inode logical with
      | none => dirAddInBlocks inode ino name fileType rest
      | some phys => do
          let block ← fs.readBlock phys
          match findSlack block (entrySize name.length) with
          | some bpos => do
              fs.writeBlock phys (placeRecord block bpos ino name fileType)
              pure true
          | none => dirAddInBlocks inode ino name fileType rest

/-- The inode comes back as `dir_add_entry` leaves it. -/
def dirAddEntry (dirIno : Nat) (inode : Inode) (ino : Nat) (name : List UInt8)
    (fileType : UInt8) : Ext4M Inode := do
  let added ← fs.dirAddInBlocks inode ino name fileType (List.range (fs.dirBlocks inode.size))
  if added then pure inode
  else do
    let (phys, inode) ← fs.mapNewBlock dirIno inode (inode.size / fs.blockSize)
    fs.writeBlock phys (overwrite (List.replicate fs.blockSize 0) 0
      (recordBytes ino fs.blockSize name fileType))
    let inode := inode.setSize (inode.size + fs.blockSize)
    fs.writeInode dirIno inode
    pure inode

def dirRemoveInBlocks (inode : Inode) (name : List UInt8) : List Nat → Ext4M Unit
  | [] => .fail .enoent
  | logical :: rest => do
      match ← fs.getBlock inode logical with
      | none => dirRemoveInBlocks inode name rest
      | some phys => do
          let block ← fs.readBlock phys
          match findName block name with
          | some bpos => fs.writeBlock phys (removeRecord block bpos)
          | none => dirRemoveInBlocks inode name rest

def dirRemoveEntry (inode : Inode) (name : List UInt8) : Ext4M Unit :=
  fs.dirRemoveInBlocks inode name (List.range (fs.dirBlocks inode.size))

end Ext4Fs

end Qunix.Fs.Ext4
