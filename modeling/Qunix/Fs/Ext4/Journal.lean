import Qunix.Fs.Ext4.Disk

/-! # The ext4 journal

`fs/ext4/journal.rs`: transactions of block writes, their records in the log, and
the replay of the log after a crash.
-/

namespace Qunix.Fs.Ext4

open Foundation Bytes

def journalMagic : Nat := 0xC03B3998

def descriptorType : Nat := 1

def commitType : Nat := 2

def superblockType : Nat := 4

def revokeType : Nat := 5

def sameUuidFlag : Nat := 2

def lastTagFlag : Nat := 8

def tagSize : Nat := 12

/-- ext4 blocks have `1024 << s_log_block_size` bytes. -/
structure BlockSize where
  bytes : Nat
  large : 1024 ≤ bytes

/-- The buffered writes, by increasing block number, and the freed blocks. -/
structure Transaction where
  sequence : Nat
  blocks : List (Nat × List UInt8)
  revoked : List Nat

namespace Transaction

def new (sequence : Nat) : Transaction := ⟨sequence, [], []⟩

/-- `BTreeMap::insert`. -/
def insertBlock (fsBlock : Nat) (data : List UInt8) :
    List (Nat × List UInt8) → List (Nat × List UInt8)
  | [] => [(fsBlock, data)]
  | (other, old) :: rest =>
    if fsBlock < other then (fsBlock, data) :: (other, old) :: rest
    else if fsBlock = other then (fsBlock, data) :: rest
    else (other, old) :: insertBlock fsBlock data rest

def addBlock (self : Transaction) (fsBlock : Nat) (data : List UInt8) : Transaction :=
  { self with blocks := insertBlock fsBlock data self.blocks }

end Transaction

structure Journal where
  journalStart : Nat
  journalLen : Nat
  blockSize : BlockSize
  nextSeq : Nat
  /-- The next position to write, counted from the start of the log. -/
  head : Nat
  tailSeq : Nat
  current : Option Transaction
  checkpoints : Nat → Option (List (Nat × Nat))

namespace Journal

/-! ## Records -/

def blockHeader (blockType sequence : Nat) : List UInt8 :=
  be32 journalMagic ++ be32 blockType ++ be32 sequence

def tagFlags (index count : Nat) : Nat :=
  (if 0 < index then sameUuidFlag else 0) + (if index + 1 = count then lastTagFlag else 0)

def tag (fsBlock flags : Nat) : List UInt8 :=
  be32 fsBlock ++ be16 flags ++ be16 (fsBlock / 4294967296) ++ be32 0

/-- The tags from a block index and an offset on; the loop stops when the
descriptor is full. The first tag has room for a UUID after it. -/
def tags (blockSize count : Nat) : (index offset : Nat) → List Nat → List UInt8
  | _, _, [] => []
  | index, offset, fsBlock :: rest =>
    if offset + tagSize > blockSize then []
    else if 0 < index then
      tag fsBlock (tagFlags index count) ++
        tags blockSize count (index + 1) (offset + tagSize) rest
    else
      tag fsBlock (tagFlags index count) ++ List.replicate 16 0 ++
        tags blockSize count (index + 1) (offset + tagSize + 16) rest

variable (blockSize : Nat) (txn : Transaction)

def descriptorBlock : Block :=
  resize blockSize (blockHeader descriptorType txn.sequence ++
    tags blockSize txn.blocks.length 0 12 (txn.blocks.map Prod.fst))

/-- Data that starts with the magic number loses it. -/
def dataBlock (data : List UInt8) : Block :=
  let data := resize blockSize data
  if 4 ≤ data.length ∧ readBe32 data 0 = journalMagic then be32 0 ++ data.drop 4 else data

def revokeBlock : Block :=
  resize blockSize (blockHeader revokeType txn.sequence ++
    be32 (min (12 + txn.revoked.length * 8) blockSize) ++
    (txn.revoked.take ((blockSize - 16) / 8)).flatMap be64)

def commitBlock : Block :=
  resize blockSize (blockHeader commitType txn.sequence ++
    le32 (crc32c 0xFFFFFFFF (blockHeader commitType txn.sequence)))

/-- The records of a transaction, in the order in which they are written. -/
def records : List Block :=
  descriptorBlock blockSize txn :: txn.blocks.map (fun block => dataBlock blockSize block.2) ++
    (if txn.revoked.isEmpty then [] else [revokeBlock blockSize txn]) ++
    [commitBlock blockSize txn]

variable (self : Journal)

/-- The superblock of the journal before its checksum is filled in. -/
def superblockFields : List UInt8 :=
  be32 journalMagic ++ be32 superblockType ++ be32 0 ++ be32 self.blockSize.bytes ++
    be32 self.journalLen ++ be32 1 ++ be32 self.journalLen ++ be32 self.head ++ be32 0 ++
    List.replicate 48 0 ++ be32 self.tailSeq

def superblock : Block :=
  resize self.blockSize.bytes (self.superblockFields ++
    le32 (crc32c 0xFFFFFFFF (resize 1020 self.superblockFields)))

/-! ## Construction -/

variable (disk : Disk)

def new (journalStart : Nat) (blockSize : BlockSize) : Option Journal := do
  let buf ← disk.read journalStart
  if readBe32 buf 0 ≠ journalMagic then none
  else
    let tailSeq := max (readBe32 buf 84) 1
    some {
      journalStart := journalStart
      journalLen := readBe32 buf 16
      blockSize := blockSize
      nextSeq := tailSeq
      head := readBe32 buf 28
      tailSeq := tailSeq
      current := none
      checkpoints := fun _ => none }

/-! ## Transactions -/

/-- Nothing on a nested transaction, where the kernel panics. -/
def begin : Option Journal :=
  match self.current with
  | some _ => none
  | none => some { self with
      nextSeq := (self.nextSeq + 1) % 2 ^ 32
      current := some (Transaction.new self.nextSeq) }

/-- Buffer a block write. Without a transaction it goes to the disk at once, and
data shorter than a block leaves the rest of the block. -/
def write (fsBlock : Nat) (data : List UInt8) : Journal × Disk :=
  match self.current with
  | some txn => ({ self with current := some (txn.addBlock fsBlock data) }, disk)
  | none => (self, (disk.write fsBlock (data ++ (disk.blocks fsBlock).drop data.length)).getD disk)

def advancePos (pos : Nat) : Nat :=
  if (pos + 1) % 2 ^ 32 ≥ self.journalLen then 0 else (pos + 1) % 2 ^ 32

/-- Where `write_journal_block` puts a record. -/
def recordBlock (pos : Nat) : Nat := self.journalStart + 1 + pos

def logWrites (self : Journal) : (pos : Nat) → List Block → List (Nat × Block)
  | _, [] => []
  | pos, record :: rest =>
    (self.recordBlock pos, record) :: self.logWrites (self.advancePos pos) rest

def advanceBy (self : Journal) : (pos count : Nat) → Nat
  | pos, 0 => pos
  | pos, count + 1 => self.advanceBy (self.advancePos pos) count

def writeAll (disk : Disk) : List (Nat × Block) → Bool × Disk
  | [] => (true, disk)
  | (block, data) :: rest =>
    match disk.write block data with
    | none => (false, disk)
    | some disk => writeAll disk rest

/-- A failed write of the superblock is ignored. -/
def flushJournalSuperblock : Disk :=
  (disk.write self.journalStart self.superblock).getD disk

/-- The journal without the checkpoint of a transaction. -/
def advanceTail (sequence : Nat) : Journal :=
  { self with
    checkpoints := Function.update self.checkpoints sequence none
    tailSeq := if sequence = self.tailSeq then (sequence + 1) % 2 ^ 32 else self.tailSeq }

/-- Drop the checkpoint and advance the tail. The data is not copied anywhere. -/
def checkpointTransaction (sequence : Nat) : Journal × Disk :=
  match self.checkpoints sequence with
  | none => (self, disk)
  | some _ =>
    (self.advanceTail sequence, (self.advanceTail sequence).flushJournalSuperblock disk)

def checkpointPairs (self : Journal) : (pos : Nat) → List Nat → List (Nat × Nat)
  | _, [] => []
  | pos, fsBlock :: rest =>
    (fsBlock, pos + self.journalStart) :: self.checkpointPairs (self.advancePos pos) rest

def committed (self : Journal) (txn : Transaction) : Journal :=
  { self with
    current := none
    head := self.advanceBy self.head (records self.blockSize.bytes txn).length
    checkpoints := Function.update self.checkpoints txn.sequence
      (some (self.checkpointPairs (self.advancePos self.head) (txn.blocks.map Prod.fst))) }

/-- The answer is `false` when a write of the log failed. -/
def commit : Bool × Journal × Disk :=
  match self.current with
  | none => (true, self, disk)
  | some txn =>
    if txn.blocks.isEmpty && txn.revoked.isEmpty then (true, { self with current := none }, disk)
    else
      match writeAll disk (self.logWrites self.head (records self.blockSize.bytes txn)) with
      | (false, disk) => (false, { self with current := none }, disk)
      | (true, disk) =>
        let journal := self.committed txn
        let disk := journal.flushJournalSuperblock disk
        let checked := journal.checkpointTransaction disk txn.sequence
        (true, checked.1, checked.2)

/-! ## Recovery -/

/-- The tags of a descriptor from an offset on. Every turn advances the offset, so
the length of the buffer bounds the turns. -/
def parseTags (buf : Block) : (turns offset : Nat) → List (Nat × Nat)
  | 0, _ => []
  | turns + 1, offset =>
    if offset + tagSize ≤ buf.length then
      let fsBlock := readBe32 buf offset + readBe16 buf (offset + 6) * 4294967296
      let flags := readBe16 buf (offset + 4)
      let next := offset + tagSize
      if flags / lastTagFlag % 2 ≠ 0 then [(fsBlock, flags)]
      else if flags / sameUuidFlag % 2 = 0 then
        (fsBlock, flags) :: parseTags buf turns (next + 16)
      else (fsBlock, flags) :: parseTags buf turns next
    else []

def parseDescriptor (buf : Block) : List (Nat × Nat) := parseTags buf buf.length 12

/-- `(pos + 1) % self.journal_len` on 32 bits. -/
def nextPos (pos : Nat) : Nat := (pos + 1) % 2 ^ 32 % self.journalLen

def unescape (flags : Nat) (data : Block) : Block :=
  if flags % 2 ≠ 0 then be32 journalMagic ++ data.drop 4 else data

structure ScanState where
  pos : Nat
  tailSeq : Nat
  replayed : Nat
  disk : Disk

/-- Copy the blocks from a position on to their places. A failed read ends the
loop, a failed write is ignored. -/
def replay (self : Journal) (state : ScanState) : List (Nat × Nat) → ScanState
  | [] => state
  | (fsBlock, flags) :: rest =>
    match state.disk.read (self.journalStart + state.pos) with
    | none => state
    | some data =>
      self.replay { state with
        pos := self.nextPos state.pos
        replayed := (state.replayed + 1) % 2 ^ 32
        disk := (state.disk.write fsBlock (unescape flags data)).getD state.disk } rest

/-- How the scan of the log ends. It divides by the length of the log. -/
inductive Scan
  | finished (state : ScanState)
  | panicked

inductive ScanTurn
  | stop (scan : Scan)
  | next (state : ScanState)

/-- The end of a turn: stop after a full circle. -/
def endTurn (state : ScanState) : ScanTurn :=
  if self.journalLen = 0 then .stop .panicked
  else if state.pos = self.head then .stop (.finished state)
  else .next state

def scanTurn (state : ScanState) : ScanTurn :=
  match state.disk.read (self.journalStart + state.pos) with
  | none => .stop (.finished state)
  | some buf =>
    if readBe32 buf 0 ≠ journalMagic then .stop (.finished state)
    else if readBe32 buf 4 = descriptorType then
      self.endTurn
        (self.replay { state with pos := self.nextPos state.pos } (parseDescriptor buf))
    else if readBe32 buf 4 = commitType then
      self.endTurn { state with
        pos := self.nextPos state.pos
        tailSeq :=
          if state.tailSeq ≤ readBe32 buf 8 then (readBe32 buf 8 + 1) % 2 ^ 32
          else state.tailSeq }
    else if readBe32 buf 4 = revokeType then
      self.endTurn { state with pos := self.nextPos state.pos }
    else .stop (.finished state)

/-- The scan of the log, nothing if it takes more than `fuel` turns. -/
def scan (self : Journal) : (fuel : Nat) → ScanState → Option Scan
  | 0, _ => none
  | fuel + 1, state =>
    match self.scanTurn state with
    | .stop result => some result
    | .next state => self.scan fuel state

/-- Replay the log from its head. The answer is nothing on a panic. -/
def recover (fuel : Nat) (disk : Disk) : Option (Option (Journal × Disk)) :=
  (self.scan fuel ⟨self.head, self.tailSeq, 0, disk⟩).map fun
    | .panicked => none
    | .finished state =>
      let journal := { self with tailSeq := state.tailSeq }
      some (journal,
        if 0 < state.replayed then journal.flushJournalSuperblock state.disk else state.disk)

/-- Mount after a crash: attach to the journal and recover. A journal that cannot
be attached is not replayed. -/
def reboot (journalStart : Nat) (blockSize : BlockSize) (fuel : Nat) :
    Option (Option Disk) :=
  match new disk journalStart blockSize with
  | none => some (some disk)
  | some journal => (journal.recover fuel disk).map (·.map Prod.snd)

end Journal

end Qunix.Fs.Ext4
