import Qunix.Fs.Ext4.Journal

/-! # Crashes during a commit

A commit is a sequence of block writes. A crash keeps a prefix of them, and the
next mount replays the log.
-/

namespace Qunix.Fs.Ext4.Journal

open Foundation Bytes List Nat Option Disk

variable {self : Journal} {disk : Disk} {txn : Transaction}

def commitWrites (self : Journal) : List (Nat × Block) :=
  match self.current with
  | none => []
  | some txn =>
    if txn.blocks.isEmpty && txn.revoked.isEmpty then []
    else
      self.logWrites self.head (records self.blockSize.bytes txn) ++
        [(self.journalStart, (self.committed txn).superblock),
          (self.journalStart, ((self.committed txn).advanceTail txn.sequence).superblock)]

theorem writeAll_inside (writes : List (Nat × Block)) :
    ∀ disk : Disk, (∀ write ∈ writes, write.1 < disk.count) →
      writeAll disk writes = (true, disk.putAll writes) := by
  induction writes with
  | nil =>
    intro disk _
    rfl
  | cons write rest induction =>
    intro disk inside
    rw [writeAll, Disk.write, if_pos (inside write mem_cons_self)]
    exact induction _ fun other member => inside other (mem_cons_of_mem write member)

theorem flush_inside (self : Journal) (inside : self.journalStart < disk.count) :
    self.flushJournalSuperblock disk = disk.put self.journalStart self.superblock := by
  rw [flushJournalSuperblock, Disk.write, if_pos inside, getD_some]

theorem commit_disk (inside : ∀ write ∈ self.commitWrites, write.1 < disk.count) :
    (self.commit disk).2.2 = disk.putAll self.commitWrites := by
  rw [commitWrites] at inside ⊢
  rw [commit]
  cases current : self.current with
  | none => rfl
  | some txn =>
    rw [current] at inside
    simp only at inside ⊢
    split
    next => rfl
    next nonempty =>
    rw [if_neg nonempty] at inside
    have logInside := fun write member => inside write (mem_append_left _ member)
    have startInside : self.journalStart < disk.count :=
      inside (self.journalStart, (self.committed txn).superblock)
        (mem_append_right _ mem_cons_self)
    have recorded : (self.committed txn).checkpoints txn.sequence ≠ none := by
      simp [committed]
    rw [writeAll_inside _ disk logInside, putAll_append]
    simp only [checkpointTransaction]
    split
    next missing => exact absurd missing recorded
    have logged := putAll_count
      (self.logWrites self.head (records self.blockSize.bytes txn)) disk
    generalize disk.putAll _ = reached at logged ⊢
    rw [← logged] at startInside
    rw [@flush_inside reached (self.committed txn) startInside]
    exact @flush_inside (reached.put _ _) _ startInside

/-! ## Where the records go -/

theorem logWrites_append (first second : List Block) : ∀ pos,
    self.logWrites pos (first ++ second) =
      self.logWrites pos first ++ self.logWrites (self.advanceBy pos first.length) second := by
  induction first with
  | nil =>
    intro pos
    rfl
  | cons record rest induction =>
    intro pos
    rw [cons_append, logWrites, logWrites, induction, cons_append, length_cons, advanceBy]

variable {pos kept : Nat} {image : Disk}

section NoWrap

variable (short : self.journalLen ≤ 2 ^ 32)

include short

theorem advancePos_eq (inside : pos + 1 < self.journalLen) :
    self.advancePos pos = pos + 1 := by
  have small : (pos + 1) % 2 ^ 32 = pos + 1 := mod_eq_of_lt (by omega)
  rw [advancePos, small, if_neg (by omega)]

theorem advanceBy_eq (count : Nat) : ∀ {pos}, pos + count < self.journalLen →
    self.advanceBy pos count = pos + count := by
  induction count with
  | zero =>
    intro pos _
    rfl
  | succ count induction =>
    intro pos inside
    rw [advanceBy, advancePos_eq short (by omega), induction (by omega)]
    omega

theorem logWrites_block (records : List Block) : ∀ {pos}, pos + records.length < self.journalLen →
    ∀ write ∈ self.logWrites pos records,
      self.journalStart + pos < write.1 ∧
        write.1 ≤ self.journalStart + pos + records.length := by
  induction records with
  | nil => exact fun _ => forall_mem_nil _
  | cons record rest induction =>
    intro pos inside write member
    rw [length_cons] at inside ⊢
    rw [logWrites, mem_cons, advancePos_eq short (by omega)] at member
    rcases member with same | member
    · rw [same, recordBlock]
      omega
    · have bounds := induction (by omega) write member
      omega

theorem putAll_last (front : List Block) (record : Block)
    (inside : pos + (front.length + 1) < self.journalLen) :
    (disk.putAll (self.logWrites pos (front ++ [record]))).blocks
      (self.journalStart + (pos + (front.length + 1))) = record := by
  have place : self.recordBlock (pos + front.length) =
      self.journalStart + (pos + (front.length + 1)) := by
    rw [recordBlock]
    omega
  rw [logWrites_append, putAll_append, advanceBy_eq short front.length (by omega), logWrites, place]
  exact put_blocks_same ..

end NoWrap

/-! ## What recovery reads -/

def Record (block : Block) : Prop :=
  readBe32 block 0 = journalMagic ∧ (readBe32 block 4 = descriptorType ∨
    readBe32 block 4 = commitType ∨ readBe32 block 4 = revokeType)

def Passed (block : Block) : Prop :=
  readBe32 block 0 = journalMagic ∧
    (readBe32 block 4 = commitType ∨ readBe32 block 4 = revokeType)

theorem header_magic (blockType sequence : Nat) (rest : List UInt8) :
    readBe32 (blockHeader blockType sequence ++ rest) 0 = journalMagic := by
  rw [blockHeader]
  exact readBe32_be32 (by decide) _

theorem header_blockType {blockType : Nat} (small : blockType < 4294967296) (sequence : Nat)
    (rest : List UInt8) : readBe32 (blockHeader blockType sequence ++ rest) 4 = blockType := by
  rw [blockHeader]
  exact (readBe32_next _ 0).trans (readBe32_be32 small _)

theorem commitBlock_passed (self : Journal) (txn : Transaction) :
    Passed (commitBlock self.blockSize.bytes txn) := by
  have large := self.blockSize.large
  constructor
  · rw [commitBlock, readBe32_resize (by omega)]
    exact header_magic ..
  · left
    rw [commitBlock, readBe32_resize (by omega)]
    exact header_blockType (by decide) ..

theorem superblock_fields (self : Journal) (short : self.journalLen < 2 ^ 32)
    (inside : self.head < 2 ^ 32) :
    readBe32 self.superblock 0 = journalMagic ∧
      readBe32 self.superblock 16 = self.journalLen ∧ readBe32 self.superblock 28 = self.head := by
  have large := self.blockSize.large
  simp only [superblock]
  rw [readBe32_resize (by omega), readBe32_resize (by omega), readBe32_resize (by omega)]
  simp only [superblockFields, append_assoc]
  refine ⟨readBe32_be32 (by decide) _, ?_, ?_⟩
  · rw [readBe32_next _ 12, readBe32_next _ 8, readBe32_next _ 4, readBe32_next _ 0]
    exact readBe32_be32 short _
  · rw [readBe32_next _ 24, readBe32_next _ 20, readBe32_next _ 16, readBe32_next _ 12,
      readBe32_next _ 8, readBe32_next _ 4, readBe32_next _ 0]
    exact readBe32_be32 inside _

theorem superblock_not_record (self : Journal) : ¬Record self.superblock := by
  have large := self.blockSize.large
  intro record
  have isSuperblock : readBe32 self.superblock 4 = superblockType := by
    rw [superblock, readBe32_resize (by omega)]
    simp only [superblockFields, append_assoc]
    exact (readBe32_next _ 0).trans (readBe32_be32 (by decide) _)
  rw [Record, isSuperblock] at record
  exact absurd record.2 (by decide)

variable {state : ScanState}

variable {fuel journalStart : Nat} {blockSize : BlockSize} {journal : Journal}

/-- From a position on the scan ends, or comes to the last position, and meets no descriptor. -/
inductive Bare (self : Journal) (disk : Disk) (last : Nat) : (pos : Nat) → Prop
  | ends {pos : Nat}
      (quiet : ∀ block, disk.read (self.journalStart + pos) = some block → ¬Record block) :
      Bare self disk last pos
  | passes {pos : Nat} {block : Block}
      (found : disk.read (self.journalStart + pos) = some block) (passed : Passed block)
      (nonempty : self.journalLen ≠ 0)
      (later : self.nextPos pos ≠ last → Bare self disk last (self.nextPos pos)) :
      Bare self disk last pos

theorem scan_quiet
    (quiet : ∀ block, state.disk.read (self.journalStart + state.pos) = some block →
      ¬Record block) :
    self.scan (fuel + 1) state = some (.finished state) := by
  have stops : self.scanTurn state = .stop (.finished state) := by
    rw [scanTurn]
    split
    next => rfl
    next buf found =>
    have quiet := quiet buf found
    split
    next => rfl
    next isMagic =>
      rw [Decidable.not_not] at isMagic
      rw [if_neg fun same => quiet ⟨isMagic, .inl same⟩,
        if_neg fun same => quiet ⟨isMagic, .inr (.inl same)⟩,
        if_neg fun same => quiet ⟨isMagic, .inr (.inr same)⟩]
  rw [scan, stops]

theorem scanTurn_passed {block : Block}
    (found : state.disk.read (self.journalStart + state.pos) = some block)
    (passed : Passed block) :
    ∃ tailSeq, self.scanTurn state =
      self.endTurn { state with pos := self.nextPos state.pos, tailSeq := tailSeq } := by
  have others : commitType ≠ descriptorType ∧ revokeType ≠ descriptorType ∧
      revokeType ≠ commitType := by
    decide
  have isMagic : ¬readBe32 block 0 ≠ journalMagic := not_not_intro passed.1
  rw [scanTurn, found]
  simp only [if_neg isMagic]
  rcases passed.2 with isCommit | isRevoke
  · rw [isCommit, if_neg others.1, if_pos rfl]
    exact ⟨_, rfl⟩
  · rw [isRevoke, if_neg others.2.1, if_neg others.2.2, if_pos rfl]
    exact ⟨_, rfl⟩

theorem Bare.scan {last : Nat} (bare : self.Bare disk last pos)
    (stops : last = self.head ∨
      ∀ block, disk.read (self.journalStart + last) = some block → ¬Record block) :
    ∃ turns, ∀ fuel tailSeq, ∃ stop lastSeq, self.scan (turns + fuel) ⟨pos, tailSeq, 0, disk⟩ =
      some (.finished ⟨stop, lastSeq, 0, disk⟩) := by
  induction bare with
  | ends quiet =>
    refine ⟨1, fun fuel tailSeq => ?_⟩
    rw [Nat.add_comm]
    exact ⟨_, _, scan_quiet quiet⟩
  | @passes pos block found passed nonempty later induction =>
    have turn (fuel tailSeq : Nat) : ∃ nextSeq,
        self.scan (fuel + 1) ⟨pos, tailSeq, 0, disk⟩ =
          if self.nextPos pos = self.head then
            some (.finished ⟨self.nextPos pos, nextSeq, 0, disk⟩)
          else self.scan fuel ⟨self.nextPos pos, nextSeq, 0, disk⟩ := by
      rcases @scanTurn_passed self ⟨pos, tailSeq, 0, disk⟩ block found passed with
        ⟨nextSeq, turned⟩
      refine ⟨nextSeq, ?_⟩
      rw [Journal.scan, turned, endTurn, if_neg nonempty]
      by_cases circle : self.nextPos pos = self.head
      · simp [circle]
      · simp [circle]
    by_cases circle : self.nextPos pos = self.head
    · refine ⟨1, fun fuel tailSeq => ?_⟩
      rcases turn fuel tailSeq with ⟨nextSeq, turned⟩
      rw [Nat.add_comm, turned, if_pos circle]
      exact ⟨_, _, rfl⟩
    simp only [if_neg circle] at turn
    -- At the last position, which is not the head, there is no record.
    have rest : ∃ turns, ∀ fuel tailSeq, ∃ stop lastSeq,
        self.scan (turns + fuel) ⟨self.nextPos pos, tailSeq, 0, disk⟩ =
          some (.finished ⟨stop, lastSeq, 0, disk⟩) := by
      by_cases isLast : self.nextPos pos = last
      · refine ⟨1, fun fuel tailSeq => ?_⟩
        rw [Nat.add_comm, isLast]
        exact ⟨_, _, scan_quiet (stops.resolve_left (isLast ▸ circle))⟩
      · exact induction isLast
    rcases rest with ⟨turns, ended⟩
    refine ⟨turns + 1, fun fuel tailSeq => ?_⟩
    rcases turn (turns + fuel) tailSeq with ⟨nextSeq, turned⟩
    rw [add_right_comm, turned]
    exact ended fuel nextSeq

/-- The same blocks at the positions that are passed have no descriptor either. -/
theorem Bare.transfer {last : Nat} {mounted : Journal} {image : Disk}
    (bare : self.Bare disk last pos) (passing : Nat → Prop)
    (len : mounted.journalLen = self.journalLen) (inside : passing pos)
    (keeps : ∀ pos, passing pos → self.nextPos pos ≠ last → passing (self.nextPos pos))
    (same : ∀ pos, passing pos →
      image.read (mounted.journalStart + pos) = disk.read (self.journalStart + pos)) :
    mounted.Bare image last pos := by
  have next (pos : Nat) : mounted.nextPos pos = self.nextPos pos := by
    rw [nextPos, nextPos, len]
  induction bare with
  | ends quiet =>
    apply Bare.ends
    rw [same _ inside]
    exact quiet
  | passes found passed nonempty _ induction =>
    refine .passes ((same _ inside).trans found) passed (len ▸ nonempty) fun notLast => ?_
    rw [next] at notLast ⊢
    exact induction notLast (keeps _ inside notLast)

/-! ## Atomicity -/

def FsBlock (self : Journal) (block : Nat) : Prop :=
  block < self.journalStart ∨ self.journalStart + self.journalLen ≤ block

def AllOld (self : Journal) (before after : Disk) : Prop :=
  ∀ block, self.FsBlock block → after.blocks block = before.blocks block

/-- The transaction's blocks hold the transaction's data, the others are as before. -/
def AllNew (self : Journal) (txn : Transaction) (before after : Disk) : Prop :=
  (∀ write ∈ txn.blocks, after.blocks write.1 = resize self.blockSize.bytes write.2) ∧
    ∀ block, self.FsBlock block → block ∉ txn.blocks.map Prod.fst →
      after.blocks block = before.blocks block

/-- The disk after a crash that kept `count` writes of the commit. -/
def crashed (self : Journal) (disk : Disk) (count : Nat) : Disk :=
  disk.putAll (self.commitWrites.take count)

/-- After a crash anywhere in the commit, recovery ends and leaves the transaction
done or not begun. -/
def CrashAtomic (self : Journal) (disk : Disk) (txn : Transaction) : Prop :=
  ∀ count, ∃ turns after, (∀ fuel, turns ≤ fuel →
      reboot (self.crashed disk count) self.journalStart self.blockSize fuel = some (some after)) ∧
    (self.AllOld disk after ∨ self.AllNew txn disk after)

/-- The disk holds the whole journal, and its superblock has the head and the
length of the journal in memory. -/
structure Attached (journal : Journal) (disk : Disk) : Prop where
  inside : journal.journalStart + journal.journalLen ≤ disk.count
  superblock : ∃ onDisk, new disk journal.journalStart journal.blockSize = some onDisk ∧
    onDisk.head = journal.head ∧ onDisk.journalLen = journal.journalLen

/-- The records do not reach the end of the log, and the scan that passes over the new commit
record meets no descriptor behind it. The position 0 is the superblock. -/
structure Quiet (journal : Journal) (disk : Disk) (txn : Transaction) : Prop where
  fits : journal.head + (records journal.blockSize.bytes txn).length < journal.journalLen
  behind : journal.head + (records journal.blockSize.bytes txn).length + 1 < journal.journalLen →
    journal.Bare disk 0 (journal.head + (records journal.blockSize.bytes txn).length + 1)

/-- No crash lets the scan come to a descriptor. An empty transaction writes nothing, and the
scan finds what was there; otherwise it has to end where it starts, in front of the new
descriptor. -/
def Unread (journal : Journal) (disk : Disk) (txn : Transaction) : Prop :=
  if txn.blocks.isEmpty && txn.revoked.isEmpty then journal.Bare disk journal.head journal.head
  else journal.Quiet disk txn ∧ ¬Record (disk.blocks (journal.journalStart + journal.head))

theorem new_exists {buf : Block} (blockSize : BlockSize)
    (found : disk.read journalStart = some buf) (isMagic : readBe32 buf 0 = journalMagic) :
    ∃ journal, new disk journalStart blockSize = some journal ∧
      journal.journalStart = journalStart ∧ journal.journalLen = readBe32 buf 16 ∧
      journal.head = readBe32 buf 28 := by
  rw [new, found, bind_eq_bind, bind_some, if_neg fun different => different isMagic]
  exact ⟨_, rfl, rfl, rfl, rfl⟩

theorem new_some (attached : new disk journalStart blockSize = some journal) :
    journalStart < disk.count ∧ readBe32 (disk.blocks journalStart) 0 = journalMagic ∧
      journal.journalStart = journalStart ∧
      journal.journalLen = readBe32 (disk.blocks journalStart) 16 ∧
      journal.head = readBe32 (disk.blocks journalStart) 28 := by
  simp only [new, bind_eq_bind, bind_eq_some_iff] at attached
  rcases attached with ⟨buf, found, rest⟩
  rw [Disk.read] at found
  split at found
  next inside =>
    rw [Option.some.injEq] at found
    rw [found]
    split at rest
    next => cases rest
    next isMagic =>
      rw [Decidable.not_not] at isMagic
      cases rest
      exact ⟨inside, isMagic, rfl, rfl, rfl⟩
  next => cases found

theorem reboot_bare {last : Nat} (attached : new disk journalStart blockSize = some journal)
    (bare : journal.Bare disk last journal.head)
    (stops : last = journal.head ∨
      ∀ block, disk.read (journal.journalStart + last) = some block → ¬Record block) :
    ∃ turns, ∀ fuel, turns ≤ fuel →
      reboot disk journalStart blockSize fuel = some (some disk) := by
  rcases bare.scan stops with ⟨turns, ended⟩
  refine ⟨turns, fun fuel enough => ?_⟩
  rcases Nat.exists_eq_add_of_le enough with ⟨extra, rfl⟩
  rcases ended extra journal.tailSeq with ⟨stop, lastSeq, scanned⟩
  rw [reboot, attached]
  simp only [recover, scanned, map_some, lt_irrefl, if_false]

theorem reboot_unlogged (attached : self.Attached disk) (bare : self.Bare image self.head self.head)
    (count : image.count = disk.count)
    (start : image.blocks self.journalStart = disk.blocks self.journalStart) :
    ∃ turns, ∀ fuel, turns ≤ fuel →
      reboot image self.journalStart self.blockSize fuel = some (some image) := by
  rcases attached.superblock with ⟨onDisk, found, sameHead, sameLen⟩
  rcases new_some found with ⟨inside, isMagic, _, len, head⟩
  rw [← start] at isMagic len head
  have read : image.read self.journalStart = some (image.blocks self.journalStart) := by
    rw [Disk.read, count, if_pos inside]
  rcases new_exists self.blockSize read isMagic with
    ⟨mounted, isMounted, mountedStart, mountedLen, mountedHead⟩
  have isHead : mounted.head = self.head := mountedHead.trans (head.symm.trans sameHead)
  have isLen : mounted.journalLen = self.journalLen := mountedLen.trans (len.symm.trans sameLen)
  refine reboot_bare isMounted ?_ (.inl rfl)
  rw [isHead]
  exact bare.transfer (fun _ => True) isLen trivial (fun _ _ _ => trivial)
    fun pos _ => by rw [mountedStart]

theorem Attached.short (attached : self.Attached disk) : self.journalLen < 2 ^ 32 := by
  rcases attached.superblock with ⟨onDisk, found, _, sameLen⟩
  rcases new_some found with ⟨_, _, _, len, _⟩
  rw [← sameLen, len]
  exact readBe32_lt ..

theorem reboot_logged (short : journal.journalLen < 2 ^ 32)
    (fits : journal.head < journal.journalLen)
    (inside : self.journalStart + journal.journalLen ≤ image.count)
    (start : image.blocks self.journalStart = journal.superblock)
    (sameStart : journal.journalStart = self.journalStart)
    (last : image.blocks (self.journalStart + journal.head) =
      commitBlock self.blockSize.bytes txn)
    (behind : journal.head + 1 < journal.journalLen →
      journal.Bare image 0 (journal.head + 1)) :
    ∃ turns, ∀ fuel, turns ≤ fuel →
      reboot image self.journalStart self.blockSize fuel = some (some image) := by
  rcases superblock_fields journal short (lt_trans fits short) with
    ⟨magicField, lenField, headField⟩
  have read (pos : Nat) (low : pos < journal.journalLen) :
      image.read (self.journalStart + pos) = some (image.blocks (self.journalStart + pos)) := by
    rw [Disk.read, if_pos (by omega)]
  have readStart : image.read self.journalStart = some journal.superblock := by
    rw [← start]
    exact read 0 (by omega)
  rcases new_exists self.blockSize readStart magicField with
    ⟨mounted, isMounted, mountedStart, mountedLen, mountedHead⟩
  rw [lenField] at mountedLen
  rw [headField] at mountedHead
  -- the position after the commit record, which may be the superblock again
  have nextPos_eq : mounted.nextPos journal.head =
      if journal.head + 1 = journal.journalLen then 0 else journal.head + 1 := by
    rw [nextPos, mountedLen, mod_eq_of_lt (lt_of_le_of_lt fits short)]
    split
    next full => exact full ▸ mod_self _
    next notFull => exact mod_eq_of_lt (lt_of_le_of_ne fits notFull)
  have bare : mounted.Bare image 0 mounted.head := by
    rw [mountedHead]
    refine .passes ?_ (commitBlock_passed self txn) (by omega) fun notStart => ?_
    · rw [mountedStart, read _ fits, last]
    · rw [nextPos_eq] at notStart ⊢
      split at notStart
      · exact absurd rfl notStart
      next notFull =>
        rw [if_neg notFull]
        exact (behind (by omega)).transfer (fun _ => True) mountedLen trivial
          (fun _ _ _ => trivial) fun pos _ => by rw [mountedStart, sameStart]
  refine reboot_bare isMounted bare (.inr fun block found => ?_)
  rw [mountedStart, add_zero, readStart] at found
  cases found
  exact superblock_not_record journal

theorem putAll_superblocks (journal next : Journal) (disk : Disk) {start : Nat} (some : 0 < kept) :
    ∃ last, (last = journal ∨ last = next) ∧
      (disk.putAll ([(start, journal.superblock), (start, next.superblock)].take kept)).blocks
        start = last.superblock ∧
      ∀ block, block ≠ start →
        (disk.putAll ([(start, journal.superblock), (start, next.superblock)].take kept)).blocks
          block = disk.blocks block := by
  cases kept with
  | zero => exact absurd some (lt_irrefl 0)
  | succ kept =>
    cases kept with
    | zero =>
      refine ⟨journal, .inl rfl, put_blocks_same .., ?_⟩
      intro block different
      exact put_blocks_other _ _ different
    | succ kept =>
      refine ⟨next, .inr rfl, ?_, ?_⟩
      · rw [take_of_length_le (by simp)]
        exact put_blocks_same ..
      · intro block different
        rw [take_of_length_le (by simp)]
        exact (put_blocks_other _ _ different).trans
          (put_blocks_other _ _ different)

section Commit

variable (attached : self.Attached disk) (quiet : self.Quiet disk txn)

include attached quiet

variable {write : Nat × Block}

theorem log_block (member : write ∈ self.logWrites self.head (records self.blockSize.bytes txn)) :
    self.journalStart + self.head < write.1 ∧ write.1 ≤ self.journalStart +
      (self.head + (records self.blockSize.bytes txn).length) := by
  have bounds := logWrites_block (le_of_lt attached.short) _ quiet.fits write member
  omega

theorem commitWrites_block (current : self.current = some txn)
    (member : write ∈ self.commitWrites) : ¬self.FsBlock write.1 := by
  have fits := quiet.fits
  rw [FsBlock]
  rw [commitWrites, current] at member
  simp only at member
  split at member
  next => cases member
  rcases mem_append.mp member with inLog | isSuperblock
  · have bounds := log_block attached quiet inLog
    omega
  · have same : write.1 = self.journalStart := by
      rw [mem_cons, mem_singleton] at isSuperblock
      rcases isSuperblock with same | same <;> rw [same]
    omega

theorem reboot_early (here : ¬Record (disk.blocks (self.journalStart + self.head)))
    (count : Nat) :
    let image := disk.putAll
      ((self.logWrites self.head (records self.blockSize.bytes txn)).take count)
    ∃ turns, ∀ fuel, turns ≤ fuel →
      reboot image self.journalStart self.blockSize fuel = some (some image) := by
  intro image
  have kept (block : Nat) (before : block ≤ self.journalStart + self.head) :
      image.blocks block = disk.blocks block := by
    apply putAll_blocks_other
    intro write member same
    have bounds := log_block attached quiet (mem_of_mem_take member)
    omega
  refine reboot_unlogged attached (.ends fun block found => ?_) (putAll_count ..)
    (kept _ (by omega))
  rw [Disk.read] at found
  split at found
  · cases found
    rw [kept _ le_rfl]
    exact here
  · cases found

theorem reboot_late (some : 0 < kept) :
    let image := (disk.putAll (self.logWrites self.head (records self.blockSize.bytes txn))).putAll
      ([(self.journalStart, (self.committed txn).superblock),
        (self.journalStart, ((self.committed txn).advanceTail txn.sequence).superblock)].take kept)
    ∃ turns, ∀ fuel, turns ≤ fuel →
      reboot image self.journalStart self.blockSize fuel = Option.some (Option.some image) := by
  intro image
  have short := attached.short
  have inside := attached.inside
  have fits := quiet.fits
  have behind := quiet.behind
  obtain ⟨front, split⟩ : ∃ front, records self.blockSize.bytes txn =
    front ++ [commitBlock self.blockSize.bytes txn] := ⟨_, rfl⟩
  have length : (records self.blockSize.bytes txn).length = front.length + 1 := by
    rw [split, length_append, length_singleton]
  rcases putAll_superblocks (self.committed txn) ((self.committed txn).advanceTail txn.sequence)
    (disk.putAll (self.logWrites self.head (records self.blockSize.bytes txn))) some with
    ⟨last, isLast, start, elsewhere⟩
  have lastHead : last.head = self.head + (front.length + 1) := by
    have advanced := advanceBy_eq (le_of_lt short) _ fits
    rcases isLast with same | same <;> rw [same] <;> exact length ▸ advanced
  have lastLen : last.journalLen = self.journalLen := by
    rcases isLast with same | same <;> rw [same] <;> rfl
  have lastStart : last.journalStart = self.journalStart := by
    rcases isLast with same | same <;> rw [same] <;> rfl
  have count : image.count = disk.count := by
    rw [putAll_count, putAll_count]
  rw [length] at fits behind
  -- Behind the commit record nothing has been written.
  have kept (pos : Nat) (later : self.head + (front.length + 1) < pos) :
      image.blocks (self.journalStart + pos) = disk.blocks (self.journalStart + pos) := by
    rw [elsewhere _ (by omega), putAll_blocks_other]
    intro write member same
    have bounds := log_block attached quiet member
    omega
  apply reboot_logged
  · exact lastLen ▸ short
  · rw [lastHead, lastLen]
    exact fits
  · rw [lastLen, count]
    exact inside
  · exact start
  · exact lastStart
  · rw [lastHead, elsewhere _ (by omega), split]
    exact putAll_last (le_of_lt short) front _ fits
  · rw [lastHead, lastLen]
    intro room
    refine (behind room).transfer
      (fun pos => self.head + (front.length + 1) < pos ∧ pos < self.journalLen)
      lastLen ⟨by omega, room⟩ (fun pos passing notStart => ?_) fun pos passing => ?_
    · have small : (pos + 1) % 2 ^ 32 = pos + 1 := mod_eq_of_lt (by omega)
      rw [nextPos, small] at notStart ⊢
      by_cases full : pos + 1 = self.journalLen
      · rw [full, mod_self] at notStart
        exact absurd rfl notStart
      · rw [mod_eq_of_lt (by omega)]
        omega
    · rw [Disk.read, Disk.read, lastStart, count, kept pos passing.1]

end Commit

/-- Where the scan comes to no descriptor, every crash leaves the file system as it was. -/
theorem crashAtomic_of_unread (attached : self.Attached disk) (current : self.current = some txn)
    (unread : self.Unread disk txn) : self.CrashAtomic disk txn := by
  intro count
  rw [crashed, commitWrites, current]
  simp only
  rw [Unread] at unread
  split at unread
  next nothing =>
    rw [if_pos nothing, take_nil]
    rcases reboot_unlogged attached unread rfl rfl with ⟨turns, ended⟩
    exact ⟨turns, disk, ended, .inl fun _ _ => rfl⟩
  next someWrites =>
    rcases unread with ⟨quiet, here⟩
    rw [if_neg someWrites, take_append, putAll_append]
    have old : self.AllOld disk (self.crashed disk count) := by
      intro block isFs
      apply putAll_blocks_other
      intro write member same
      exact commitWrites_block attached quiet current (mem_of_mem_take member) (same ▸ isFs)
    rw [crashed, commitWrites, current] at old
    simp only [if_neg someWrites, take_append, putAll_append] at old
    by_cases early : count ≤ (self.logWrites self.head (records self.blockSize.bytes txn)).length
    · rw [Nat.sub_eq_zero_of_le early] at old ⊢
      rcases reboot_early attached quiet here count with ⟨turns, ended⟩
      exact ⟨turns, _, ended, .inl old⟩
    · rw [take_of_length_le (le_of_lt (lt_of_not_ge early))] at old ⊢
      rcases reboot_late attached quiet (Nat.sub_pos_of_lt (lt_of_not_ge early)) with
        ⟨turns, ended⟩
      exact ⟨turns, _, ended, .inl old⟩

/-! ## The second transaction -/

theorem scan_mono {result : Scan} (fuel : Nat) : ∀ {state more}, fuel ≤ more →
    self.scan fuel state = some result → self.scan more state = some result := by
  induction fuel with
  | zero =>
    intro state more _ ended
    cases ended
  | succ fuel induction =>
    intro state more enough ended
    cases more with
    | zero => exact absurd enough (not_succ_le_zero fuel)
    | succ more =>
      rw [scan] at ended ⊢
      cases turn : self.scanTurn state with
      | stop scanned =>
        rw [turn] at ended
        exact ended
      | next reached =>
        rw [turn] at ended
        exact induction (le_of_succ_le_succ enough) ended

theorem reboot_mono {more : Nat} {result : Option Disk}
    (ended : reboot disk journalStart blockSize fuel = some result) (enough : fuel ≤ more) :
    reboot disk journalStart blockSize more = some result := by
  rw [reboot] at ended ⊢
  split
  next absent =>
    rw [absent] at ended
    exact ended
  next journal attached =>
    rw [attached] at ended
    simp only [recover, Option.map_map, map_eq_some_iff] at ended ⊢
    rcases ended with ⟨scanned, finished, same⟩
    exact ⟨scanned, scan_mono fuel enough finished, same⟩

instance {block : Block} : Decidable (Record block) := inferInstanceAs (Decidable (_ ∧ _))

def formatted : Journal where
  journalStart := 4
  journalLen := 8
  blockSize := ⟨1024, le_rfl⟩
  nextSeq := 1
  head := 0
  tailSeq := 1
  current := none
  checkpoints := fun _ => none

def formattedDisk : Disk where
  blocks := fun block =>
    if block = 4 then formatted.superblock
    else if block = 2 then List.replicate 1024 1
    else List.replicate 1024 0
  count := 16

def fillBlock (self : Journal) (byte : UInt8) : Journal :=
  ((self.begin.getD self).write formattedDisk 2 (List.replicate 1024 byte)).1

theorem formatted_attached (byte : UInt8) : (formatted.fillBlock byte).Attached formattedDisk := by
  have read : formattedDisk.read 4 = some formatted.superblock := rfl
  rcases superblock_fields formatted (by decide) (by decide) with ⟨isMagic, len, head⟩
  rcases new_exists ⟨1024, le_rfl⟩ read isMagic with
    ⟨mounted, isMounted, _, mountedLen, mountedHead⟩
  exact ⟨(by decide : 4 + 8 ≤ 16), mounted, isMounted, mountedHead.trans head, mountedLen.trans len⟩

theorem formatted_quiet (byte : UInt8) :
    (formatted.fillBlock byte).Quiet formattedDisk
      ⟨1, [(2, List.replicate 1024 byte)], []⟩ := by
  have next : ¬Record (formattedDisk.blocks 8) := by decide +kernel
  refine ⟨(by decide : 0 + 3 < 8), fun _ => .ends fun block found => ?_⟩
  cases (found : some (formattedDisk.blocks 8) = some block)
  exact next

/-- The first transaction of an empty journal. -/
theorem crashAtomic_of_unread_first :
    (formatted.fillBlock 2).CrashAtomic formattedDisk
      ⟨1, [(2, List.replicate 1024 2)], []⟩ := by
  have here : ¬Record (formattedDisk.blocks 4) := by decide +kernel
  exact crashAtomic_of_unread (formatted_attached 2) rfl ⟨formatted_quiet 2, here⟩

def secondFill : Journal := (((formatted.fillBlock 2).commit formattedDisk).2.1).fillBlock 3

def firstDisk : Disk := ((formatted.fillBlock 2).commit formattedDisk).2.2

/-- The crash comes after the descriptor of the second transaction. Recovery takes
the block after it for data, and block 2 is neither old nor new. -/
theorem crash_replays_uncommitted :
    secondFill.current = some ⟨2, [(2, List.replicate 1024 3)], []⟩ ∧
    (firstDisk.blocks 2).head? = some 1 ∧
    (reboot (secondFill.crashed firstDisk 1) 4 formatted.blockSize 4).map
      (fun after => after.map fun disk => (disk.blocks 2).head?) = some (some (some 0)) ∧
    ¬secondFill.CrashAtomic firstDisk ⟨2, [(2, List.replicate 1024 3)], []⟩ := by
  have before : (firstDisk.blocks 2).head? = some 1 := by decide +kernel
  have recovered : (reboot (secondFill.crashed firstDisk 1) 4 formatted.blockSize 4).map
      (fun after => after.map fun disk => (disk.blocks 2).head?) = some (some (some 0)) := by
    decide +kernel
  refine ⟨by rfl, before, recovered, ?_⟩
  intro atomic
  rcases atomic 1 with ⟨turns, after, ends, outcome⟩
  rw [map_eq_some_iff] at recovered
  rcases recovered with ⟨answer, ended, isZero⟩
  have same := (ends (max turns 4) (le_max_left ..)).symm.trans
    (reboot_mono ended (le_max_right ..))
  rw [← Option.some.inj same, map_some, Option.some.injEq] at isZero
  rcases outcome with old | new
  · have unchanged := old 2 (.inl (by decide))
    rw [unchanged, before] at isZero
    exact absurd isZero (by decide)
  · have written := new.1 (2, List.replicate 1024 3) mem_cons_self
    have three : (resize 1024 (List.replicate 1024 (3 : UInt8))).head? = some 3 := by rfl
    rw [written] at isZero
    exact absurd (isZero.symm.trans three) (by decide)

end Qunix.Fs.Ext4.Journal
