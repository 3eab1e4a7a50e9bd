import Qunix.Fs.Ext4.JournalCrash

/-! # What a commit leaves in the file system

A commit writes the log and the journal superblock. It leaves the copies to the
checkpoint and to recovery: the checkpoint copies nothing, and recovery starts behind
the transaction.
-/

namespace Qunix.Fs.Ext4.Journal

open Foundation Bytes List Nat Option Disk

variable {self : Journal} {disk : Disk} {txn : Transaction} {block : Nat}

/-! ## Blocks a commit does not write -/

theorem writeAll_other (writes : List (Nat × Block)) :
    ∀ disk : Disk, (∀ write ∈ writes, write.1 ≠ block) →
      (writeAll disk writes).2.blocks block = disk.blocks block := by
  induction writes with
  | nil =>
    intro disk _
    rfl
  | cons write rest induction =>
    intro disk others
    have different := others write List.mem_cons_self
    rw [writeAll, Disk.write]
    split
    next => rfl
    next reached written =>
    split at written
    next =>
      cases written
      rw [induction _ fun other member => others other (List.mem_cons_of_mem write member)]
      exact disk.put_blocks_other write.2 different.symm
    next => cases written

theorem flush_other (self : Journal) (disk : Disk) (different : block ≠ self.journalStart) :
    (self.flushJournalSuperblock disk).blocks block = disk.blocks block := by
  rw [flushJournalSuperblock, Disk.write]
  split
  next => exact disk.put_blocks_other _ different
  next => rfl

theorem checkpointTransaction_other (self : Journal) (disk : Disk) (sequence : Nat)
    (different : block ≠ self.journalStart) :
    (self.checkpointTransaction disk sequence).2.blocks block = disk.blocks block := by
  rw [checkpointTransaction]
  split
  next => rfl
  next => exact flush_other (self.advanceTail sequence) disk different

theorem logWrites_range (records : List Block) : ∀ {pos}, pos < self.journalLen →
    ∀ write ∈ self.logWrites pos records,
      self.journalStart < write.1 ∧ write.1 ≤ self.journalStart + self.journalLen := by
  induction records with
  | nil => exact fun _ => forall_mem_nil _
  | cons record rest induction =>
    intro pos inside
    refine forall_mem_cons.mpr ⟨?_, induction ?_⟩
    · rw [recordBlock]
      omega
    · rw [advancePos]
      split <;> omega

/-- Away from the journal and from the block after it, where the last position of the
log lies. -/
def Clear (self : Journal) (block : Nat) : Prop :=
  block < self.journalStart ∨ self.journalStart + self.journalLen < block

theorem commit_other (inside : self.head < self.journalLen) (clear : self.Clear block) :
    (self.commit disk).2.2.blocks block = disk.blocks block := by
  have different : block ≠ self.journalStart := by
    rw [Clear] at clear
    omega
  rw [commit]
  split
  next => rfl
  next txn _ =>
  split
  next => rfl
  have logged := @writeAll_other block
    (self.logWrites self.head (records self.blockSize.bytes txn)) disk (by
      intro write member
      have bounds := logWrites_range _ inside write member
      rw [Clear] at clear
      omega)
  split
  next reached failed =>
    rw [failed] at logged
    exact logged
  next reached written =>
    rw [written] at logged
    rw [← logged]
    exact (checkpointTransaction_other (self.committed txn) _ txn.sequence different).trans
      (flush_other (self.committed txn) _ different)

/-! ## Durable transactions -/

/-- After a successful commit each block of the transaction holds its data, on the disk
or after the next mount. -/
def Durable (self : Journal) (disk : Disk) (txn : Transaction) : Prop :=
  (self.commit disk).1 = true → ∀ write ∈ txn.blocks,
    (self.commit disk).2.2.blocks write.1 = resize self.blockSize.bytes write.2 ∨
      ∃ turns after, (∀ fuel, turns ≤ fuel →
          reboot (self.commit disk).2.2 self.journalStart self.blockSize fuel =
            some (some after)) ∧
        after.blocks write.1 = resize self.blockSize.bytes write.2

theorem durable_of_present (inside : self.head < self.journalLen) (present : ∀ write ∈ txn.blocks,
      self.Clear write.1 ∧ disk.blocks write.1 = resize self.blockSize.bytes write.2) :
    self.Durable disk txn := by
  intro _ write member
  rcases present write member with ⟨clear, data⟩
  exact .inl ((commit_other inside clear).trans data)

section Quiet

variable (attached : self.Attached disk) (quiet : self.Quiet disk txn)
  (current : self.current = some txn)

include attached quiet current

theorem commitWrites_inside : ∀ write ∈ self.commitWrites, write.1 < disk.count := by
  intro write member
  have outside := commitWrites_block attached quiet current member
  have inside := attached.inside
  rw [FsBlock] at outside
  omega

theorem commit_ok : (self.commit disk).1 = true := by
  have inside := commitWrites_inside attached quiet current
  rw [commitWrites, current] at inside
  rw [commit, current]
  simp only at inside ⊢
  split
  next => rfl
  next nonempty =>
    rw [if_neg nonempty] at inside
    rw [writeAll_inside _ disk fun write member => inside write (List.mem_append_left _ member)]

theorem reboot_committed (someWrites : ¬(txn.blocks.isEmpty && txn.revoked.isEmpty) = true) :
    ∃ turns, ∀ fuel, turns ≤ fuel →
      reboot (self.commit disk).2.2 self.journalStart self.blockSize fuel =
        some (some (self.commit disk).2.2) := by
  rw [commit_disk (commitWrites_inside attached quiet current), commitWrites, current]
  simp only [if_neg someWrites]
  rw [Disk.putAll_append]
  exact reboot_late attached quiet (Nat.succ_pos 1)

theorem present_of_durable (durable : self.Durable disk txn) :
    ∀ write ∈ txn.blocks, self.FsBlock write.1 →
      disk.blocks write.1 = resize self.blockSize.bytes write.2 := by
  intro write member isFs
  have unchanged : (self.commit disk).2.2.blocks write.1 = disk.blocks write.1 := by
    rw [commit_disk (commitWrites_inside attached quiet current)]
    apply Disk.putAll_blocks_other
    intro other written same
    exact commitWrites_block attached quiet current written (same ▸ isFs)
  rcases durable (commit_ok attached quiet current) write member with onDisk | recovered
  · exact unchanged.symm.trans onDisk
  rcases recovered with ⟨turns, after, ends, data⟩
  have someWrites : ¬(txn.blocks.isEmpty && txn.revoked.isEmpty) = true := by
    rw [Bool.and_eq_true, List.isEmpty_iff]
    intro nothing
    rw [nothing.1] at member
    cases member
  rcases reboot_committed attached quiet current someWrites with ⟨enough, ended⟩
  cases (ends (max turns enough) (le_max_left ..)).symm.trans
    (ended (max turns enough) (le_max_right ..))
  exact unchanged.symm.trans data

end Quiet

/-- Blocks that hold their data already keep it. Where recovery finds no stale record
behind the transaction, no other transaction is durable. -/
theorem commit_durable (current : self.current = some txn) (inside : self.head < self.journalLen) :
    ((∀ write ∈ txn.blocks, self.Clear write.1 ∧
        disk.blocks write.1 = resize self.blockSize.bytes write.2) → self.Durable disk txn) ∧
      (self.Attached disk → self.Quiet disk txn →
        (∀ write ∈ txn.blocks, self.Clear write.1) →
        (self.Durable disk txn ↔
          ∀ write ∈ txn.blocks, disk.blocks write.1 = resize self.blockSize.bytes write.2)) := by
  refine ⟨durable_of_present inside, fun attached quiet clear => ⟨?_, ?_⟩⟩
  · intro durable write member
    refine present_of_durable attached quiet current durable write member ?_
    exact (clear write member).imp_right le_of_lt
  · intro present
    exact durable_of_present inside fun write member => ⟨clear write member, present write member⟩

/-- Block 2 is filled with the ones it holds. -/
theorem commit_durable_same :
    (formatted.fillBlock 1).Durable formattedDisk ⟨1, [(2, List.replicate 1024 1)], []⟩ := by
  refine (@commit_durable (formatted.fillBlock 1) formattedDisk
    ⟨1, [(2, List.replicate 1024 1)], []⟩ rfl (by decide)).1 ?_
  intro write member
  rw [List.mem_singleton.mp member]
  exact ⟨.inl (by decide), by decide +kernel⟩

/-- Block 2 is filled with twos. The commit succeeds, and the block keeps its ones on
the disk and after the next mount. -/
theorem commit_loses_write :
    ((formatted.fillBlock 2).commit formattedDisk).1 = true ∧
      ¬(formatted.fillBlock 2).Durable formattedDisk ⟨1, [(2, List.replicate 1024 2)], []⟩ := by
  refine ⟨commit_ok (formatted_attached 2) (formatted_quiet 2) rfl, ?_⟩
  intro durable
  have present := present_of_durable (formatted_attached 2) (formatted_quiet 2) rfl durable
    (2, List.replicate 1024 2) List.mem_cons_self (.inl (by decide))
  have old : (formattedDisk.blocks 2).head? = some 1 := by decide
  rw [present] at old
  exact absurd old (by decide +kernel)

end Qunix.Fs.Ext4.Journal
