import Qunix.Fs.Ext4.Allocation

/-! # Reads and allocations inside a transaction

Inside a transaction `write_block` fills the pending list and `read_block` still reads
the disk. The bitmaps are blocks like any other, while the free counts are written to
the disk at once.
-/

namespace Qunix.Fs.Ext4

open Foundation Bytes FlatArray List Option

namespace Transaction

/-! ## The pending list -/

def pending (self : Transaction) (block : Nat) : Option (List UInt8) := self.blocks.lookup block

theorem lookup_insertBlock (block : Nat) (data : List UInt8) (other : Nat) :
    ∀ blocks : List (Nat × List UInt8), (insertBlock block data blocks).lookup other =
      if other = block then some data else blocks.lookup other := by
  intro blocks
  induction blocks with
  | nil =>
    by_cases same : other = block
    · simp [insertBlock, same]
    · simp [insertBlock, same, lookup_cons, beq_false_of_ne same]
  | cons first rest induction =>
    rcases first with ⟨here, old⟩
    rw [insertBlock]
    split
    next =>
      by_cases same : other = block
      · simp [same]
      · simp [same, lookup_cons, beq_false_of_ne same]
    next notBefore =>
      split
      next isHere =>
        by_cases same : other = block
        · simp [same]
        · simp [same, lookup_cons, beq_false_of_ne same, ← isHere]
      next notHere =>
        rw [lookup_cons, lookup_cons, induction]
        by_cases same : other = block
        · have different : block ≠ here := notHere
          simp [same, beq_false_of_ne different]
        · simp [same]

theorem pending_addBlock (self : Transaction) (block : Nat) (data : List UInt8) (other : Nat) :
    (self.addBlock block data).pending other =
      if other = block then some data else self.pending other :=
  lookup_insertBlock block data other self.blocks

end Transaction

/-- What was last passed to `write_block` for a block in the open transaction. -/
def Volume.lastWritten (volume : Volume) (block : Nat) : Option (List UInt8) :=
  volume.current.bind (·.pending block)

namespace Ext4Fs

variable (fs : Ext4Fs) {volume next : Volume} {group block index : Nat} {txn : Transaction}

theorem writeBlock_transaction (opened : volume.current = some txn) (block : Nat)
    (data : List UInt8) :
    fs.writeBlock block data volume = (.ok (),
      { volume with current := some (txn.addBlock block (data.take fs.blockSize)) }) := by
  rw [writeBlock, opened]

/-! ## Allocations -/

section Allocation

variable (opened : volume.current = some txn) (allocated : fs.Allocated volume group index next)

include opened allocated

theorem Allocated.current_eq :
    next.current = some (txn.addBlock (fs.bitmapBlockOf volume group)
      ((ByteBitmap.set (fs.bitmapOf volume group) index).take fs.blockSize)) := by
  rcases allocated.writes with ⟨marked, written, current, _⟩
  rw [fs.writeBlock_transaction opened] at written
  cases written
  exact current

theorem Allocated.bitmapBlockOf_eq (other : Nat) :
    fs.bitmapBlockOf next other = fs.bitmapBlockOf volume other := by
  have kept : ∀ offset, offset % 32 < 4 → offset < 64 →
      byteAt (fs.descOf next other) offset = byteAt (fs.descOf volume other) offset := by
    intro offset low inside
    apply fs.byteAt_descOf_congr inside
    intro onDisk
    apply allocated.bytes_eq fs (fs.writeBlock_transaction opened _ _) _ rfl
    intro counter
    have count := counter.desc fs onDisk
    omega
  exact splitBlock_congr fun offset inside =>
    ⟨kept (0 + offset) (by omega) (by omega), kept (32 + offset) (by omega) (by omega)⟩

end Allocation

/-! ## Sequences of calls -/

inductive Call
  | write (block : Nat) (data : List UInt8)
  | read (block : Nat)
  | alloc

/-- A read is recorded with what was last written to its block. -/
inductive Event
  | wrote (block : Nat) (data : List UInt8)
  | read (block : Nat) (data : List UInt8) (latest : Option (List UInt8))
  | allocated (block : Nat)
deriving DecidableEq

structure Session where
  volume : Volume
  events : List Event

/-- A call that fails is not recorded. -/
def record {Result : Type} (session : Session) (event : Result → Event) :
    Except VfsError Result × Volume → Session
  | (.ok result, volume) => ⟨volume, event result :: session.events⟩
  | (.error _, volume) => ⟨volume, session.events⟩

def exec (session : Session) : Call → Session
  | .write block data =>
    record session (fun _ => .wrote block data) (fs.writeBlock block data session.volume)
  | .read block =>
    record session (fun data => .read block data (session.volume.lastWritten block))
      (fs.readBlock block session.volume)
  | .alloc => record session .allocated (fs.allocBlock session.volume)

def Event.allocatedBlock : Event → Option Nat
  | .allocated block => some block
  | _ => none

/-- Reads return what was last written, and no block is allocated twice. -/
structure Honest (events : List Event) : Prop where
  reads : ∀ block data written, .read block data (some written) ∈ events → data = written
  allocations : (events.filterMap Event.allocatedBlock).Nodup

theorem mem_allocatedBlock {events : List Event} {block : Nat} :
    block ∈ events.filterMap Event.allocatedBlock ↔ .allocated block ∈ events := by
  rw [mem_filterMap]
  constructor
  · rintro ⟨event, member, isBlock⟩
    cases event with
    | allocated other =>
      cases isBlock
      exact member
    | _ => cases isBlock
  · intro member
    exact ⟨_, member, rfl⟩

/-- A read finds nothing pending for its block that the disk does not hold. An
allocation finds no pending bitmap in a group with a free block, and the bits behind
the blocks of such a group are set. -/
def Careful (volume : Volume) : Call → Prop
  | .write _ _ => True
  | .read block => ∀ written, volume.lastWritten block = some written →
      written = load volume.bytes (block * fs.blockSize) fs.blockSize
  | .alloc => ∀ group < fs.numGroups, freeBlocksCount (fs.descOf volume group) ≠ 0 →
      volume.lastWritten (fs.bitmapBlockOf volume group) = none ∧
        ∀ index, fs.blocksPerGroup ≤ index → index < 8 * fs.blockSize →
          ByteBitmap.test (fs.bitmapOf volume group) index = true

/-- Calls in an open transaction. The kernel panics on data shorter than a block. -/
def transactionSystem (start : Volume) : TransitionSystem Session Call where
  Initial session := session = ⟨start, []⟩
  Step session call next :=
    (∀ block data, call = .write block data → fs.blockSize ≤ data.length) ∧
      fs.Careful session.volume call ∧ next = fs.exec session call

/-- The blocks of a group have a pending bitmap once one of them is allocated. -/
structure Tracked (start : Volume) (session : Session) : Prop where
  opened : session.volume.current.isSome = true
  placed : ∀ group, fs.bitmapBlockOf session.volume group = fs.bitmapBlockOf start group
  marked : ∀ block, .allocated block ∈ session.events → ∃ group index,
    block = group * fs.blocksPerGroup + index + fs.firstDataBlock ∧
      index < fs.blocksPerGroup ∧
      session.volume.lastWritten (fs.bitmapBlockOf start group) ≠ none
  honest : Honest session.events

section Steps

variable {fs} {start : Volume} {session : Session}

theorem Tracked.write (tracked : fs.Tracked start session) (block : Nat) (data : List UInt8) :
    fs.Tracked start (fs.exec session (.write block data)) := by
  obtain ⟨txn, opened⟩ := isSome_iff_exists.mp tracked.opened
  rw [exec, fs.writeBlock_transaction opened, record]
  refine ⟨rfl, tracked.placed, ?_, ?_, tracked.honest.allocations⟩
  · intro other member
    have earlier : Event.allocated other ∈ session.events := by simpa using member
    rcases tracked.marked other earlier with ⟨group, index, number, inside, marked⟩
    refine ⟨group, index, number, inside, ?_⟩
    rw [Volume.lastWritten, opened] at marked
    rw [Volume.lastWritten, bind_some, Transaction.pending_addBlock]
    split
    · exact some_ne_none _
    · exact marked
  · intro other data written member
    exact tracked.honest.reads other data written (by simpa using member)

theorem Tracked.read (tracked : fs.Tracked start session) {block : Nat}
    (careful : fs.Careful session.volume (.read block)) :
    fs.Tracked start (fs.exec session (.read block)) := by
  rw [exec, readBlock, readBytesAt_run]
  split
  next =>
    refine ⟨tracked.opened, tracked.placed, ?_, ?_, tracked.honest.allocations⟩
    · intro other member
      exact tracked.marked other (by simpa [record] using member)
    · intro other data written member
      rcases mem_cons.mp member with same | earlier
      · rw [Event.read.injEq] at same
        rw [same.2.1]
        exact (careful written same.2.2.symm).symm
      · exact tracked.honest.reads other data written earlier
  next => exact ⟨tracked.opened, tracked.placed, tracked.marked, tracked.honest⟩

theorem firstClear_lt {bitmap : List UInt8} {bound index : Nat}
    (found : ByteBitmap.firstClear bitmap = some index)
    (padded : ∀ index, bound ≤ index → index < 8 * bitmap.length →
      ByteBitmap.test bitmap index = true) : index < bound := by
  rcases ByteBitmap.firstClear_some found with ⟨inside, isClear⟩
  apply lt_of_not_ge
  intro past
  rw [padded index past inside] at isClear
  cases isClear

theorem Tracked.alloc (tracked : fs.Tracked start session)
    (careful : fs.Careful session.volume .alloc) :
    fs.Tracked start (fs.exec session .alloc) := by
  obtain ⟨txn, opened⟩ := isSome_iff_exists.mp tracked.opened
  rw [exec]
  cases done : fs.allocBlock session.volume with
  | mk answer next =>
    cases answer with
    | error error =>
      have unchanged := fs.allocInGroups_error _ (fun _ _ bitmap _ =>
        ⟨_, fs.writeBlock_transaction opened _ bitmap, rfl⟩) done
      rw [record, unchanged]
      exact ⟨tracked.opened, tracked.placed, tracked.marked, tracked.honest⟩
    | ok block =>
      rcases fs.allocBlock_ok done with ⟨group, inRange, index, number, allocated⟩
      rcases careful group inRange allocated.counted with ⟨notPending, padded⟩
      have current := allocated.current_eq fs opened
      have inside : index < fs.blocksPerGroup :=
        firstClear_lt allocated.isClear (by rwa [bitmapOf, length_load])
      have pending : ∀ other, next.lastWritten other ≠ none ↔
          other = fs.bitmapBlockOf session.volume group ∨
            session.volume.lastWritten other ≠ none := by
        intro other
        rw [Volume.lastWritten, Volume.lastWritten, current, opened, bind_some,
          bind_some, Transaction.pending_addBlock]
        split
        next same => simp [same]
        next different => simp [different]
      rw [record]
      refine ⟨by rw [current]; rfl, ?_, ?_, ?_, ?_⟩
      · intro other
        rw [allocated.bitmapBlockOf_eq fs opened, tracked.placed]
      · intro other member
        rcases mem_cons.mp member with same | earlier
        · cases same
          exact ⟨group, index, number, inside, (pending _).mpr (.inl (tracked.placed group).symm)⟩
        · rcases tracked.marked other earlier with ⟨before, bit, same, small, marked⟩
          exact ⟨before, bit, same, small, (pending _).mpr (.inr marked)⟩
      · intro other data written member
        exact tracked.honest.reads other data written (by simpa using member)
      · refine nodup_cons.mpr ⟨fun twice => ?_, tracked.honest.allocations⟩
        rw [mem_allocatedBlock] at twice
        -- A group that gave a block has a pending bitmap, this one has none.
        rcases tracked.marked block twice with ⟨before, bit, same, small, marked⟩
        have sameGroup : group = before := by
          have positive := fs.someBlocks
          have quotient : ∀ quotient remainder, remainder < fs.blocksPerGroup →
              (quotient * fs.blocksPerGroup + remainder) / fs.blocksPerGroup = quotient := by
            intro quotient remainder small
            rw [mul_comm, Nat.mul_add_div positive, Nat.div_eq_of_lt small, add_zero]
          rw [← quotient group index inside, ← quotient before bit small]
          congr 1
          omega
        rw [← sameGroup, ← tracked.placed group] at marked
        exact marked notPending

end Steps

/-- In every sequence of calls that are all careful, reads return what was last written
and no block is allocated twice. -/
theorem careful_transaction_honest {start : Volume} {session : Session}
    (opened : start.current.isSome = true)
    (reachable : (fs.transactionSystem start).Reachable session) : Honest session.events := by
  have tracked : fs.Tracked start session := by
    refine reachable.invariant ?_ ?_
    · rintro state rfl
      exact ⟨opened, fun _ => rfl, fun _ member => absurd member not_mem_nil,
        fun _ _ _ member => absurd member not_mem_nil, nodup_nil⟩
    · rintro state call next tracked ⟨_, careful, rfl⟩
      cases call with
      | write block data => exact tracked.write block data
      | read block => exact tracked.read careful
      | alloc => exact tracked.alloc careful
  exact tracked.honest

theorem reachable_exec {start : Volume} {session : Session}
    (reachable : (fs.transactionSystem start).Reachable session) (call : Call)
    (long : ∀ block data, call = .write block data → fs.blockSize ≤ data.length)
    (careful : fs.Careful session.volume call) :
    (fs.transactionSystem start).Reachable (fs.exec session call) :=
  reachable.step ⟨long, careful, rfl⟩

def sampleOpened : Volume := { sampleVolume with current := some (Transaction.new 1) }

def sampleAllocated : Session := sample.exec ⟨sampleOpened, []⟩ .alloc

theorem sampleAllocated_reachable :
    (sample.transactionSystem sampleOpened).Reachable sampleAllocated := by
  apply sample.reachable_exec (.initial rfl)
  · intro block data same
    cases same
  · intro group inRange _
    have zero : group = 0 := Nat.lt_one_iff.mp inRange
    rw [zero]
    refine ⟨rfl, ?_⟩
    have whole : 8 * sample.blockSize = sample.blocksPerGroup := by decide
    rw [whole]
    intro index past inside
    exact (lt_irrefl index (lt_of_lt_of_le inside past)).elim

/-- One allocation, and a read of a block that was not written. -/
theorem careful_transaction_honest_once :
    sampleAllocated.events = [.allocated 10] ∧
      Honest (sample.exec sampleAllocated (.read 20)).events := by
  have nothing : sampleAllocated.volume.lastWritten 20 = none := by decide +kernel
  have reachable : (sample.transactionSystem sampleOpened).Reachable
      (sample.exec sampleAllocated (.read 20)) := by
    apply sample.reachable_exec sampleAllocated_reachable
    · intro block data same
      cases same
    · intro written latest
      rw [nothing] at latest
      cases latest
  have opened : sampleOpened.current.isSome = true := rfl
  exact ⟨by decide +kernel, sample.careful_transaction_honest opened reachable⟩

/-- Two allocations return one block, and a read returns the zeros of the disk for a
block that was filled with sevens. -/
theorem transaction_dishonest :
    (sample.exec (sample.exec ⟨sampleOpened, []⟩ .alloc) .alloc).events =
        [.allocated 10, .allocated 10] ∧
      ¬Honest (sample.exec (sample.exec ⟨sampleOpened, []⟩ .alloc) .alloc).events ∧
      ¬Honest (sample.exec (sample.exec ⟨sampleOpened, []⟩ (.write 20 (List.replicate 1024 7)))
        (.read 20)).events := by
  have twice : (sample.exec (sample.exec ⟨sampleOpened, []⟩ .alloc) .alloc).events =
      [.allocated 10, .allocated 10] := by decide +kernel
  have stale : (sample.exec (sample.exec ⟨sampleOpened, []⟩
      (.write 20 (List.replicate 1024 7))) (.read 20)).events =
      [.read 20 (List.replicate 1024 0) (some (List.replicate 1024 7)),
        .wrote 20 (List.replicate 1024 7)] := by decide +kernel
  refine ⟨twice, ?_, ?_⟩
  · rw [twice]
    intro honest
    exact absurd honest.allocations (by decide)
  · rw [stale]
    intro honest
    exact absurd (honest.reads _ _ _ mem_cons_self) (by decide +kernel)

end Ext4Fs

end Qunix.Fs.Ext4
