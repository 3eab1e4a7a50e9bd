import Qunix.Fs.Ext4.Counters

/-! # Free counts over whole runs

The calls that allocate and release, in any order, on a volume whose counts start right. In
each state that is reached it is said exactly which calls keep them right.
-/

namespace Qunix.Fs.Ext4

open Foundation Bytes FlatArray List ByteBitmap Procedure

namespace Ext4Fs

variable {fs : Ext4Fs} {layout : fs.Layout} {volume next : Volume}

inductive CounterCall
  | allocBlock
  | freeBlock (block : Nat)
  | allocInode (isDir : Bool)
  | freeInode (ino : Nat)

/-- The volume that a call leaves, whether it succeeds or fails. -/
def CounterCall.Leaves (fs : Ext4Fs) (volume : Volume) : CounterCall → Volume → Prop
  | .allocBlock, next => ∃ result, fs.allocBlock volume = (result, next)
  | .freeBlock block, next => ∃ result, fs.freeBlock block volume = (result, next)
  | .allocInode isDir, next => ∃ result, fs.allocInode isDir volume = (result, next)
  | .freeInode ino, next => ∃ result, fs.freeInode ino volume = (result, next)

def CounterCall.InRange (fs : Ext4Fs) : CounterCall → Prop
  | .freeBlock block => fs.firstDataBlock ≤ block ∧ block < Word.modulus ∧
      (block - fs.firstDataBlock) / fs.blocksPerGroup < fs.numGroups
  | .freeInode ino => fs.InTable ino
  | _ => True

/-- The calls that keep the counts right. -/
def CounterCall.Counted (layout : fs.Layout) (volume : Volume) : CounterCall → Prop
  | .allocBlock => ∀ group, fs.firstGroup volume = some group → fs.CountsBlock volume group
  | .freeBlock block => fs.marked volume block = false
  | .allocInode _ => ∀ group < fs.numGroups, layout.NoInode volume group
  | .freeInode _ => False

theorem block_place {block : Nat} (past : fs.firstDataBlock ≤ block) :
    (block - fs.firstDataBlock) / fs.blocksPerGroup * fs.blocksPerGroup +
      (block - fs.firstDataBlock) % fs.blocksPerGroup + fs.firstDataBlock = block := by
  rw [mul_comm, Nat.div_add_mod, Nat.sub_add_cancel past]

variable {call : CounterCall}

/-- A step keeps the counts right exactly if it is one of those calls. -/
theorem Tallied.leaves_iff (tallied : Tallied layout volume) (formatted : Formatted layout volume)
    (inRange : call.InRange fs) (leaves : call.Leaves fs volume next) :
    Tallied layout next ↔ call.Counted layout volume := by
  cases call with
  | allocBlock =>
    rcases leaves with ⟨result, run⟩
    exact tallied.allocBlock_iff formatted run
  | freeBlock block =>
    rcases leaves with ⟨result, run⟩
    rcases inRange with ⟨past, small, inGroups⟩
    have inGroup := Nat.mod_lt (block - fs.firstDataBlock) fs.someBlocks
    rw [formatted.freeBlock_run inGroups inGroup (block_place past).symm small] at run
    cases run
    exact tallied.withClearBit_iff formatted inGroups inGroup
  | allocInode isDir =>
    rcases leaves with ⟨result, run⟩
    exact tallied.allocInode_iff formatted run
  | freeInode ino =>
    rcases leaves with ⟨result, run⟩
    exact iff_of_false (tallied.not_freeInode formatted inRange run) id

theorem Formatted.leaves (formatted : Formatted layout volume) (tallied : Tallied layout volume)
    (inRange : call.InRange fs) (counted : call.Counted layout volume)
    (leaves : call.Leaves fs volume next) :
    Formatted layout next := by
  cases call with
  | allocBlock =>
    rcases leaves with ⟨result, done⟩
    have run := tallied.allocInGroups formatted (List.range fs.numGroups)
      fun _ => mem_range.mp
    split at run
    next =>
      rw [Ext4Fs.allocBlock, run] at done
      cases done
      exact formatted
    next =>
      rcases run with ⟨index, _, run⟩
      rw [Ext4Fs.allocBlock, run] at done
      cases done
      exact (formatted.allocBlock run).1
  | freeBlock block =>
    -- The bit was clear, so the block holds data.
    rcases leaves with ⟨result, done⟩
    rcases inRange with ⟨past, small, inGroups⟩
    have inGroup := Nat.mod_lt (block - fs.firstDataBlock) fs.someBlocks
    have isData := (formatted.free _ inGroups _ (lt_of_lt_of_le inGroup fs.blockBits) counted).2
    rw [block_place past] at isData
    rcases formatted.freeBlock isData with ⟨after, _, run, stays, _⟩
    rw [run] at done
    cases done
    exact stays
  | allocInode isDir =>
    rcases leaves with ⟨result, done⟩
    rcases formatted.allocInodeInGroups isDir (List.range fs.numGroups)
        (fun _ => mem_range.mp) with ⟨_, full⟩ | ⟨group, inGroups, _, gives, _⟩
    · rw [Ext4Fs.allocInode, full] at done
      cases done
      exact formatted
    · exact absurd (counted group inGroups) gives
  | freeInode ino => exact counted.elim

/-- Calls on a volume whose counts start right. -/
def counterSystem (layout : fs.Layout) : TransitionSystem Volume CounterCall where
  Initial volume := Formatted layout volume ∧ Tallied layout volume
  Step volume call next := call.InRange fs ∧ call.Counted layout volume ∧
    call.Leaves fs volume next

theorem counterSystem_formatted (reachable : (counterSystem layout).Reachable volume) :
    Formatted layout volume ∧ Tallied layout volume := by
  refine @TransitionSystem.Reachable.invariant _ _ _
    (fun volume => Formatted layout volume ∧ Tallied layout volume) ?_ ?_ _ reachable
  · intro volume starts
    exact starts
  · rintro volume call next ⟨formatted, tallied⟩ ⟨inRange, counted, leaves⟩
    exact ⟨formatted.leaves tallied inRange counted leaves,
      (tallied.leaves_iff formatted inRange leaves).mpr counted⟩

/-- In every run of such calls all counts are right, and in every state that is reached a
call of another kind makes one wrong. -/
theorem reached_counts_tallied (reachable : (counterSystem layout).Reachable volume) :
    Tallied layout volume ∧ ∀ (call : CounterCall) (next : Volume), call.InRange fs →
      call.Leaves fs volume next →
        (Tallied layout next ↔ call.Counted layout volume) := by
  rcases counterSystem_formatted reachable with ⟨formatted, tallied⟩
  refine ⟨tallied, ?_⟩
  intro call next inRange leaves
  exact tallied.leaves_iff formatted inRange leaves

/-! ## A full volume -/

def fullVolume : Volume where
  bytes := fun address =>
    if address = 2048 then 3
    else if address = 2052 then 4
    else if address = 2056 then 5
    else if 3072 ≤ address ∧ address < 5120 then 0xFF
    else 0
  size := 8193 * 1024
  current := none

theorem clearCount_full {bitmap : List UInt8} (full : ∀ byte ∈ bitmap, byte = 0xFF) :
    ByteBitmap.clearCount bitmap = 0 := by
  rw [ByteBitmap.clearCount_eq_zero, ByteBitmap.firstClear, find?_eq_none]
  intro index member
  have inside : index / 8 < bitmap.length := by
    have bound := mem_range.mp member
    omega
  have isByte := full _ (getElem_mem inside)
  have bits : ∀ bit < 8, (0xFF : UInt8).toBitVec.getLsbD bit = true := by decide
  rw [ByteBitmap.test, getD_eq_getElem?_getD, getElem?_eq_getElem inside, isByte,
    Option.getD_some, bits (index % 8) (Nat.mod_lt _ (by decide))]
  decide

theorem load_full {place : Nat} (low : 3072 ≤ place) (high : place + 1024 ≤ 5120) :
    ∀ byte ∈ load fullVolume.bytes place 1024, byte = 0xFF := by
  intro byte member
  rw [load, mem_map] at member
  rcases member with ⟨offset, inside, rfl⟩
  rw [mem_range] at inside
  rw [fullVolume]
  dsimp only
  rw [if_neg (by omega), if_neg (by omega), if_neg (by omega), if_pos (by omega)]

theorem fullVolume_bitmaps : sample.bitmapOf fullVolume 0 = load fullVolume.bytes 3072 1024 ∧
    sampleLayout.inodeBitmapOf fullVolume 0 = load fullVolume.bytes 4096 1024 := by
  have block : sample.bitmapBlockOf fullVolume 0 = 3 := by decide +kernel
  have inodeBlock : sampleLayout.inodeBitmap 0 = 4 := rfl
  have size : sample.blockSize = 1024 := rfl
  rw [bitmapOf, Layout.inodeBitmapOf, block, inodeBlock, size]
  exact ⟨rfl, rfl⟩

theorem fullVolume_formatted : Formatted sampleLayout fullVolume := by
  refine ⟨rfl, rfl, ?_, ?_, ?_, ?_⟩
  · apply sample_groups
    decide +kernel
  · apply sample_groups
    decide +kernel
  · apply sample_groups
    decide +kernel
  · apply sample_groups
    intro index inside isClear
    rw [fullVolume_bitmaps.1] at isClear
    have full := clearCount_full (load_full le_rfl (by decide))
    rw [ByteBitmap.clearCount_eq_zero] at full
    rw [ByteBitmap.firstClear_none full (by rw [length_load]; exact inside)] at isClear
    cases isClear

theorem fullVolume_counts : superFreeBlocks (superOf fullVolume) = 0 ∧
    superFreeInodes (superOf fullVolume) = 0 ∧
    freeBlocksCount (sample.descOf fullVolume 0) = 0 ∧
    freeInodesCount (sample.descOf fullVolume 0) = 0 := by
  decide +kernel

theorem fullVolume_tallied : Tallied sampleLayout fullVolume := by
  rcases fullVolume_counts with ⟨allBlocks, allInodes, blocks, inodes⟩
  refine ⟨?_, ?_, ?_, ?_⟩
  · apply sample_groups
    rw [fullVolume_bitmaps.1, clearCount_full (load_full (by decide) (by decide)), blocks]
  · apply sample_groups
    rw [fullVolume_bitmaps.2, clearCount_full (load_full (by decide) (by decide)), inodes]
  · have oneGroup : sample.numGroups = 1 := rfl
    rw [oneGroup, Finset.sum_range_one, allBlocks, blocks]
  · have oneGroup : sample.numGroups = 1 := rfl
    rw [oneGroup, Finset.sum_range_one, allInodes, inodes]

/-! ## A volume with one free block -/

/-- The block 9 is free, and the counts say so. -/
def oneFreeVolume : Volume where
  bytes := fun address =>
    if address = 1036 ∨ address = 2060 then 1
    else if address = 3073 then 0xFE
    else fullVolume.bytes address
  size := 8193 * 1024
  current := none

theorem oneFreeVolume_bitmaps :
    sample.bitmapOf oneFreeVolume 0 = ByteBitmap.clear (sample.bitmapOf fullVolume 0) 8 ∧
      sampleLayout.inodeBitmapOf oneFreeVolume 0 = sampleLayout.inodeBitmapOf fullVolume 0 := by
  decide +kernel

theorem oneFreeVolume_formatted : Formatted sampleLayout oneFreeVolume := by
  refine ⟨rfl, rfl, ?_, ?_, ?_, ?_⟩
  · apply sample_groups
    decide +kernel
  · apply sample_groups
    decide +kernel
  · apply sample_groups
    decide +kernel
  · apply sample_groups
    intro index inside isClear
    rw [oneFreeVolume_bitmaps.1, ByteBitmap.test_clear (by rw [length_bitmapOf]; decide),
      Bool.and_eq_false_iff, decide_eq_false_iff_not, not_not] at isClear
    rcases isClear with rfl | isClear
    · decide
    · exact fullVolume_formatted.free 0 (by decide) index inside isClear

theorem oneFreeVolume_tallied : Tallied sampleLayout oneFreeVolume := by
  have counts : superFreeBlocks (superOf oneFreeVolume) = 1 ∧
      superFreeInodes (superOf oneFreeVolume) = 0 ∧
      freeBlocksCount (sample.descOf oneFreeVolume 0) = 1 ∧
      freeInodesCount (sample.descOf oneFreeVolume 0) = 0 := by decide +kernel
  have marked : ByteBitmap.test (sample.bitmapOf fullVolume 0) 8 = true := by decide +kernel
  rcases counts with ⟨allBlocks, allInodes, blocks, inodes⟩
  refine ⟨?_, ?_, ?_, ?_⟩
  · apply sample_groups
    rw [oneFreeVolume_bitmaps.1, ByteBitmap.clearCount_clear (by rw [length_bitmapOf]; decide),
      fullVolume_bitmaps.1, clearCount_full (load_full (by decide) (by decide)),
      ← fullVolume_bitmaps.1, marked, blocks]
    rfl
  · apply sample_groups
    rw [oneFreeVolume_bitmaps.2, fullVolume_bitmaps.2,
      clearCount_full (load_full (by decide) (by decide)), inodes]
  · have oneGroup : sample.numGroups = 1 := rfl
    rw [oneGroup, Finset.sum_range_one, allBlocks, blocks]
  · have oneGroup : sample.numGroups = 1 := rfl
    rw [oneGroup, Finset.sum_range_one, allInodes, inodes]

theorem reached_counts_tallied_taken :
    (sample.allocBlock oneFreeVolume).1.toOption = some 9 ∧
      (counterSystem sampleLayout).Reachable (sample.allocBlock oneFreeVolume).2 ∧
      Tallied sampleLayout (sample.allocBlock oneFreeVolume).2 := by
  have counted : CounterCall.allocBlock.Counted sampleLayout oneFreeVolume := by
    intro group isFirst
    have inGroups : group < 1 := mem_range.mp (mem_of_find?_eq_some isFirst)
    rw [Nat.lt_one_iff.mp inGroups]
    exact ⟨by decide +kernel, by decide +kernel, by decide +kernel⟩
  have start : (counterSystem sampleLayout).Reachable oneFreeVolume :=
    .initial ⟨oneFreeVolume_formatted, oneFreeVolume_tallied⟩
  have reachable : (counterSystem sampleLayout).Reachable (sample.allocBlock oneFreeVolume).2 :=
    start.via .allocBlock ⟨trivial, counted, (sample.allocBlock oneFreeVolume).1, Prod.mk.eta.symm⟩
  exact ⟨by decide +kernel, reachable, (reached_counts_tallied reachable).1⟩

/-- Releasing a block of a full volume leaves a clear bit that no count knows. -/
theorem freeBlock_not_counted : Formatted sampleLayout fullVolume ∧
    Tallied sampleLayout fullVolume ∧
      ∃ next, sample.freeBlock 9 fullVolume = (.ok (), next) ∧ ¬Tallied sampleLayout next := by
  have run := fullVolume_formatted.freeBlock_run (show 0 < sample.numGroups by decide)
    (show 8 < sample.blocksPerGroup by decide) (show 9 = 0 * 8192 + 8 + 1 by decide) (by decide)
  refine ⟨fullVolume_formatted, fullVolume_tallied, _, run, ?_⟩
  intro after
  have isClear := (fullVolume_tallied.withClearBit_iff fullVolume_formatted
    (show 0 < sample.numGroups by decide) (show 8 < sample.blocksPerGroup by decide)).mp after
  have marked : ByteBitmap.test (sample.bitmapOf fullVolume 0) 8 = true := by decide +kernel
  rw [marked] at isClear
  cases isClear

end Ext4Fs

end Qunix.Fs.Ext4
