import Qunix.Foundation.SparseArray
import Qunix.Fs.Ext4.BlockMap
import Qunix.Fs.Ext4.File

/-! # The contents of a file

The bytes of a file are those of its mapped blocks, and zero in its holes. A write goes
from block to block and changes these bytes as a store in one array does.
-/

namespace Qunix.Fs.Ext4.Ext4Fs

open Foundation Bytes FlatArray List Nat Procedure

variable {fs : Ext4Fs} {layout : fs.Layout} {pointers : Nat → Prop} {volume next : Volume}
  {inode larger : Inode} {ino : Nat}

/-! ## Files on a volume -/

/-- The blocks of a file and the blocks with its pointers are in use, and no block is
used twice. -/
structure Backed (layout : fs.Layout) (pointers : Nat → Prop) (volume : Volume)
    (inode : Inode) : Prop where
  formatted : Formatted layout volume
  few : readLe16 inode.iBlock 0 = extentMagic → entryCount inode.iBlock ≤ 4
  depends : fs.Depends pointers inode volume
  answers : ∀ logical, ∃ answer, (fs.getBlock inode logical volume).1 = .ok answer
  placed : ∀ logical phys, (fs.getBlock inode logical volume).1 = .ok (some phys) →
    layout.kind phys = .data ∧ fs.marked volume phys = true ∧ ¬pointers phys
  distinct : ∀ first second phys, (fs.getBlock inode first volume).1 = .ok (some phys) →
    (fs.getBlock inode second volume).1 = .ok (some phys) → first = second
  pointed : ∀ block, pointers block → layout.kind block = .data ∧ fs.marked volume block = true

variable (fs) in
def byteOf (inode : Inode) (volume : Volume) (position : Nat) : UInt8 :=
  match (fs.getBlock inode (position / fs.blockSize) volume).1 with
  | .ok (some phys) => volume.bytes (phys * fs.blockSize + position % fs.blockSize)
  | _ => 0

variable {position remaining : Nat}

variable {phys logical : Nat} {chunk : List UInt8}

theorem byteOf_mapped
    (found : (fs.getBlock inode (position / fs.blockSize) volume).1 = .ok (some phys)) :
    fs.byteOf inode volume position =
      volume.bytes (phys * fs.blockSize + position % fs.blockSize) := by
  rw [byteOf, found]

theorem byteOf_hole (found : (fs.getBlock inode (position / fs.blockSize) volume).1 = .ok none) :
    fs.byteOf inode volume position = 0 := by
  rw [byteOf, found]

theorem Backed.getBlock_run (backed : Backed layout pointers volume inode) (logical : Nat) :
    fs.getBlock inode logical volume = ((fs.getBlock inode logical volume).1, volume) :=
  backed.depends volume .refl logical

theorem chunk_address {index : Nat} (inside : index < fs.chunkSize position remaining) :
    (position + index) / fs.blockSize = position / fs.blockSize ∧
      (position + index) % fs.blockSize = position % fs.blockSize + index := by
  have place := div_add_mod position fs.blockSize
  have fits : position % fs.blockSize + index < fs.blockSize := by
    rw [chunkSize] at inside
    omega
  have split : position + index =
      position / fs.blockSize * fs.blockSize + (position % fs.blockSize + index) := by
    rw [mul_comm]
    omega
  refine ⟨by rw [split, fs.block_address fits], ?_⟩
  rw [split, mul_comm, mul_add_mod, mod_eq_of_lt fits]

theorem chunkSize_pos (some : 0 < remaining) :
    0 < fs.chunkSize position remaining := by
  have inBlock := mod_lt position fs.blockSize_pos
  rw [chunkSize]
  omega

theorem chunkSize_le : fs.chunkSize position remaining ≤ remaining :=
  min_le_right _ _

theorem chunkSize_inside :
    position % fs.blockSize + fs.chunkSize position remaining ≤ fs.blockSize := by
  have inBlock := mod_lt position fs.blockSize_pos
  rw [chunkSize]
  omega

section

variable (backed : Backed layout pointers volume inode)

include backed

theorem Backed.block_inside (found : (fs.getBlock inode logical volume).1 = .ok (some phys)) :
    phys * fs.blockSize + fs.blockSize ≤ volume.size := by
  rw [backed.formatted.size]
  exact (layout.dataInside phys (backed.placed logical phys found).1).2.2.1

/-! ## Reading -/

theorem Backed.readChunk (position remaining : Nat) :
    fs.readChunk inode position (fs.chunkSize position remaining) volume =
      (.ok (load (fs.byteOf inode volume) position (fs.chunkSize position remaining)), volume) := by
  rw [Ext4Fs.readChunk, bind_run, backed.getBlock_run]
  rcases backed.answers (position / fs.blockSize) with ⟨answer, found⟩
  rw [found]
  cases answer with
  | none =>
    have zeroes : load (fs.byteOf inode volume) position (fs.chunkSize position remaining) =
        List.replicate (fs.chunkSize position remaining) 0 := by
      apply List.eq_replicate_iff.mpr
      refine ⟨length_load, ?_⟩
      intro byte member
      rcases mem_map.mp member with ⟨index, inside, rfl⟩
      have address := chunk_address (mem_range.mp inside)
      apply byteOf_hole
      rw [address.1, found]
    rw [zeroes]
    rfl
  | some phys =>
    have inside := backed.block_inside found
    have fits := @chunkSize_inside fs position remaining
    refine readBytesAt_ok.mpr ⟨by omega, ?_, rfl⟩
    apply load_congr
    intro index small
    have address := chunk_address small
    rw [byteOf_mapped (by rw [address.1]; exact found), address.2, add_assoc]

theorem Backed.readLoop (turns : Nat) :
    ∀ position remaining, remaining ≤ turns →
      fs.readLoop inode turns position remaining volume =
        (.ok (load (fs.byteOf inode volume) position remaining), volume) := by
  induction turns with
  | zero =>
    intro position remaining enough
    rw [le_zero.mp enough]
    rfl
  | succ turns induction =>
    intro position remaining enough
    rw [Ext4Fs.readLoop]
    split
    next done =>
      rw [done]
      rfl
    next some =>
      have positive := @chunkSize_pos fs position remaining (Nat.pos_of_ne_zero some)
      have bound := @chunkSize_le fs position remaining
      rw [bind_of_ok (backed.readChunk _ _)]
      rw [bind_of_ok (induction _ _ (by omega))]
      have joined := @load_add _ (fs.byteOf inode volume) position
        (fs.chunkSize position remaining) (remaining - fs.chunkSize position remaining)
      rw [Nat.add_sub_cancel' bound] at joined
      rw [joined]
      rfl

theorem Backed.readFile (length offset : Nat) :
    fs.readFile inode length offset volume =
      (.ok (load (fs.byteOf inode volume) offset (min length (inode.size - offset))), volume) := by
  rw [Ext4Fs.readFile]
  split
  next past =>
    rw [Nat.sub_eq_zero_of_le past, Nat.min_zero]
    rfl
  next => exact backed.readLoop _ _ _ le_rfl

/-! ## Writing -/

theorem Backed.of_contents {Changed : Nat → Prop}
    (changes : fs.Changes Changed volume next)
    (contents : ∀ block, Changed block → (layout.kind block = .data ∧ ¬pointers block) ∨
      ∃ group, layout.kind block = .inodeTable group) :
    Backed layout pointers next inode ∧
      ∀ logical, (fs.getBlock inode logical next).1 = (fs.getBlock inode logical volume).1 := by
  rcases backed.formatted.of_contents changes
    (fun block changed => (contents block changed).imp And.left id) with ⟨formatted, marks⟩
  have unread : fs.Changes (fun block => ¬pointers block) volume next := by
    apply changes.mono
    intro block changed isPointer
    rcases contents block changed with ⟨_, notPointer⟩ | ⟨group, table⟩
    · exact notPointer isPointer
    · rw [(backed.pointed block isPointer).1] at table
      cases table
  have same : ∀ logical,
      (fs.getBlock inode logical next).1 = (fs.getBlock inode logical volume).1 := by
    intro logical
    rw [backed.depends next unread]
  refine ⟨⟨formatted, backed.few, ?_, ?_, ?_, ?_, ?_⟩, same⟩
  · intro other later logical
    rw [same, backed.depends other (unread.trans later)]
  · intro logical
    rw [same]
    exact backed.answers logical
  · intro logical phys found
    rw [same] at found
    rcases backed.placed logical phys found with ⟨isData, isMarked, notPointer⟩
    exact ⟨isData, by rw [marks phys isData, isMarked], notPointer⟩
  · intro first second phys
    rw [same, same]
    exact backed.distinct first second phys
  · intro block isPointer
    rcases backed.pointed block isPointer with ⟨isData, isMarked⟩
    exact ⟨isData, by rw [marks block isData, isMarked]⟩

end

theorem store_overwrite_load (bytes : Nat → UInt8) {offset place count : Nat} {data : List UInt8}
    (inside : place + data.length ≤ count) :
    store bytes offset (overwrite (load bytes offset count) place data) =
      store bytes (offset + place) data := by
  have before := @load_store_inside _ bytes offset count data (offset + place) (by omega) (by omega)
  rw [Nat.add_sub_cancel_left] at before
  rw [← before]
  funext address
  by_cases here : offset ≤ address ∧ address < offset + count
  · obtain ⟨index, rfl⟩ := Nat.exists_eq_add_of_le here.1
    have small : index < count := by omega
    have element := @getElem?_load _ (store bytes (offset + place) data) offset count index small
    rw [store, if_pos here.1, Nat.add_sub_cancel_left, element, Option.getD_some]
  · rw [store_outside (by rw [length_load]; omega), store_outside (by omega)]

theorem writeChunk_run (closed : volume.current = none) {blkOff : Nat}
    (inBlock : blkOff + chunk.length ≤ fs.blockSize)
    (inside : phys * fs.blockSize + fs.blockSize ≤ volume.size) :
    fs.writeChunk phys blkOff chunk volume = (.ok (), { volume with
      bytes := store volume.bytes (phys * fs.blockSize + blkOff) chunk }) := by
  rw [writeChunk]
  split
  next => exact writeBytesAt_ok.mpr ⟨by omega, rfl⟩
  rw [bind_of_ok (readBlock_ok inside)]
  rw [(writeBlock_ok closed (by rw [length_overwrite, length_load]; rwa [length_load])).mpr
    ⟨inside, rfl⟩, store_overwrite_load volume.bytes inBlock]

section

variable (backed : Backed layout pointers volume inode)
include backed

theorem Backed.store_chunk {position : Nat}
    (found : (fs.getBlock inode (position / fs.blockSize) volume).1 = .ok (some phys))
    (inBlock : position % fs.blockSize + chunk.length ≤ fs.blockSize)
    (isNext : next = { volume with
      bytes := store volume.bytes (phys * fs.blockSize + position % fs.blockSize) chunk }) :
    Backed layout pointers next inode ∧
      (∀ logical, (fs.getBlock inode logical next).1 = (fs.getBlock inode logical volume).1) ∧
      fs.byteOf inode next = store (fs.byteOf inode volume) position chunk := by
  rcases backed.placed _ phys found with ⟨isData, _, notPointer⟩
  have changes := @changes_store fs volume phys (position % fs.blockSize) chunk inBlock
  rw [← isNext] at changes
  rcases backed.of_contents changes (by
    rintro block rfl
    exact .inl ⟨isData, notPointer⟩) with ⟨stays, same⟩
  refine ⟨stays, same, ?_⟩
  have place := div_add_mod position fs.blockSize
  rw [mul_comm] at place
  funext other
  have otherPlace := div_add_mod other fs.blockSize
  rw [mul_comm] at otherPlace
  have otherInBlock := mod_lt other fs.blockSize_pos
  by_cases here : other / fs.blockSize = position / fs.blockSize
  · -- The positions of the block are its bytes.
    have sameFound := same (other / fs.blockSize)
    rw [here, found] at sameFound
    rw [byteOf_mapped (by rw [here]; exact sameFound), isNext]
    dsimp only
    rw [here] at otherPlace
    by_cases after : position ≤ other
    · have shift : phys * fs.blockSize + other % fs.blockSize =
          phys * fs.blockSize + position % fs.blockSize + (other - position) := by omega
      rw [store, store, if_pos (by omega), if_pos after, shift, Nat.add_sub_cancel_left,
        byteOf_mapped (by rw [here]; exact found), shift]
    · rw [store, store, if_neg (by omega), if_neg after, byteOf_mapped (by rw [here]; exact found)]
  · -- Other blocks are other blocks of the disk.
    rw [store_outside]
    · rcases backed.answers (other / fs.blockSize) with ⟨answer, isAnswer⟩
      cases answer with
      | none => rw [byteOf_hole isAnswer, byteOf_hole (by rw [same, isAnswer])]
      | some block =>
        rw [byteOf_mapped isAnswer, byteOf_mapped (by rw [same]; exact isAnswer)]
        apply changes.bytes
        rw [fs.block_address otherInBlock]
        rintro rfl
        exact here (backed.distinct _ _ _ isAnswer found)
    · have gap := records_apart fs.blockSize here
      omega

/-- A new block in a hole does not change the bytes of a file, since it is zeroed. -/
theorem Backed.grow
    (growth : Growth layout pointers inode volume logical phys larger next)
    (hole : (fs.getBlock inode logical volume).1 = .ok none) (small : logical < 4294967296)
    (few : entryCount larger.iBlock ≤ 4) :
    Backed layout pointers next larger ∧ fs.byteOf larger next = fs.byteOf inode volume ∧
      (fs.getBlock larger logical next).1 = .ok (some phys) := by
  rcases growth.mapped with ⟨key, isKey, mapped⟩
  have isLogical := isKey small
  subst isLogical
  have used : ∀ block, fs.marked volume block = true → block ≠ phys := by
    rintro block isMarked rfl
    rw [growth.wasFree] at isMarked
    cases isMarked
  have added : (fs.getBlock larger key next).1 = .ok (some phys) := by
    rw [mapped.complete key none hole, if_pos rfl, Option.none_or]
  refine ⟨⟨growth.formatted, fun _ => few, growth.depends, ?_, ?_, ?_, ?_⟩, ?_, added⟩
  · intro other
    rcases backed.answers other with ⟨answer, isAnswer⟩
    exact ⟨_, mapped.complete other answer isAnswer⟩
  · intro other block found
    rcases mapped.sound other block found with old | ⟨_, rfl⟩
    · rcases backed.placed other block old with ⟨isData, isMarked, notPointer⟩
      exact ⟨isData, growth.keeps block isData isMarked, notPointer⟩
    · exact ⟨growth.isData, growth.isMarked, growth.notPointer⟩
  · intro first second block firstFound secondFound
    rcases mapped.sound first block firstFound with old | ⟨isFirst, new⟩
    · have different := used block (backed.placed first block old).2.1
      rcases mapped.sound second block secondFound with older | ⟨_, new⟩
      · exact backed.distinct first second block old older
      · exact absurd new different
    · rcases mapped.sound second block secondFound with old | ⟨isSecond, _⟩
      · exact absurd new (used block (backed.placed second block old).2.1)
      · rw [isFirst, isSecond]
  · intro block isPointer
    rcases backed.pointed block isPointer with ⟨isData, isMarked⟩
    exact ⟨isData, growth.keeps block isData isMarked⟩
  · funext position
    have inBlock := mod_lt position fs.blockSize_pos
    rcases backed.answers (position / fs.blockSize) with ⟨answer, isAnswer⟩
    have after := mapped.complete _ answer isAnswer
    cases answer with
    | some block =>
      rcases backed.placed _ block isAnswer with ⟨isData, isMarked, _⟩
      rw [byteOf_mapped isAnswer, byteOf_mapped after]
      apply growth.changes.bytes
      rw [fs.block_address inBlock]
      rintro (accounts | same)
      · exact layout.data_not_accounts isData accounts
      · exact used block isMarked same
    | none =>
      rw [byteOf_hole isAnswer]
      split at after
      next =>
        have zero := @getElem?_load _ next.bytes (phys * fs.blockSize) fs.blockSize
          (position % fs.blockSize) inBlock
        rw [growth.zeroed, getElem?_replicate, if_pos inBlock] at zero
        rw [byteOf_mapped after, ← Option.some.inj zero]
      next => exact byteOf_hole after

variable (fs) in
/-- Every block that a write needs is there, or a new one would be zeroed. -/
def Ready (inode : Inode) (volume : Volume) (position count : Nat) : Prop :=
  inode.hasExtents = true ∨ ∀ index < count, ∃ phys,
    (fs.getBlock inode ((position + index) / fs.blockSize) volume).1 = .ok (some phys)

theorem Backed.blockForWrite (small : logical < 4294967296) (ready : inode.hasExtents = true ∨
      ∃ phys, (fs.getBlock inode logical volume).1 = .ok (some phys))
    (done : fs.blockForWrite ino inode logical volume = (.ok (phys, larger), next)) :
    ∃ grown, Backed layout grown next larger ∧ fs.byteOf larger next = fs.byteOf inode volume ∧
      (fs.getBlock larger logical next).1 = .ok (some phys) ∧ larger.size = inode.size ∧
      (larger.hasExtents = true ∨ (larger = inode ∧ next = volume)) := by
  rw [Ext4Fs.blockForWrite, bind_run, backed.getBlock_run] at done
  rcases backed.answers logical with ⟨answer, isAnswer⟩
  rw [isAnswer] at done
  cases answer with
  | some block =>
    cases done
    exact ⟨pointers, backed, rfl, isAnswer, rfl, .inr ⟨rfl, rfl⟩⟩
  | none =>
    have extents : inode.hasExtents = true := by
      rcases ready with extents | ⟨block, mapped⟩
      · exact extents
      · rw [isAnswer] at mapped
        cases mapped
    rcases backed.formatted.mapNewBlock extents backed.few
      (fun block isPointer => (backed.pointed block isPointer).2) done with ⟨growth, leaf⟩
    rcases backed.grow growth isAnswer small leaf.few with ⟨stays, same, added⟩
    exact ⟨pointers, stays, same, added, growth.sameSize, .inl (growth.sameFlags.trans extents)⟩

end

theorem Backed.writeLoop (turns : Nat) : ∀ {pointers : Nat → Prop} {volume : Volume}
    {inode : Inode} {position : Nat} {data : List UInt8},
    Backed layout pointers volume inode → data.length ≤ turns →
      position + data.length ≤ 4294967296 * fs.blockSize →
        fs.Ready inode volume position data.length →
          fs.writeLoop ino turns inode position data volume = (.ok larger, next) →
    ∃ grown, Backed layout grown next larger ∧
      fs.byteOf larger next = store (fs.byteOf inode volume) position data ∧
      larger.size = inode.size := by
  induction turns with
  | zero =>
    intro pointers volume inode position data backed enough _ _ done
    cases done
    rw [length_eq_zero_iff.mp (le_zero.mp enough)]
    exact ⟨pointers, backed, store_nil.symm, rfl⟩
  | succ turns induction =>
    intro pointers volume inode position data backed enough inRange ready done
    rw [Ext4Fs.writeLoop] at done
    split at done
    next empty =>
      cases done
      rw [empty]
      exact ⟨pointers, backed, store_nil.symm, rfl⟩
    next some =>
      have length := List.length_pos_iff.mpr some
      have positive := @chunkSize_pos fs position data.length length
      have bound := @chunkSize_le fs position data.length
      have inBlock := @chunkSize_inside fs position data.length
      generalize isCount : fs.chunkSize position data.length = count at *
      obtain ⟨⟨phys, grownInode⟩, middle, located, done⟩ := bind_ok.mp done
      obtain ⟨_, stored, written, done⟩ := bind_ok.mp done
      have small : position / fs.blockSize < 4294967296 :=
        (Nat.div_lt_iff_lt_mul fs.blockSize_pos).mpr (by omega)
      rcases backed.blockForWrite small (ready.imp id fun all => by
        rcases all 0 length with ⟨block, mapped⟩
        exact ⟨block, mapped⟩) located with ⟨grown, middleBacked, sameBytes, found, sameSize, kept⟩
      have chunkLength : (data.take count).length = count := by
        rw [length_take, min_eq_left bound]
      have fits : position % fs.blockSize + (data.take count).length ≤ fs.blockSize := by
        rw [chunkLength]
        exact inBlock
      rw [writeChunk_run middleBacked.formatted.closed fits (middleBacked.block_inside found)]
        at written
      rcases middleBacked.store_chunk found fits (Prod.mk.inj written).2.symm with
        ⟨storedBacked, sameMap, bytes⟩
      have advance : Word.add position count = position + count := by
        apply Word.add_eq
        have blockBound := fs.blockSize_bounds.2.1
        rw [Word.modulus]
        omega
      rw [advance] at done
      have later : fs.Ready grownInode stored (position + count) (data.drop count).length := by
        rcases kept with extents | ⟨sameInode, sameVolume⟩
        · exact .inl extents
        rcases ready with extents | all
        · exact .inl (sameInode ▸ extents)
        refine .inr ?_
        intro index inside
        rw [length_drop] at inside
        rcases all (count + index) (by omega) with ⟨block, mapped⟩
        refine ⟨block, ?_⟩
        rw [sameMap, sameVolume, sameInode, add_assoc]
        exact mapped
      rcases induction storedBacked (by rw [length_drop]; omega)
        (by rw [length_drop]; omega) later done with
          ⟨final, finalBacked, finalBytes, finalSize⟩
      refine ⟨final, finalBacked, ?_, finalSize.trans sameSize⟩
      have joined := @store_append _ (fs.byteOf inode volume) position (data.take count)
        (data.drop count)
      rw [chunkLength, take_append_drop] at joined
      rw [finalBytes, bytes, sameBytes, joined]

end Qunix.Fs.Ext4.Ext4Fs
