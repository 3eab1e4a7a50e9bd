import Qunix.Fs.Ext4.FileContents

/-! # Runs of calls on a file

A POSIX file is a sparse array. The calls on an ext4 file do to its bytes what they do
to the array, as long as no truncation cuts data off.
-/

namespace Qunix.Fs.Ext4.Ext4Fs

open Foundation Bytes FlatArray List Inode Procedure

variable {fs : Ext4Fs} {layout : fs.Layout} {pointers : Nat → Prop} {volume next : Volume}
  {inode other : Inode} {ino : Nat} {file : SparseArray UInt8 0}

theorem Backed.congr (backed : Backed layout pointers volume inode)
    (flags : other.hasExtents = inode.hasExtents) (blocks : other.iBlock = inode.iBlock) :
    Backed layout pointers volume other ∧ fs.byteOf other volume = fs.byteOf inode volume := by
  have same := @getBlock_congr fs other inode flags blocks
  refine ⟨⟨backed.formatted, ?_, ?_, ?_, ?_, ?_, backed.pointed⟩, ?_⟩
  · rw [blocks]
    exact backed.few
  · intro later changes logical
    rw [same]
    exact backed.depends later changes logical
  · intro logical
    rw [same]
    exact backed.answers logical
  · intro logical phys
    rw [same]
    exact backed.placed logical phys
  · intro first second phys
    rw [same, same]
    exact backed.distinct first second phys
  · funext position
    rw [byteOf, byteOf, same]

variable {size : Nat}

theorem Backed.record (backed : Backed layout pointers volume inode) (inTable : fs.InTable ino)
    (small : size < 18446744073709551616) :
    let final := layout.withInode volume ino (inode.setSize size)
    Backed layout pointers final (layout.inodeAt final ino) ∧
      fs.byteOf (layout.inodeAt final ino) final = fs.byteOf inode volume ∧
      (layout.inodeAt final ino).size = size := by
  intro final
  have changes := layout.changes_withInode volume inTable (inode.setSize size)
  have agrees := layout.inodeAt_self volume ino (inode.setSize size)
  rcases backed.of_contents changes (fun block table => .inr ⟨_, table⟩) with ⟨stays, same⟩
  rcases stays.congr (agrees.hasExtents.trans (hasExtents_setSize size))
    (agrees.iBlock.trans (iBlock_setSize size)) with ⟨finalBacked, bytes⟩
  refine ⟨finalBacked, ?_, agrees.size.trans (size_setSize small)⟩
  rw [bytes]
  funext position
  rcases backed.answers (position / fs.blockSize) with ⟨answer, isAnswer⟩
  cases answer with
  | none => rw [byteOf_hole isAnswer, byteOf_hole (by rw [same, isAnswer])]
  | some phys =>
    rw [byteOf_mapped isAnswer, byteOf_mapped (by rw [same]; exact isAnswer)]
    apply changes.bytes
    rw [fs.block_address (Nat.mod_lt position fs.blockSize_pos), (backed.placed _ phys isAnswer).1]
    exact fun same => by cases same

/-! ## The POSIX file -/

/-- The file on the volume has the size and the bytes of a POSIX file. -/
structure Holds (layout : fs.Layout) (ino : Nat) (volume : Volume)
    (file : SparseArray UInt8 0) : Prop where
  inTable : fs.InTable ino
  backed : ∃ pointers, Backed layout pointers volume (layout.inodeAt volume ino)
  length : (layout.inodeAt volume ino).size = file.length
  item : ∀ position, fs.byteOf (layout.inodeAt volume ino) volume position = file.item position

theorem Holds.read (holds : Holds layout ino volume file) (length offset : Nat) :
    fs.read ino length offset volume = (.ok (file.read offset length), volume) := by
  rcases holds.backed with ⟨pointers, backed⟩
  rw [Ext4Fs.read, bind_of_ok (backed.formatted.readInode holds.inTable)]
  rw [backed.readFile, holds.length]
  have bytes : load (fs.byteOf (layout.inodeAt volume ino) volume) offset
      (min length (file.length - offset)) = file.read offset length := by
    apply map_congr_left
    intro index _
    exact holds.item (offset + index)
  rw [bytes]

theorem Holds.write (holds : Holds layout ino volume file) {data : List UInt8} {offset : Nat}
    (inRange : offset + data.length ≤ 4294967296 * fs.blockSize)
    (visible : data ≠ [] ∨ offset ≤ file.length)
    (ready : fs.Ready (layout.inodeAt volume ino) volume offset data.length)
    (done : fs.write ino data offset volume = (.ok (), next)) :
    Holds layout ino next (file.write offset data) := by
  rcases holds.backed with ⟨pointers, backed⟩
  rw [Ext4Fs.write, bind_run, backed.formatted.readInode holds.inTable] at done
  obtain ⟨_, _, written, finished⟩ := bind_ok.mp done
  cases finished
  obtain ⟨larger, stored, looped, written⟩ := bind_ok.mp written
  obtain ⟨_, _, recorded, finished⟩ := bind_ok.mp written
  cases finished
  rcases Backed.writeLoop data.length backed le_rfl inRange ready looped with
    ⟨grown, storedBacked, bytes, sameSize⟩
  rw [storedBacked.formatted.writeInode holds.inTable] at recorded
  cases recorded
  have isLength : max (Word.add offset data.length) larger.size = (file.write offset data).length ∧
      max (Word.add offset data.length) larger.size < 18446744073709551616 := by
    have blockBound := fs.blockSize_bounds.2.1
    have noWrap : Word.add offset data.length = offset + data.length := by
      apply Word.add_eq
      rw [Word.modulus]
      omega
    have sizeBound : file.length < 18446744073709551616 := by
      have low := readLe32_lt (layout.inodeAt volume ino).raw 4
      have high := readLe32_lt (layout.inodeAt volume ino).raw 108
      rw [← holds.length, Inode.size]
      omega
    rw [noWrap, sameSize, holds.length]
    refine ⟨?_, by omega⟩
    simp only [SparseArray.write]
    cases data with
    | nil =>
      have short := visible.resolve_left (fun some => some rfl)
      simp only [length_nil, isEmpty_nil, if_true]
      omega
    | cons first rest =>
      simp only [isEmpty_cons, Bool.false_eq_true, if_false]
      omega
  rcases storedBacked.record holds.inTable isLength.2 with ⟨finalBacked, finalBytes, finalSize⟩
  refine ⟨holds.inTable, ⟨grown, finalBacked⟩, finalSize.trans isLength.1, ?_⟩
  intro position
  rw [finalBytes, bytes, store]
  simp only [SparseArray.write]
  by_cases inside : offset ≤ position ∧ position < offset + data.length
  · have small : position - offset < data.length := by omega
    rw [if_pos inside.1, if_pos inside, getElem?_eq_getElem small, Option.getD_some,
      getD_eq_getElem?_getD, getElem?_eq_getElem small, Option.getD_some]
  rw [if_neg inside]
  by_cases after : offset ≤ position
  · rw [if_pos after, getElem?_eq_none (by omega), Option.getD_none]
    exact holds.item position
  · rw [if_neg after]
    exact holds.item position

variable (fs) in
/-- No block that a truncation to a size frees is mapped. -/
def FreesNothing (inode : Inode) (volume : Volume) (size : Nat) : Prop :=
  ∀ logical, fs.blocksFor size ≤ logical → logical < fs.blocksFor inode.size →
    ∀ phys, (fs.getBlock inode logical volume).1 ≠ .ok (some phys)

section Unmapped

variable (runs : ∀ logical,
  fs.getBlock inode logical volume = ((fs.getBlock inode logical volume).1, volume))

include runs

theorem freeBlocks_unmapped (logicals : List Nat) (unmapped : ∀ logical ∈ logicals, ∀ phys,
      (fs.getBlock inode logical volume).1 ≠ .ok (some phys)) :
    fs.freeBlocks inode logicals volume = (.ok (), volume) := by
  induction logicals with
  | nil => rfl
  | cons logical rest induction =>
    have later := induction fun other member => unmapped other (mem_cons_of_mem logical member)
    have here := unmapped logical mem_cons_self
    rw [freeBlocks, bind_run, Procedure.attempt, runs logical]
    cases answer : (fs.getBlock inode logical volume).1 with
    | error error => exact later
    | ok place =>
      cases place with
      | none => exact later
      | some phys => exact absurd answer (here phys)

theorem freeTail_unmapped (harmless : inode.size < size ∨ fs.FreesNothing inode volume size) :
    fs.freeTail inode size volume = (.ok (), volume) := by
  rw [freeTail]
  split
  next => rfl
  next shrinks =>
    apply freeBlocks_unmapped runs
    intro logical member
    rw [mem_range'_1] at member
    exact harmless.resolve_left shrinks logical member.1 (by omega)

end Unmapped

variable (fs) in
/-- A truncation to a size cuts nothing off: no block behind the new end is mapped, and
the bytes behind it are zero. -/
def CutsNothing (inode : Inode) (volume : Volume) (size : Nat) : Prop :=
  (∀ logical, fs.blocksFor size ≤ logical → logical < fs.blocksFor inode.size →
      (fs.getBlock inode logical volume).1 = .ok none) ∧
    ∀ position, size ≤ position → fs.byteOf inode volume position = 0

theorem Formatted.truncate_run (formatted : Formatted layout volume) (inTable : fs.InTable ino)
    (freed : fs.freeTail (layout.inodeAt volume ino) size volume = (.ok (), volume)) :
    fs.truncate ino size volume = (.ok (),
      layout.withInode volume ino ((layout.inodeAt volume ino).setSize size)) := by
  have recorded := formatted.writeInode inTable ((layout.inodeAt volume ino).setSize size)
  have truncated : fs.truncateFile ino (layout.inodeAt volume ino) size volume =
      (.ok ((layout.inodeAt volume ino).setSize size),
        layout.withInode volume ino ((layout.inodeAt volume ino).setSize size)) := by
    rw [truncateFile, bind_of_ok freed, bind_of_ok recorded, pure_run]
  rw [Ext4Fs.truncate, bind_of_ok (formatted.readInode inTable), bind_of_ok truncated, pure_run]

theorem Holds.truncate (holds : Holds layout ino volume file)
    (small : size < 18446744073709551616) (harmless : (layout.inodeAt volume ino).size < size ∨
      fs.CutsNothing (layout.inodeAt volume ino) volume size) :
    ∃ next, fs.truncate ino size volume = (.ok (), next) ∧
      Holds layout ino next (file.truncate size) := by
  rcases holds.backed with ⟨pointers, backed⟩
  have freed := freeTail_unmapped backed.getBlock_run <| by
    refine harmless.imp_right fun cuts logical low high phys found => ?_
    rw [cuts.1 logical low high] at found
    cases found
  rcases backed.record holds.inTable small with ⟨finalBacked, finalBytes, finalSize⟩
  refine ⟨layout.withInode volume ino ((layout.inodeAt volume ino).setSize size),
    backed.formatted.truncate_run holds.inTable freed, holds.inTable, ⟨pointers, finalBacked⟩,
    finalSize, ?_⟩
  intro position
  rw [finalBytes]
  simp only [SparseArray.truncate]
  split
  next => exact holds.item position
  next past =>
    rcases harmless with grows | ⟨_, zeroes⟩
    · rw [holds.item]
      rw [holds.length] at grows
      exact file.blank position (by omega)
    · exact zeroes position (by omega)

/-! ## Runs -/

inductive FileCall
  | read (length offset : Nat)
  | write (data : List UInt8) (offset : Nat)
  | truncate (size : Nat)

variable (fs) in
def call (ino : Nat) : FileCall → Ext4M Unit
  | .read length offset => do
      let _ ← fs.read ino length offset
      pure ()
  | .write data offset => fs.write ino data offset
  | .truncate size => fs.truncate ino size

/-- The volume and the calls so far, the last one first. -/
structure FileRun where
  volume : Volume
  calls : List FileCall

def posixFile (start : SparseArray UInt8 0) : List FileCall → SparseArray UInt8 0
  | [] => start
  | .read _ _ :: earlier => posixFile start earlier
  | .write data offset :: earlier => (posixFile start earlier).write offset data
  | .truncate size :: earlier => (posixFile start earlier).truncate size

/-- A write stays below the 32 bits of block numbers of an extent, does not lengthen the
file by nothing, and needs no block that is not zeroed. A truncation cuts nothing off. -/
def CarefulCall (layout : fs.Layout) (ino : Nat) (volume : Volume) : FileCall → Prop
  | .read _ _ => True
  | .write data offset =>
    offset + data.length ≤ 4294967296 * fs.blockSize ∧
      (data ≠ [] ∨ offset ≤ (layout.inodeAt volume ino).size) ∧
      fs.Ready (layout.inodeAt volume ino) volume offset data.length
  | .truncate size =>
    size < 18446744073709551616 ∧ ((layout.inodeAt volume ino).size < size ∨
      fs.CutsNothing (layout.inodeAt volume ino) volume size)

def fileSystem (layout : fs.Layout) (ino : Nat) (start : SparseArray UInt8 0) :
    TransitionSystem FileRun FileCall where
  Initial run := Holds layout ino run.volume start ∧ run.calls = []
  Step run label next := CarefulCall layout ino run.volume label ∧
    fs.call ino label run.volume = (.ok (), next.volume) ∧ next.calls = label :: run.calls

theorem Holds.call (holds : Holds layout ino volume file) {label : FileCall}
    (careful : CarefulCall layout ino volume label)
    (done : fs.call ino label volume = (.ok (), next)) :
    Holds layout ino next (posixFile file [label]) := by
  cases label with
  | read length offset =>
    rw [Ext4Fs.call, bind_run, holds.read] at done
    cases done
    exact holds
  | write data offset =>
    rcases careful with ⟨inRange, visible, ready⟩
    rw [holds.length] at visible
    exact holds.write inRange visible ready done
  | truncate size =>
    rcases holds.truncate careful.1 careful.2 with ⟨final, truncated, stays⟩
    rw [Ext4Fs.call, truncated] at done
    cases done
    exact stays

theorem fileSystem_holds {start : SparseArray UInt8 0} {run : FileRun}
    (reachable : (fileSystem layout ino start).Reachable run) :
    Holds layout ino run.volume (posixFile start run.calls) := by
  refine @TransitionSystem.Reachable.invariant _ _ _
    (fun run => Holds layout ino run.volume (posixFile start run.calls)) ?_ ?_ _ reachable
  · rintro run ⟨holds, noCalls⟩
    rw [noCalls]
    exact holds
  · rintro run label next holds ⟨careful, done, isCalls⟩
    have stays := holds.call careful done
    rw [isCalls]
    cases label with
    | read | write | truncate => exact stays

/-- After every run of successful careful calls the file has the size of the POSIX file,
and reads return its bytes. -/
theorem careful_file_posix {start : SparseArray UInt8 0} {run : FileRun}
    (reachable : (fileSystem layout ino start).Reachable run) :
    (layout.inodeAt run.volume ino).size = (posixFile start run.calls).length ∧
      ∀ length offset, fs.read ino length offset run.volume =
        (.ok ((posixFile start run.calls).read offset length), run.volume) := by
  have holds := fileSystem_holds reachable
  exact ⟨holds.length, holds.read⟩

/-! ## An empty file -/

def emptyInode : Inode :=
  (Inode.patch ⟨List.replicate 160 0, length_zeroed⟩ 32 (le32 0x80000)
    extentsFlag_inside).setIBlock (le16 extentMagic ++ le16 0 ++ le16 4)

def emptyFileVolume : Volume := sampleLayout.withInode sampleVolume 12 emptyInode

theorem emptyFile_holds : Holds sampleLayout 12 emptyFileVolume .empty := by
  have agrees : (sampleLayout.inodeAt emptyFileVolume 12).Agrees emptyInode :=
    sampleLayout.inodeAt_self sampleVolume 12 emptyInode
  have leaf : Leaf emptyInode.iBlock :=
    ⟨by decide +kernel, by decide +kernel, by decide +kernel, by decide +kernel⟩
  have formatted : Formatted sampleLayout emptyFileVolume := by
    refine (Formatted.withInode ?_ (by decide) emptyInode).1
    exact sampleFormatted (fun _ _ => rfl) rfl rfl
  have holes : ∀ logical volume, sample.getBlock (sampleLayout.inodeAt emptyFileVolume 12) logical
      volume = (.ok none, volume) := by
    intro logical volume
    have none : leafSearch emptyInode.iBlock logical = none := by
      have count : entryCount emptyInode.iBlock = 0 := by decide +kernel
      rw [leafSearch_eq leaf.whole leaf.few, count]
      rfl
    rw [getBlock_congr agrees.hasExtents agrees.iBlock,
      getBlock_leaf (by decide +kernel) leaf, none]
  refine ⟨by decide, ⟨fun _ => False, ⟨formatted, ?_, ?_, ?_, ?_, ?_, ?_⟩⟩, ?_, ?_⟩
  · intro _
    exact (congrArg entryCount agrees.iBlock).trans_le leaf.few
  · intro other _ logical
    rw [holes, holes]
  · intro logical
    exact ⟨none, by rw [holes]⟩
  · intro logical phys found
    cases found
  · intro first second phys found
    cases found
  · exact fun _ isPointer => isPointer.elim
  · have size : emptyInode.size = 0 := by decide +kernel
    exact agrees.size.trans size
  · intro position
    exact byteOf_hole (by rw [holes])

/-- A write into an empty file leaves a hole that reads as zeros. -/
theorem careful_file_posix_hole :
    ∃ next, sample.call 12 (.write [1, 2, 3] 2) emptyFileVolume = (.ok (), next) ∧
      sample.read 12 10 0 next = (.ok [0, 0, 1, 2, 3], next) := by
  have ok : (sample.call 12 (.write [1, 2, 3] 2) emptyFileVolume).1.toOption = some () := by
    decide +kernel
  cases done : sample.call 12 (.write [1, 2, 3] 2) emptyFileVolume with
  | mk answer next =>
    rw [done] at ok
    cases answer with
    | error error => cases ok
    | ok answer =>
      have extents : (sampleLayout.inodeAt emptyFileVolume 12).hasExtents = true := by
        decide +kernel
      have careful : CarefulCall sampleLayout 12 emptyFileVolume (.write [1, 2, 3] 2) :=
        ⟨by decide, .inl (by simp), .inl extents⟩
      have initial : (fileSystem sampleLayout 12 .empty).Reachable ⟨emptyFileVolume, []⟩ :=
        .initial ⟨emptyFile_holds, rfl⟩
      have reachable : (fileSystem sampleLayout 12 .empty).Reachable
          ⟨next, [.write [1, 2, 3] 2]⟩ :=
        initial.step ⟨careful, done, rfl⟩
      exact ⟨next, rfl, (careful_file_posix reachable).2 10 0⟩

/-- Bytes that were cut off come back when the file is lengthened again. -/
theorem truncated_bytes_return :
    ((do
      sample.call 12 (.write [1, 2, 3, 4] 0)
      sample.call 12 (.truncate 2)
      sample.call 12 (.truncate 4)
      sample.read 12 4 0 : Ext4M (List UInt8)) emptyFileVolume).1.toOption = some [1, 2, 3, 4] ∧
    (posixFile .empty [.truncate 4, .truncate 2, .write [1, 2, 3, 4] 0]).read 0 4 =
      [1, 2, 0, 0] := by
  refine ⟨by decide +kernel, by decide⟩

end Qunix.Fs.Ext4.Ext4Fs
