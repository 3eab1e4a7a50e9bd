import Qunix.Fs.Fat32.Store

/-! # Writing to a file

`write` makes the size in the entry the length of the whole chain, and a read stops at the size
that the inode remembers. So a write does what it should only if the file fills its chain or the
write reaches to the end of it, and only inside the remembered size.
-/

namespace Qunix.Fs.Fat32.Bpb

open Foundation Bytes FlatArray LinkedChains List Nat Option

variable {bpb : Bpb} {disk middle after : Disk} {inode : Inode} {cells folder : List Nat}
variable {place offset cluster start : Nat} {buf : List UInt8}

/-- An inode of a file: its chain, and the first slot with its name in its directory. -/
structure FileAt (bpb : Bpb) (disk : Disk) (inode : Inode) (cells folder : List Nat) (place : Nat) :
    Prop where
  isFile : inode.isDir = false
  chain : bpb.ChainOf disk inode.cluster cells
  empty : cells = [] → inode.cluster < 2
  directory : bpb.ChainOf disk inode.parentCluster folder
  apart : ∀ cluster ∈ folder, cluster ∉ cells
  entry : ((bpb.places folder).find? fun place =>
    Slot.name83 (slotAt disk place) = inode.name83) = some place
  points : Slot.cluster (slotAt disk place) = inode.cluster
  sizeFits : Slot.size (slotAt disk place) ≤ cells.length * bpb.clusterLength

def countFor (bpb : Bpb) (length : Nat) : Nat :=
  (length + bpb.clusterLength - 1) / bpb.clusterLength

def fileByte (bpb : Bpb) (disk : Disk) (start index : Nat) : Option UInt8 :=
  (bpb.readChain disk start).bind fun data => data[index]?

/-- What a write should have done: all is written, the entry has the new size, the range reads
back through the same inode, and the other bytes of the file are as they were. -/
structure Wrote (bpb : Bpb) (disk : Disk) (inode : Inode) (place : Nat) (buf : List UInt8)
    (offset count : Nat) (after : Disk) : Prop where
  all : count = buf.length
  size : Slot.size (slotAt after place) =
    max (Slot.size (slotAt disk place)) (offset + buf.length)
  reads : bpb.read after inode buf.length offset = some (.ok buf)
  kept : ∀ index < Slot.size (slotAt disk place), index < offset ∨ offset + buf.length ≤ index →
    bpb.fileByte after (Slot.cluster (slotAt after place)) index =
      bpb.fileByte disk inode.cluster index

/-- A write that returns has done what it should, and it fails if there are too few clusters. -/
def WriteLaw (bpb : Bpb) (disk : Disk) (inode : Inode) (cells : List Nat) (place : Nat)
    (buf : List UInt8) (offset : Nat) : Prop :=
  ∀ result after, bpb.write disk inode buf offset = some (result, after) →
    (∀ count, result = .ok count → bpb.Wrote disk inode place buf offset count after) ∧
    (cells.length + (bpb.freeClusters disk).length < bpb.countFor (offset + buf.length) →
      ∃ error, result = .error error)

structure WriteFits (bpb : Bpb) (disk : Disk) (inode : Inode) (cells : List Nat) (place : Nat)
    (buf : List UInt8) (offset : Nat) : Prop where
  room : bpb.countFor (offset + buf.length) ≤ cells.length + (bpb.freeClusters disk).length
  size : Slot.size (slotAt disk place) = cells.length * bpb.clusterLength ∨
    cells.length * bpb.clusterLength ≤ offset + buf.length
  cached : buf = [] ∨ cells ≠ [] ∧ offset + buf.length ≤ inode.size

/-! ## The new data -/

def newData (old buf : List UInt8) (offset : Nat) : List UInt8 :=
  overwrite (filledUp (offset + buf.length) old) offset buf

variable {index size : Nat}

section NewData

variable {old : List UInt8}

theorem length_filledUp (length : Nat) : (filledUp length old).length = max old.length length := by
  rw [filledUp, length_append, length_replicate]
  omega

theorem length_newData :
    (newData old buf offset).length = max old.length (offset + buf.length) := by
  rw [newData, length_overwrite, length_filledUp]
  rw [length_filledUp]
  exact le_max_right _ _

theorem newData_range : ((newData old buf offset).drop offset).take buf.length = buf := by
  have front : ((filledUp (offset + buf.length) old).take offset).length = offset := by
    rw [length_take, length_filledUp]
    omega
  rw [newData, overwrite, append_assoc, drop_left' front, take_left]

theorem newData_outside (inOld : index < old.length)
    (outside : index < offset ∨ offset + buf.length ≤ index) :
    (newData old buf offset)[index]? = old[index]? := by
  rw [newData, getElem?_overwrite_outside _ outside, filledUp, getElem?_append_left inOld]
  rw [length_filledUp]
  exact le_max_right _ _

end NewData

/-! ## Geometry -/

theorem Slotted.not_mem_other (slotted : bpb.Slotted) {other : Nat}
    (isPlace : place ∈ bpb.placesOf cluster) (low : 2 ≤ cluster) (otherLow : 2 ≤ other)
    (different : cluster ≠ other) : place ∉ bpb.placesOf other := by
  intro again
  have first := slotted.bounds isPlace
  have second := slotted.bounds again
  have gap := @clusters_apart bpb cluster other low otherLow different
  omega

theorem Slotted.slotAt_of_content (slotted : bpb.Slotted) (isPlace : place ∈ bpb.placesOf cluster)
    (same : bpb.content after cluster = bpb.content disk cluster) :
    slotAt after place = slotAt disk place := by
  rcases mem_placesOf.mp isPlace with ⟨index, inside, rfl⟩
  have length := slotted.length_eq
  have part : ∀ disk, slotAt disk (bpb.clusterPlace cluster + index * 32) =
      ((bpb.content disk cluster).drop (index * 32)).take 32 := by
    intro disk
    rw [content, drop_load (by omega), take_load (by omega)]
    rfl
  rw [part, part, same]

theorem ChainOf.bytes_lt (chain : bpb.ChainOf disk start cells) (fits : bpb.Representable)
    (sized : bpb.Sized disk) : cells.length * bpb.clusterLength < 4294967296 := by
  have known : cells ⊆ (List.range bpb.entryCount).drop 2 := by
    intro cluster member
    exact mem_clusters.mpr (chain.used cluster member).1
  have atMost := (chain.linked.nodup.subperm known).length_le
  rw [length_drop, length_range] at atMost
  rcases lt_or_ge 2 bpb.entryCount with several | few
  · have isLast : bpb.IsCluster (bpb.entryCount - 1) := ⟨by omega, by omega⟩
    have inside := fits.offsets _ isLast
    have tables : 0 < bpb.clusterPlace 2 := by
      have some := Nat.mul_pos sized.someFats (fatSize_pos several)
      exact Nat.mul_pos (by omega) sized.someBytes
    rw [clusterPlace_eq] at inside
    have scaled : cells.length * bpb.clusterLength ≤
        (bpb.entryCount - 1 - 2 + 1) * bpb.clusterLength :=
      Nat.mul_le_mul_right _ (by omega)
    rw [succ_mul] at scaled
    omega
  · have none : cells.length = 0 := by
      omega
    rw [none, zero_mul]
    decide

/-! ## What a write does -/

section Run

variable (file : bpb.FileAt disk inode cells folder place) (fits : bpb.Representable)
  (good : bpb.Good disk) (slotted : bpb.Slotted)

/-- The data of a file before the write. -/
def dataOf (bpb : Bpb) (disk : Disk) (cells : List Nat) : List UInt8 :=
  cells.flatMap (bpb.content disk)

theorem length_dataOf : (bpb.dataOf disk cells).length = cells.length * bpb.clusterLength := by
  induction cells with
  | nil => simp [dataOf]
  | cons cell rest induction =>
    rw [dataOf] at induction
    rw [dataOf, flatMap_cons, length_append, induction, content, length_load,
      length_cons, succ_mul, add_comm]

include file fits good slotted

theorem FileAt.write_run (short : offset + buf.length < 9223372036854775808) :
    ∃ target middle edited after,
      bpb.DataStored disk inode.cluster cells (newData (bpb.dataOf disk cells) buf offset) target
        middle edited ∧
      bpb.SlotEdit middle after place (retarget (slotAt disk place) target
        (newData (bpb.dataOf disk cells) buf offset).length) ∧
      bpb.write disk inode buf offset = some (.ok buf.length, after) := by
  have positive : 0 < bpb.clusterLength := slotted.some
  have old : bpb.oldData disk inode = some (bpb.dataOf disk cells) := by
    rw [oldData]
    by_cases none : cells = []
    · have noChain := file.empty none
      rw [if_neg (by omega), none]
      rfl
    rcases exists_cons_of_ne_nil none with ⟨head, tail, isCells⟩
    have chain := file.chain
    rw [isCells] at chain
    have low : 2 ≤ inode.cluster := by
      rw [chain.linked.1]
      exact (chain.used head mem_cons_self).1.1
    rw [if_pos low, file.chain.readChain fits good.sized]
    rfl
  have someData : cells ≠ [] → newData (bpb.dataOf disk cells) buf offset ≠ [] := by
    intro someCells none
    have length := @Bpb.length_newData offset buf (bpb.dataOf disk cells)
    rw [none, length_dataOf, length_nil] at length
    have cellCount : 0 < cells.length := List.length_pos_iff.mpr someCells
    have bytes := Nat.mul_pos cellCount positive
    omega
  rcases file.chain.storeData fits good file.empty someData with
    ⟨target, middle, edited, run, stored⟩
  have outside := stored.outside file.directory file.apart
  have directory := file.directory.spared stored.spares outside
  -- The slots of the directory are where they were.
  have sameSlots : ∀ other ∈ bpb.places folder, slotAt middle other = slotAt disk other := by
    intro other isPlace
    rcases mem_places.mp isPlace with ⟨cluster, member, inCluster⟩
    have isCluster := (file.directory.used cluster member).1
    exact slotted.slotAt_of_content inCluster
      (stored.spares cluster isCluster (outside cluster member)).2
  have found : ((bpb.places folder).find? fun place =>
      Slot.name83 (slotAt middle place) = inode.name83) = some place := by
    rw [← file.entry]
    apply find?_congr
    intro other isPlace
    rw [sameSlots other isPlace]
  rcases directory.updateDirentSize stored.good fits slotted found target
    (newData (bpb.dataOf disk cells) buf offset).length with ⟨after, update, edit⟩
  rw [sameSlots place (mem_of_find?_eq_some file.entry)] at edit
  refine ⟨target, middle, edited, after, stored, edit, ?_⟩
  rw [Bpb.write, if_neg (by rw [file.isFile]; decide), if_neg (by omega), old]
  change (bpb.storeData disk inode.cluster (newData (bpb.dataOf disk cells) buf offset)).bind _ = _
  rw [run]
  change (bpb.updateDirentSize middle inode.parentCluster inode.name83 target
    (newData (bpb.dataOf disk cells) buf offset).length).bind _ = _
  rw [update]
  rfl

variable {target : Nat}

omit good in
theorem FileAt.readChain_after {newCells : List Nat} {record : List UInt8}
    (placed : bpb.Placed disk cells target middle newCells)
    (edit : bpb.SlotEdit middle after place record) :
    bpb.readChain after target = some (newCells.flatMap (bpb.content middle)) := by
  have chainAfter := edit.chainOf placed.chain
  rcases mem_places.mp (mem_of_find?_eq_some file.entry) with ⟨home, inFolder, isPlace⟩
  have outside := placed.outside file.directory file.apart home inFolder
  rw [chainAfter.readChain fits edit.good.sized]
  congr 1
  apply flatMap_congr
  intro cluster member
  have isCluster := (placed.chain.used cluster member).1
  apply edit.contents cluster isCluster
  refine slotted.not_mem_other isPlace (file.directory.used home inFolder).1.1 isCluster.1 ?_
  rintro rfl
  exact outside (mem_append_right _ member)

omit file fits good in
theorem Slotted.countFor_le (length count : Nat) :
    bpb.countFor length ≤ count ↔ length ≤ count * bpb.clusterLength := by
  have positive := slotted.some
  rw [countFor, div_le_iff_le_mul_add_pred positive, mul_comm]
  omega

omit file fits good in
/-- If there is room for the range then only an empty write can fail to store its data. -/
theorem DataStored.placed {edited : List Nat}
    (stored : bpb.DataStored disk start cells (newData (bpb.dataOf disk cells) buf offset) target
      middle edited)
    (room : bpb.countFor (offset + buf.length) ≤ cells.length + (bpb.freeClusters disk).length) :
    (cells = [] ∧ offset + buf.length = 0) ∨
      ∃ newCells, newCells.length = bpb.newCount (newData (bpb.dataOf disk cells) buf offset) ∧
        bpb.Placed disk cells target middle newCells ∧
        (cells ≠ [] → newCells.flatMap (bpb.content middle) =
          newData (bpb.dataOf disk cells) buf offset ++ List.replicate (newCells.length *
            bpb.clusterLength - (newData (bpb.dataOf disk cells) buf offset).length) 0) := by
  rcases stored.outcome with ⟨lacks, _⟩ | ⟨_, placed⟩
  · left
    have whole : bpb.clusterCount (newData (bpb.dataOf disk cells) buf offset) ≤
        cells.length + (bpb.freeClusters disk).length := by
      change bpb.countFor _ ≤ _
      rw [slotted.countFor_le, length_newData, length_dataOf]
      apply Nat.max_le.mpr ⟨Nat.mul_le_mul_right _ (by omega), (slotted.countFor_le _ _).mp room⟩
    have none : cells.length + (bpb.freeClusters disk).length = 0 := by
      rw [newCount] at lacks
      omega
    rw [none, le_zero, ← le_zero, slotted.countFor_le] at room
    exact ⟨length_eq_zero_iff.mp (by omega), by omega⟩
  · exact .inr placed

end Run

theorem read_empty (isFile : inode.isDir = false) (noChain : inode.cluster < 2)
    (fits : bpb.Representable) (good : bpb.Good after) :
    bpb.read after inode buf.length offset = some (.ok []) := by
  have chain : bpb.ChainOf after inode.cluster [] :=
    ⟨fun both => by omega, by simp⟩
  rw [read, if_neg (by rw [isFile]; decide), chain.readChain fits good.sized, map_some,
    flatMap_nil, drop_nil, take_nil]

section Law

variable (file : bpb.FileAt disk inode cells folder place) (fits : bpb.Representable)
  (slotted : bpb.Slotted)
variable {target : Nat} {edited : List Nat}
variable (stored : bpb.DataStored disk inode.cluster cells
    (newData (bpb.dataOf disk cells) buf offset) target middle edited)
  (edit : bpb.SlotEdit middle after place (retarget (slotAt disk place) target
    (newData (bpb.dataOf disk cells) buf offset).length))
  (room : bpb.countFor (offset + buf.length) ≤ cells.length + (bpb.freeClusters disk).length)

include file fits slotted stored edit room

theorem FileAt.size_after :
    Slot.size (slotAt after place) =
      max (cells.length * bpb.clusterLength) (offset + buf.length) := by
  rw [edit.here, size_retarget length_slotAt, ← @length_dataOf bpb disk cells, ← length_newData]
  apply mod_eq_of_lt
  rcases stored.placed slotted room with ⟨rfl, nothing⟩ | ⟨newCells, length, placed, _⟩
  · rw [length_newData, nothing, length_dataOf, length_nil, zero_mul]
    decide
  · refine lt_of_le_of_lt ?_ (placed.chain.bytes_lt fits placed.good.sized)
    rw [length, ← slotted.countFor_le]
    exact le_max_right _ _

theorem FileAt.holds_after (someCells : cells ≠ []) :
    ∃ padding, bpb.readChain after inode.cluster =
      some (newData (bpb.dataOf disk cells) buf offset ++ padding) := by
  rcases stored.placed slotted room with ⟨none, _⟩ | ⟨newCells, _, placed, contents⟩
  · exact absurd none someCells
  · have reads := file.readChain_after fits slotted placed edit
    rw [stored.stays someCells, contents someCells] at reads
    exact ⟨_, reads⟩

theorem FileAt.reads_iff : bpb.read after inode buf.length offset = some (.ok buf) ↔
    buf = [] ∨ cells ≠ [] ∧ offset + buf.length ≤ inode.size := by
  by_cases none : cells = []
  · rw [read_empty file.isFile (file.empty none) fits edit.good]
    simp [none, eq_comm]
  rcases file.holds_after fits slotted stored edit room none with ⟨padding, holds⟩
  have reaches : offset + buf.length ≤
      (newData (bpb.dataOf disk cells) buf offset ++ padding).length := by
    rw [length_append, length_newData]
    omega
  rw [read, if_neg (by rw [file.isFile]; decide), holds, map_some,
    min_eq_left (by omega), some_inj, Except.ok.injEq]
  constructor
  · intro range
    have length := congrArg List.length range
    rw [length_take] at length
    rcases Nat.eq_zero_or_pos buf.length with nothing | something
    · exact .inl (length_eq_zero_iff.mp nothing)
    · exact .inr ⟨none, by omega⟩
  · rintro (rfl | ⟨_, inside⟩)
    · have nothing : min (offset + ([] : List UInt8).length) inode.size - offset = 0 := by
        rw [length_nil]
        omega
      rw [nothing, take_zero]
    · have front : buf.length ≤
          ((newData (bpb.dataOf disk cells) buf offset).drop offset).length := by
        rw [length_drop, length_newData]
        omega
      rw [min_eq_left inside, Nat.add_sub_cancel_left,
        drop_append_of_le_length (by rw [length_newData]; omega),
        take_append_of_le_length front, newData_range]

theorem FileAt.kept (good : bpb.Good disk) (inFile : index < Slot.size (slotAt disk place))
    (outside : index < offset ∨ offset + buf.length ≤ index) :
    bpb.fileByte after (Slot.cluster (slotAt after place)) index =
      bpb.fileByte disk inode.cluster index := by
  have inChain : index < (bpb.dataOf disk cells).length := by
    rw [length_dataOf]
    exact lt_of_lt_of_le inFile file.sizeFits
  have someCells : cells ≠ [] := by
    rintro rfl
    rw [length_dataOf, length_nil] at inChain
    omega
  rcases file.holds_after fits slotted stored edit room someCells with ⟨padding, holds⟩
  have number : inode.cluster < 4294967296 := by
    rcases exists_cons_of_ne_nil someCells with ⟨head, tail, isCells⟩
    have chain := file.chain
    rw [isCells] at chain
    have small := (chain.used head mem_cons_self).1.2
    have bound := fits.numbers
    have eoc : fatEoc = 268435448 := rfl
    rw [chain.linked.1]
    omega
  rw [edit.here, cluster_retarget length_slotAt, stored.stays someCells,
    mod_eq_of_lt number, fileByte, holds, bind_some,
    getElem?_append_left (by rw [length_newData]; omega), newData_outside inChain outside,
    fileByte, file.chain.readChain fits good.sized, bind_some, dataOf]

end Law

/-- The root has one cluster and one file, `A`, which has one cluster too. -/
def fileDisk (size : Nat) : Disk where
  bytes := store (store (store (fun _ => 0) 520 (le32 fatEoc ++ le32 fatEoc)) 1032
    (le32 fatEoc ++ le32 fatEoc)) 1536 (direntBytes (encode83 ['A']) 3 size false)
  size := 66048

def fileInode (size : Nat) : Inode :=
  { newInode 2 3 0 false (encode83 ['A']) with size := size }

theorem smallBpb_slotted : smallBpb.Slotted := ⟨by decide, by decide⟩

theorem fileDisk_good (small : size = 0 ∨ size = 512) :
    smallBpb.Good (fileDisk size) where
  sized := blankDisk_good.sized.of_size rfl
  agree := by
    have agree : ∀ size ∈ [0, 512], ∀ fat < 2, ∀ cluster < 128,
        smallBpb.entryBytes (fileDisk size) fat cluster =
          smallBpb.entryBytes (fileDisk size) 0 cluster := by
      decide +kernel
    exact agree size (by simpa using small)

theorem fileDisk_file (small : size = 0 ∨ size = 512) (cached : Nat) :
    smallBpb.FileAt (fileDisk size) (fileInode cached) [3] [2] 1536 := by
  have facts : ∀ size ∈ [0, 512], smallBpb.fatGet (fileDisk size) 2 = fatEoc ∧
      smallBpb.fatGet (fileDisk size) 3 = fatEoc ∧
      ((smallBpb.places [2]).find? fun place =>
        Slot.name83 (slotAt (fileDisk size) place) = encode83 ['A']) = some 1536 ∧
      Slot.cluster (slotAt (fileDisk size) 1536) = 3 ∧
      Slot.size (slotAt (fileDisk size) 1536) ≤ 512 := by
    decide +kernel
  rcases facts size (by simpa using small) with ⟨root, file, entry, points, sizeFits⟩
  have chain : ∀ start, start = 2 ∨ start = 3 → smallBpb.fatGet (fileDisk size) start = fatEoc →
      smallBpb.ChainOf (fileDisk size) start [start] := by
    intro start isStart isEnd
    have isCluster : smallBpb.IsCluster start := by
      rcases isStart with rfl | rfl
      · exact ⟨by decide, by decide⟩
      · exact ⟨by decide, by decide⟩
    refine ⟨⟨rfl, smallBpb_representable.not_ends isCluster, ?_⟩, ?_⟩
    · rw [isEnd]
      exact ends_eoc
    · intro cluster member
      rw [mem_singleton.mp member]
      refine ⟨isCluster, ?_⟩
      rw [isEnd]
      decide
  exact ⟨rfl, chain 3 (.inr rfl) file, by simp, chain 2 (.inl rfl) root, by decide, entry, points,
    sizeFits⟩

theorem ChainOf.freeFrom {fuel : Nat} (chain : bpb.ChainOf disk start cells)
    (good : bpb.Good disk) (fits : bpb.Representable) (enough : cells.length ≤ fuel) :
    bpb.freeFrom fuel disk start =
      cells.foldl (fun disk excess => bpb.fatSet disk excess 0) disk := by
  induction cells generalizing disk start fuel with
  | nil =>
    cases fuel with
    | zero => rfl
    | succ fuel => exact if_pos chain.linked
  | cons cell rest induction =>
    have outside := (nodup_cons.mp chain.linked.nodup).1
    rcases chain with ⟨⟨rfl, notEnds, later⟩, used⟩
    have inTable := (used start mem_cons_self).1.2
    have restOf : bpb.ChainOf disk (bpb.fatGet disk start) rest :=
      ⟨later, fun cluster member => used cluster (mem_cons_of_mem _ member)⟩
    cases fuel with
    | zero => simp at enough
    | succ fuel =>
      rw [Bpb.freeFrom, if_neg notEnds, foldl_cons]
      -- The entry is cleared before the walk goes on, but no later cluster is this one.
      apply induction (restOf.congr ?_) (good.fatSet fits inTable) (le_of_succ_le_succ enough)
      intro cluster member
      rw [good.sized.fatGet_fatSet fits inTable (restOf.used cluster member).1.2 (by decide),
        if_neg]
      rintro rfl
      exact outside member

/-- Freeing a chain puts an empty one in its place. -/
theorem ChainOf.freeChain_placed (chain : bpb.ChainOf disk start cells) (good : bpb.Good disk)
    (fits : bpb.Representable) : bpb.Placed disk cells 0 (bpb.freeChain disk start) [] := by
  have isCluster := fun cluster member => (chain.used cluster member).1
  rcases good.freeAll fits cells isCluster with ⟨goodAfter, entries, contents⟩
  rw [Bpb.freeChain, chain.freeFrom good fits (chain.length_le_eoc fits)]
  refine ⟨goodAfter, ⟨fun both => absurd both.2 (by decide), by simp⟩, ?_, by simp, ?_⟩
  · intro cluster member _
    rw [entries cluster (isCluster cluster member), if_pos member]
  · intro cluster inTable outside
    rw [append_nil] at outside
    exact ⟨(entries cluster inTable).trans (if_neg outside), contents cluster⟩

theorem freeChain_placed_three :
    smallBpb.Placed chainedDisk [2, 3, 4] 0 (smallBpb.freeChain chainedDisk 2) [] :=
  chainedDisk_chain.freeChain_placed chainedDisk_good smallBpb_representable

end Qunix.Fs.Fat32.Bpb
