import Qunix.Fs.Fat32.Image

/-! # Entries and contents of clusters

An image whose offsets fit into 32 bits is a table of entries, kept in several copies, beside
the contents of the clusters. Setting an entry and writing a cluster change one of them.
-/

namespace Qunix.Fs.Fat32.Bpb

open Foundation Bytes FlatArray List Nat

variable {bpb : Bpb} {disk : Disk} {cluster other value : Nat}

def clusterLength (bpb : Bpb) : Nat := bpb.sectorsPerCluster * bpb.bytesPerSector

def entryCount (bpb : Bpb) : Nat := bpb.fatSize * bpb.bytesPerSector / 4

def clusterPlace (bpb : Bpb) (cluster : Nat) : Nat :=
  (bpb.reservedSectors + bpb.numFats * bpb.fatSize + (cluster - 2) * bpb.sectorsPerCluster) *
    bpb.bytesPerSector

def IsCluster (bpb : Bpb) (cluster : Nat) : Prop := 2 ≤ cluster ∧ cluster < bpb.entryCount

/-- The tables and all clusters are in the image. -/
structure Sized (bpb : Bpb) (disk : Disk) : Prop where
  someBytes : 0 < bpb.bytesPerSector
  someSectors : 0 < bpb.sectorsPerCluster
  someFats : 0 < bpb.numFats
  tables : bpb.clusterPlace 2 ≤ disk.size
  clusters : ∀ cluster, bpb.IsCluster cluster →
    bpb.clusterPlace cluster + bpb.clusterLength ≤ disk.size

/-- Offsets and numbers of clusters fit into the words that hold them. -/
structure Representable (bpb : Bpb) : Prop where
  tables : bpb.clusterPlace 2 ≤ 4294967296
  offsets : ∀ cluster, bpb.IsCluster cluster →
    bpb.clusterPlace cluster + bpb.clusterLength ≤ 4294967296
  numbers : bpb.entryCount ≤ fatEoc

theorem u32_eq {value : Nat} (small : value < 4294967296) : u32 value = value :=
  mod_eq_of_lt small

theorem clusterPlace_two :
    bpb.clusterPlace 2 =
      (bpb.reservedSectors + bpb.numFats * bpb.fatSize) * bpb.bytesPerSector := by
  rw [clusterPlace, Nat.sub_self, zero_mul, add_zero]

theorem clusterSize_eq : bpb.clusterSize = bpb.clusterLength := by
  apply u32_eq
  calc bpb.sectorsPerCluster * bpb.bytesPerSector ≤ 256 * 65536 :=
        Nat.mul_le_mul (le_of_lt bpb.smallClusters) (le_of_lt bpb.smallSectors)
    _ < 4294967296 := by decide

variable {fat : Nat}

section Geometry

variable (sized : bpb.Sized disk) (fits : bpb.Representable)

include fits

theorem Representable.total_eq : bpb.total = bpb.entryCount := by
  have bound := fits.numbers
  have eoc : fatEoc = 268435448 := rfl
  rw [entryCount, eoc] at bound
  rw [total, entryCount, u32_eq (by omega)]

include sized

theorem Sized.sectors_small : bpb.reservedSectors + bpb.numFats * bpb.fatSize ≤ 4294967296 := by
  have bound := fits.tables
  rw [clusterPlace_two] at bound
  exact le_trans (Nat.le_mul_of_pos_right _ sized.someBytes) bound

theorem Sized.fatStart_eq (inFats : fat < bpb.numFats) (some : 0 < bpb.fatSize) :
    bpb.fatStart fat = (bpb.reservedSectors + fat * bpb.fatSize) * bpb.bytesPerSector := by
  have bound := fits.tables
  have sectors := sized.sectors_small fits
  have before : fat * bpb.fatSize + bpb.fatSize ≤ bpb.numFats * bpb.fatSize := by
    rw [← succ_mul]
    exact Nat.mul_le_mul_right _ inFats
  have below : (bpb.reservedSectors + fat * bpb.fatSize) * bpb.bytesPerSector < 4294967296 := by
    refine lt_of_lt_of_le ?_ bound
    exact Nat.mul_lt_mul_of_pos_right (by omega) sized.someBytes
  rw [fatStart, u32_eq (show fat * bpb.fatSize < 4294967296 by omega),
    u32_eq (show bpb.reservedSectors + fat * bpb.fatSize < 4294967296 by omega), u32_eq below]

theorem Sized.clusterToOffset_eq (isCluster : bpb.IsCluster cluster) :
    bpb.clusterToOffset cluster = bpb.clusterPlace cluster := by
  have bound := fits.offsets cluster isCluster
  have positive : 0 < bpb.clusterLength := Nat.mul_pos sized.someSectors sized.someBytes
  have place : bpb.clusterPlace cluster < 4294967296 := by
    omega
  have sectors : bpb.reservedSectors + bpb.numFats * bpb.fatSize +
      (cluster - 2) * bpb.sectorsPerCluster < 4294967296 := by
    exact lt_of_le_of_lt (Nat.le_mul_of_pos_right _ sized.someBytes) place
  have scaled := Nat.le_mul_of_pos_right (cluster - 2) sized.someSectors
  have number : u32 (cluster + 4294967296 - 2) = cluster - 2 := by
    have low := isCluster.1
    have split : cluster + 4294967296 - 2 = cluster - 2 + 4294967296 := by
      omega
    rw [u32, split, add_mod_right, mod_eq_of_lt (by omega)]
  rw [clusterToOffset, dataStart, number,
    u32_eq (show bpb.numFats * bpb.fatSize < 4294967296 by omega),
    u32_eq (show bpb.reservedSectors + bpb.numFats * bpb.fatSize < 4294967296 by omega),
    u32_eq (show (cluster - 2) * bpb.sectorsPerCluster < 4294967296 by omega),
    u32_eq sectors]
  exact u32_eq place

end Geometry

/-! ## Entries -/

def entryPlace (bpb : Bpb) (fat cluster : Nat) : Nat :=
  (bpb.reservedSectors + fat * bpb.fatSize) * bpb.bytesPerSector + cluster * 4

def entryBytes (bpb : Bpb) (disk : Disk) (fat cluster : Nat) : List UInt8 :=
  load disk.bytes (bpb.entryPlace fat cluster) 4

def CopiesAgree (bpb : Bpb) (disk : Disk) : Prop :=
  ∀ fat < bpb.numFats, ∀ cluster < bpb.entryCount,
    bpb.entryBytes disk fat cluster = bpb.entryBytes disk 0 cluster

def content (bpb : Bpb) (disk : Disk) (cluster : Nat) : List UInt8 :=
  load disk.bytes (bpb.clusterPlace cluster) bpb.clusterLength

theorem entry_before_next (inTable : cluster < bpb.entryCount) :
    bpb.entryPlace fat cluster + 4 ≤ bpb.entryPlace (fat + 1) 0 := by
  rw [entryCount] at inTable
  rw [entryPlace, entryPlace, succ_mul, ← add_assoc,
    add_mul (bpb.reservedSectors + fat * bpb.fatSize)]
  omega

theorem entryPlace_mono {later : Nat} (before : fat ≤ later) :
    bpb.entryPlace fat 0 ≤ bpb.entryPlace later 0 := by
  rw [entryPlace, entryPlace]
  have scaled := Nat.mul_le_mul_right bpb.fatSize before
  exact Nat.add_le_add_right (Nat.mul_le_mul_right _ (Nat.add_le_add_left scaled _)) _

theorem entry_base : bpb.entryPlace fat 0 ≤ bpb.entryPlace fat cluster := by
  rw [entryPlace, entryPlace]
  omega

theorem entry_apart {fat later : Nat} (before : fat < later) (inTable : cluster < bpb.entryCount) :
    bpb.entryPlace fat cluster + 4 ≤ bpb.entryPlace later other :=
  le_trans (entry_before_next inTable)
    (le_trans (entryPlace_mono before) entry_base)

theorem entry_before_clusters (inFats : fat < bpb.numFats) (inTable : cluster < bpb.entryCount)
    (other : Nat) :
    bpb.entryPlace fat cluster + 4 ≤ bpb.clusterPlace other := by
  refine le_trans (entry_before_next inTable) (le_trans (entryPlace_mono inFats) ?_)
  rw [entryPlace, clusterPlace, zero_mul, add_zero]
  exact Nat.mul_le_mul_right _ (Nat.le_add_right _ _)

theorem fatSize_pos (inTable : cluster < bpb.entryCount) : 0 < bpb.fatSize := by
  rw [entryCount] at inTable
  apply Nat.pos_of_ne_zero
  intro none
  rw [none, zero_mul] at inTable
  omega

section SetEntry

variable (sized : bpb.Sized disk) (fits : bpb.Representable) (inTable : cluster < bpb.entryCount)

include sized fits inTable

theorem Sized.fatSet_copies (count : Nat) (few : count ≤ bpb.numFats) :
    let after := (List.range count).foldl (bpb.fatSetCopy cluster value) disk
    after.size = disk.size ∧
      (∀ fat < count, bpb.entryBytes after fat cluster = le32 value) ∧
      ∀ address, (∀ fat < count, address < bpb.entryPlace fat cluster ∨
        bpb.entryPlace fat cluster + 4 ≤ address) → after.bytes address = disk.bytes address := by
  induction count with
  | zero => exact ⟨rfl, by simp, fun _ _ => rfl⟩
  | succ count induction =>
    intro after
    rcases induction (by omega) with ⟨size, written, kept⟩
    have inside : bpb.entryPlace count cluster + 4 ≤ disk.size :=
      le_trans (entry_before_clusters few inTable 2) sized.tables
    rw [← size] at inside
    have isAfter : after = bpb.fatSetCopy cluster value
        ((List.range count).foldl (bpb.fatSetCopy cluster value) disk) count := by
      change (List.range (count + 1)).foldl (bpb.fatSetCopy cluster value) disk = _
      rw [range_succ, foldl_append, foldl_cons, foldl_nil]
    rw [isAfter]
    generalize (List.range count).foldl (bpb.fatSetCopy cluster value) disk = previous at *
    rw [fatSetCopy, sized.fatStart_eq fits few (fatSize_pos inTable), ← entryPlace,
      if_pos inside]
    refine ⟨size, ?_, ?_⟩
    · refine Nat.forall_lt_succ_right.mpr ⟨fun fat earlier => ?_, load_store_same⟩
      refine Eq.trans ?_ (written fat earlier)
      apply load_store_outside
      exact .inr (entry_apart earlier inTable)
    · intro address apart
      have outside := apart count (lt_succ_self count)
      rw [← kept address fun fat inCount => apart fat (lt_succ_of_lt inCount)]
      exact store_outside (by rwa [length_le32])

theorem Sized.size_fatSet : (bpb.fatSet disk cluster value).size = disk.size :=
  (sized.fatSet_copies fits inTable bpb.numFats le_rfl).1

theorem Sized.entryBytes_fatSet (inFats : fat < bpb.numFats)
    (otherInTable : other < bpb.entryCount) :
    bpb.entryBytes (bpb.fatSet disk cluster value) fat other =
      if other = cluster then le32 value else bpb.entryBytes disk fat other := by
  rcases sized.fatSet_copies fits inTable bpb.numFats le_rfl with ⟨_, written, kept⟩
  split
  next same =>
    rw [same]
    exact written fat inFats
  next different =>
    rw [entryBytes, entryBytes]
    apply load_congr
    intro offset inside
    apply kept
    intro copy inCopies
    -- Another entry of the same copy, or an entry of another copy.
    rcases lt_trichotomy copy fat with before | rfl | after
    · have apart := @entry_apart bpb cluster other copy fat before inTable
      omega
    · rw [entryPlace, entryPlace]
      omega
    · have apart := @entry_apart bpb other cluster fat copy after otherInTable
      omega

theorem Sized.content_fatSet (place : Nat) :
    bpb.content (bpb.fatSet disk cluster value) place = bpb.content disk place := by
  rw [content, content]
  apply load_congr
  intro offset inside
  apply (sized.fatSet_copies fits inTable bpb.numFats le_rfl).2.2
  intro fat inFats
  have before := entry_before_clusters inFats inTable place
  omega

end SetEntry

theorem Sized.of_size {after : Disk} (sized : bpb.Sized disk) (size : after.size = disk.size) :
    bpb.Sized after where
  someBytes := sized.someBytes
  someSectors := sized.someSectors
  someFats := sized.someFats
  tables := by
    rw [size]
    exact sized.tables
  clusters := by
    rw [size]
    exact sized.clusters

theorem Sized.fatGet_eq (sized : bpb.Sized disk) (fits : bpb.Representable)
    (inTable : cluster < bpb.entryCount) :
    bpb.fatGet disk cluster = readLe32 (bpb.entryBytes disk 0 cluster) 0 % 268435456 := by
  have bound := fits.tables
  have below : bpb.reservedSectors * bpb.bytesPerSector < 4294967296 := by
    refine lt_of_lt_of_le ?_ bound
    have some := Nat.mul_pos sized.someFats (fatSize_pos inTable)
    exact Nat.mul_lt_mul_of_pos_right (by omega) sized.someBytes
  have place : bpb.fatOffset cluster = bpb.entryPlace 0 cluster := by
    rw [fatOffset, u32_eq below, entryPlace, zero_mul, add_zero]
  have inside : bpb.entryPlace 0 cluster + 4 ≤ disk.size :=
    le_trans (entry_before_clusters sized.someFats inTable 2) sized.tables
  rw [fatGet, place, if_neg (Nat.not_lt.mpr inside)]
  rfl

theorem Sized.fatGet_fatSet (sized : bpb.Sized disk) (fits : bpb.Representable)
    (inTable : cluster < bpb.entryCount) (otherInTable : other < bpb.entryCount)
    (small : value < 268435456) :
    bpb.fatGet (bpb.fatSet disk cluster value) other =
      if other = cluster then value else bpb.fatGet disk other := by
  have after := sized.of_size (@Sized.size_fatSet bpb disk cluster value sized fits inTable)
  rw [after.fatGet_eq fits otherInTable,
    sized.entryBytes_fatSet fits inTable sized.someFats otherInTable]
  split
  next =>
    have read := readLe32_le32 value []
    rw [append_nil] at read
    rw [read, mod_eq_of_lt (show value < 4294967296 by omega), mod_eq_of_lt small]
  next => exact (sized.fatGet_eq fits otherInTable).symm

/-! ## Contents -/

def padded (bpb : Bpb) (data : List UInt8) : List UInt8 :=
  data ++ List.replicate (bpb.clusterLength - data.length) 0

theorem length_padded {data : List UInt8} (short : data.length ≤ bpb.clusterLength) :
    (bpb.padded data).length = bpb.clusterLength := by
  rw [padded, length_append, length_replicate]
  omega

theorem clusterPlace_eq : bpb.clusterPlace cluster =
    bpb.clusterPlace 2 + (cluster - 2) * bpb.clusterLength := by
  rw [clusterPlace_two, clusterPlace, add_mul, clusterLength, mul_assoc]

theorem clusters_apart {first second : Nat} (low : 2 ≤ first) (secondLow : 2 ≤ second)
    (different : first ≠ second) :
    bpb.clusterPlace first + bpb.clusterLength ≤ bpb.clusterPlace second ∨
      bpb.clusterPlace second + bpb.clusterLength ≤ bpb.clusterPlace first := by
  have apart := @records_apart (first - 2) (second - 2) bpb.clusterLength (by omega)
  rw [clusterPlace_eq, @clusterPlace_eq bpb second]
  omega

section PutCluster

variable {data : List UInt8} (sized : bpb.Sized disk) (fits : bpb.Representable)
  (isCluster : bpb.IsCluster cluster)

include sized fits isCluster

theorem Sized.putCluster_eq : bpb.putCluster disk cluster data =
    { disk with bytes := store disk.bytes (bpb.clusterPlace cluster) (bpb.padded data) } := by
  rw [putCluster, clusterSize_eq, sized.clusterToOffset_eq fits isCluster,
    if_pos (sized.clusters cluster isCluster)]
  rfl

theorem Sized.clusterBytes_eq : bpb.clusterBytes disk cluster = bpb.content disk cluster := by
  rw [clusterBytes, clusterSize_eq, sized.clusterToOffset_eq fits isCluster,
    if_pos (sized.clusters cluster isCluster), content]

variable (short : data.length ≤ bpb.clusterLength)

theorem Sized.entryBytes_putCluster (inFats : fat < bpb.numFats)
    (inTable : other < bpb.entryCount) :
    bpb.entryBytes (bpb.putCluster disk cluster data) fat other =
      bpb.entryBytes disk fat other := by
  rw [sized.putCluster_eq fits isCluster, entryBytes, entryBytes]
  apply load_store_outside
  exact .inr (entry_before_clusters inFats inTable cluster)

theorem Sized.size_putCluster : (bpb.putCluster disk cluster data).size = disk.size := by
  rw [sized.putCluster_eq fits isCluster]

theorem Sized.fatGet_putCluster (inTable : other < bpb.entryCount) :
    bpb.fatGet (bpb.putCluster disk cluster data) other = bpb.fatGet disk other := by
  have after := sized.of_size (@Sized.size_putCluster bpb disk cluster data sized fits isCluster)
  rw [after.fatGet_eq fits inTable, sized.fatGet_eq fits inTable,
    sized.entryBytes_putCluster fits isCluster sized.someFats inTable]

include short

theorem Sized.content_putCluster (otherIsCluster : bpb.IsCluster other) :
    bpb.content (bpb.putCluster disk cluster data) other =
      if other = cluster then bpb.padded data else bpb.content disk other := by
  have whole := length_padded short
  rw [sized.putCluster_eq fits isCluster]
  split
  next same =>
    have loaded := @load_store_same _ disk.bytes (bpb.clusterPlace cluster) (bpb.padded data)
    rw [whole] at loaded
    rw [same]
    exact loaded
  next different =>
    rw [content, content]
    apply load_store_outside
    rw [whole]
    exact clusters_apart isCluster.1 otherIsCluster.1 (Ne.symm different)

end PutCluster

/-! ## Edits of a good image -/

structure Good (bpb : Bpb) (disk : Disk) : Prop where
  sized : bpb.Sized disk
  agree : bpb.CopiesAgree disk

theorem Good.fatSet (good : bpb.Good disk) (fits : bpb.Representable)
    (inTable : cluster < bpb.entryCount) : bpb.Good (bpb.fatSet disk cluster value) where
  sized := good.sized.of_size (good.sized.size_fatSet fits inTable)
  agree := by
    intro fat inFats other otherInTable
    rw [good.sized.entryBytes_fatSet fits inTable inFats otherInTable,
      good.sized.entryBytes_fatSet fits inTable good.sized.someFats otherInTable,
      good.agree fat inFats other otherInTable]

theorem Good.putCluster {data : List UInt8} (good : bpb.Good disk) (fits : bpb.Representable)
    (isCluster : bpb.IsCluster cluster) : bpb.Good (bpb.putCluster disk cluster data) where
  sized := good.sized.of_size (good.sized.size_putCluster fits isCluster)
  agree := by
    intro fat inFats other otherInTable
    rw [good.sized.entryBytes_putCluster fits isCluster inFats otherInTable,
      good.sized.entryBytes_putCluster fits isCluster good.sized.someFats otherInTable,
      good.agree fat inFats other otherInTable]

end Qunix.Fs.Fat32.Bpb
