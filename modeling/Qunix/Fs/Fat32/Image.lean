import Mathlib.Algebra.Group.Nat.Defs
import Qunix.Foundation.Bytes
import Qunix.Foundation.LinkedChains

/-! # A FAT32 image

`Fat32Inner` of `fs/fat32_rw/mod.rs`: the file allocation tables and the clusters of an image
in memory. Offsets are computed in 32 bits and wrap.
-/

namespace Qunix.Fs.Fat32

open Foundation Bytes FlatArray

structure Disk where
  bytes : Nat → UInt8
  size : Nat

structure Bpb where
  bytesPerSector : Nat
  sectorsPerCluster : Nat
  reservedSectors : Nat
  numFats : Nat
  fatSize : Nat
  rootCluster : Nat
  smallSectors : bytesPerSector < 65536
  smallClusters : sectorsPerCluster < 256

def fatEoc : Nat := 0x0FFFFFF8

def u32 (value : Nat) : Nat := value % 4294967296

/-- The numbers at which a walk through the table stops. -/
def Ends (cluster : Nat) : Prop := ¬(cluster < fatEoc ∧ 2 ≤ cluster)

instance : DecidablePred Ends := fun _ => inferInstanceAs (Decidable ¬_)

namespace Bpb

variable (bpb : Bpb)

def dataStart : Nat := u32 (bpb.reservedSectors + u32 (bpb.numFats * bpb.fatSize))

def clusterToOffset (cluster : Nat) : Nat :=
  u32 (u32 (bpb.dataStart + u32 (u32 (cluster + 4294967296 - 2) * bpb.sectorsPerCluster)) *
    bpb.bytesPerSector)

def clusterSize : Nat := u32 (bpb.sectorsPerCluster * bpb.bytesPerSector)

/-! ## The tables -/

def fatOffset (cluster : Nat) : Nat := u32 (bpb.reservedSectors * bpb.bytesPerSector) + cluster * 4

variable (disk : Disk)

def fatGet (cluster : Nat) : Nat :=
  if disk.size < bpb.fatOffset cluster + 4 then fatEoc
  else readLe32 (load disk.bytes (bpb.fatOffset cluster) 4) 0 % 268435456

def fatStart (fat : Nat) : Nat :=
  u32 (u32 (bpb.reservedSectors + u32 (fat * bpb.fatSize)) * bpb.bytesPerSector)

def fatSetCopy (cluster value : Nat) (disk : Disk) (fat : Nat) : Disk :=
  if bpb.fatStart fat + cluster * 4 + 4 ≤ disk.size then
    { disk with bytes := store disk.bytes (bpb.fatStart fat + cluster * 4) (le32 value) }
  else disk

def fatSet (cluster value : Nat) : Disk :=
  (List.range bpb.numFats).foldl (bpb.fatSetCopy cluster value) disk

def total : Nat := u32 (bpb.fatSize * bpb.bytesPerSector) / 4

/-! ## Clusters -/

/-- Write a cluster: the data, and zeros up to its end. -/
def putCluster (cluster : Nat) (data : List UInt8) : Disk :=
  if bpb.clusterToOffset cluster + bpb.clusterSize ≤ disk.size then
    { disk with
      bytes := store disk.bytes (bpb.clusterToOffset cluster)
        (data ++ List.replicate (bpb.clusterSize - data.length) 0) }
  else disk

def allocCluster : Option Nat × Disk :=
  match ((List.range bpb.total).drop 2).find? fun cluster => bpb.fatGet disk cluster = 0 with
  | none => (none, disk)
  | some cluster => (some cluster, bpb.putCluster (bpb.fatSet disk cluster fatEoc) cluster [])

/-! ## Chains

A walk visits numbers below `fatEoc`; one that has not ended after as many has met a number
twice and does not end at all. -/

def freeFrom : (fuel : Nat) → Disk → Nat → Disk
  | 0, disk, _ => disk
  | fuel + 1, disk, cluster =>
    if Ends cluster then disk
    else freeFrom fuel (bpb.fatSet disk cluster 0) (bpb.fatGet disk cluster)

def freeChain (start : Nat) : Disk := bpb.freeFrom fatEoc disk start

/-- The clusters of a chain, if the walk ends. -/
def chainFrom (start : Nat) : Option (List Nat) :=
  LinkedChains.walk Ends (bpb.fatGet disk) fatEoc start

def clusterBytes (cluster : Nat) : List UInt8 :=
  if bpb.clusterToOffset cluster + bpb.clusterSize ≤ disk.size then
    load disk.bytes (bpb.clusterToOffset cluster) bpb.clusterSize
  else []

def readChain (start : Nat) : Option (List UInt8) :=
  (bpb.chainFrom disk start).map (List.flatMap (bpb.clusterBytes disk))

def extend : (count : Nat) → List Nat → Disk → Option (List Nat) × Disk
  | 0, chain, disk => (some chain, disk)
  | count + 1, chain, disk =>
    match bpb.allocCluster disk with
    | (none, disk) => (none, disk)
    | (some newC, disk) =>
      match chain.getLast? with
      | some last => extend count (chain ++ [newC]) (bpb.fatSet disk last newC)
      | none => extend count (chain ++ [newC]) disk

def cut (chain : List Nat) (needed : Nat) (disk : Disk) : Disk :=
  if needed < chain.length ∧ 0 < needed then
    (chain.drop needed).foldl (fun disk excess => bpb.fatSet disk excess 0)
      (bpb.fatSet disk (chain.getD (needed - 1) 0) fatEoc)
  else disk

def inParts (put : Disk → Nat → List UInt8 → Disk) (size : Nat) :
    List Nat → List UInt8 → Disk → Disk
  | [], _, disk => disk
  | cluster :: rest, data, disk =>
    inParts put size rest (data.drop size) (put disk cluster (data.take size))

def writeData (chain : List Nat) (data : List UInt8) (disk : Disk) : Disk :=
  inParts bpb.putCluster bpb.clusterSize chain data disk

def needed (data : List UInt8) : Nat := (data.length + bpb.clusterSize - 1) / bpb.clusterSize

/-- There is no answer when clusters have no bytes, a division by zero, and when the chain does
not end. -/
def writeChain (start : Nat) (data : List UInt8) : Option (Option Nat × Disk) :=
  if bpb.clusterSize = 0 then none
  else (bpb.chainFrom disk start).map fun chain =>
    match bpb.extend (bpb.needed data - chain.length) chain disk with
    | (none, disk) => (none, disk)
    | (some chain, disk) =>
      (some (chain.head?.getD 0),
        bpb.writeData (chain.take (bpb.needed data)) data (bpb.cut chain (bpb.needed data) disk))

end Bpb

end Qunix.Fs.Fat32
