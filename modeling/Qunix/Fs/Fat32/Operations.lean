import Qunix.Fs.Fat32.Directory

/-! # Reading and writing files

`Fat32RwInoOps`: an inode remembers the start of its chain, the start of the directory that it
was found in and the short name of its entry. A call has no answer when it runs into a chain
without an end or panics.
-/

namespace Qunix.Fs.Fat32

open Foundation Bytes FlatArray

inductive FatError where
  | eisdir
  deriving DecidableEq

structure Inode where
  ino : Nat
  mode : Nat
  size : Nat
  cluster : Nat
  isDir : Bool
  parentCluster : Nat
  name83 : List UInt8
  deriving DecidableEq

def fileMode : Nat := 0x8000

def dirMode : Nat := 0x4000

namespace Bpb

variable (bpb : Bpb)

variable (disk : Disk)

/-- Copy a part of the data into a new cluster, which is blank already. -/
def copyCluster (cluster : Nat) (data : List UInt8) : Disk :=
  if bpb.clusterToOffset cluster + bpb.clusterSize ≤ disk.size ∧ data ≠ [] then
    patch disk (bpb.clusterToOffset cluster) data
  else disk

def allocChain (data : List UInt8) : Option Nat × Disk :=
  match bpb.allocCluster disk with
  | (none, disk) => (none, disk)
  | (some first, disk) =>
    let needed := max (data.length + bpb.clusterSize - 1) 1 / bpb.clusterSize
    match bpb.extend (needed - 1) [first] disk with
    | (none, disk) => (none, disk)
    | (some chain, disk) =>
      (some first, inParts bpb.copyCluster bpb.clusterSize chain data disk)

/-! ## Files -/

variable (inode : Inode)

def read (length offset : Nat) :
    Option (Except FatError (List UInt8)) :=
  if inode.isDir then some (.error .eisdir)
  else
    (bpb.readChain disk inode.cluster).map fun data =>
      .ok ((data.drop offset).take (min (min (offset + length) inode.size) data.length - offset))

/-- What a write starts from; a file without a chain has no data. -/
def oldData : Option (List UInt8) :=
  if 2 ≤ inode.cluster then bpb.readChain disk inode.cluster else some []

def filledUp (length : Nat) (data : List UInt8) : List UInt8 :=
  data ++ List.replicate (length - data.length) 0

/-- Write the data to the chain of a file, or to a new one if it has none. -/
def storeData (cluster : Nat) (data : List UInt8) : Option (Nat × Disk) :=
  if 2 ≤ cluster then
    (bpb.writeChain disk cluster data).map fun (start, disk) => (start.getD cluster, disk)
  else
    let (start, disk) := bpb.allocChain disk data
    some (start.getD 0, disk)

/-- A range that ends behind the longest vector panics. -/
def write (buf : List UInt8) (offset : Nat) :
    Option (Except FatError Nat × Disk) :=
  if inode.isDir then some (.error .eisdir, disk)
  else if 9223372036854775808 ≤ offset + buf.length then none
  else do
    let old ← bpb.oldData disk inode
    let data := overwrite (filledUp (offset + buf.length) old) offset buf
    let (newCluster, disk) ← bpb.storeData disk inode.cluster data
    let disk ← bpb.updateDirentSize disk inode.parentCluster inode.name83 newCluster data.length
    some (.ok buf.length, disk)

def newInode (dirCluster newCluster mode : Nat) (isDir : Bool) (name83 : List UInt8) : Inode where
  ino := newCluster
  mode := (if isDir then dirMode else fileMode) + mode % 0o1000
  size := 0
  cluster := newCluster
  isDir := isDir
  parentCluster := dirCluster
  name83 := name83

end Bpb

end Qunix.Fs.Fat32
