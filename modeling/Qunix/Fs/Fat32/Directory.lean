import Qunix.Fs.Fat32.Image
import Qunix.Fs.Fat32.Names

/-! # Directories of a FAT32 image

The records of a directory as `fs/fat32_rw/mod.rs` finds and changes them. A directory is the
contents of a chain, in slots of 32 bytes.
-/

namespace Qunix.Fs.Fat32

open Foundation Bytes FlatArray

/-! ## Slots -/

namespace Slot

variable (slot : List UInt8)

def name83 : List UInt8 := slot.take 11

def cluster : Nat := readLe16 slot 20 * 65536 + readLe16 slot 26

def size : Nat := readLe32 slot 28

end Slot

/-- A new entry; the date is the first of January 2016. -/
def direntBytes (name83 : List UInt8) (cluster size : Nat) (isDir : Bool) : List UInt8 :=
  name83 ++ [if isDir then 0x10 else 0x20, 0, 0] ++ le16 0 ++ le16 0x4A21 ++ le16 0x4A21 ++
    le16 (cluster / 65536) ++ le16 0 ++ le16 0x4A21 ++ le16 cluster ++ le32 size

namespace Bpb

variable (bpb : Bpb) (disk : Disk)

/-- The slots of a cluster that are in the image. -/
def slotPlaces (cluster : Nat) : List Nat :=
  ((List.range (bpb.clusterSize / 32)).map fun index =>
    bpb.clusterToOffset cluster + index * 32).filter fun place => place + 32 ≤ disk.size

def findSlot (wanted : List UInt8 → Prop) [DecidablePred wanted] (disk : Disk) (cluster : Nat) :
    Option Nat :=
  (bpb.slotPlaces disk cluster).find? fun place => wanted (load disk.bytes place 32)

/-- The first slot of a kind in a chain; no answer when there is none and the chain does not
end. -/
def seekSlot (wanted : List UInt8 → Prop) [DecidablePred wanted] (disk : Disk) :
    (fuel : Nat) → Nat → Option (Option Nat)
  | 0, cluster => if Ends cluster then some none else none
  | fuel + 1, cluster =>
    if Ends cluster then some none
    else
      match bpb.findSlot wanted disk cluster with
      | some place => some (some place)
      | none => seekSlot wanted disk fuel (bpb.fatGet disk cluster)

def patch (place : Nat) (data : List UInt8) : Disk :=
  { disk with bytes := store disk.bytes place data }

/-- The first slot with the name gets another chain and another size. -/
def updateDirentSize (dirCluster : Nat) (name83 : List UInt8)
    (newCluster newSize : Nat) : Option Disk :=
  (bpb.seekSlot (fun slot => Slot.name83 slot = name83) disk fatEoc dirCluster).map fun found =>
    match found with
    | some place =>
      patch (patch disk (place + 20) (le16 (newCluster / 65536))) (place + 26)
        (le16 newCluster ++ le32 newSize)
    | none => disk

end Bpb

end Qunix.Fs.Fat32
