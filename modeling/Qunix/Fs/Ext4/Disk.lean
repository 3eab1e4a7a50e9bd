import Qunix.Foundation.Bytes

/-! # Disks under ext4

The driver reads and writes whole blocks, so a disk is a sequence of blocks here.
-/

namespace Qunix.Fs.Ext4

open Foundation

abbrev Block := List UInt8

/-- A disk image of `count` blocks. -/
structure Disk where
  blocks : Nat → Block
  count : Nat

namespace Disk

variable (self : Disk)

/-- `read_bytes` of one block, which fails past the end. -/
def read (block : Nat) : Option Block :=
  if block < self.count then some (self.blocks block) else none

def put (block : Nat) (data : Block) : Disk :=
  { self with blocks := Function.update self.blocks block data }

/-- `write_bytes` of one block, which fails past the end. -/
def write (block : Nat) (data : Block) : Option Disk :=
  if block < self.count then some (self.put block data) else none

def putAll (writes : List (Nat × Block)) : Disk :=
  writes.foldl (fun disk write => disk.put write.1 write.2) self

theorem put_blocks_same (block : Nat) (data : Block) :
    (self.put block data).blocks block = data :=
  Function.update_self ..

theorem put_blocks_other {block other : Nat} (data : Block)
    (different : other ≠ block) : (self.put block data).blocks other = self.blocks other :=
  Function.update_of_ne different ..

theorem putAll_count (writes : List (Nat × Block)) :
    ∀ disk : Disk, (disk.putAll writes).count = disk.count := by
  induction writes with
  | nil =>
    intro disk
    rfl
  | cons write rest induction =>
    intro disk
    exact induction _

theorem putAll_blocks_other {block : Nat} (writes : List (Nat × Block)) :
    ∀ disk : Disk, (∀ write ∈ writes, write.1 ≠ block) →
      (disk.putAll writes).blocks block = disk.blocks block := by
  induction writes with
  | nil =>
    intro disk _
    rfl
  | cons write rest induction =>
    intro disk elsewhere
    have restElsewhere := induction (disk.put write.1 write.2)
      fun other member => elsewhere other (List.mem_cons_of_mem write member)
    exact restElsewhere.trans
      (disk.put_blocks_other write.2 (elsewhere write List.mem_cons_self).symm)

theorem putAll_append (first second : List (Nat × Block)) (disk : Disk) :
    disk.putAll (first ++ second) = (disk.putAll first).putAll second :=
  List.foldl_append ..

end Disk

/-! ## Checksums -/

def crcTable : List Nat :=
  [0x00000000, 0xF26B8303, 0xE13B70F7, 0x1350F3F4, 0xC79A971F, 0x35F1141C, 0x26A1E7E8, 0xD4CA64EB,
    0x8AD958CF, 0x78B2DBCC, 0x6BE22838, 0x9989AB3B, 0x4D43CFD0, 0xBF284CD3, 0xAC78BF27, 0x5E133C24,
    0x105EC76F, 0xE235446C, 0xF165B798, 0x030E349B, 0xD7C45070, 0x25AFD373, 0x36FF2087, 0xC494A384,
    0x9A879FA0, 0x68EC1CA3, 0x7BBCEF57, 0x89D76C54, 0x5D1D08BF, 0xAF768BBC, 0xBC267848, 0x4E4DFB4B]

/-- `!crc` on 32 bits. -/
def complement (crc : Nat) : Nat := 0xFFFFFFFF - crc % 2 ^ 32

def crcStep (crc : Nat) (byte : UInt8) : Nat :=
  Nat.xor (crcTable.getD (Nat.land (Nat.xor crc byte.toNat) 0x1F) 0) (crc / 32)

def crc32c (crc : Nat) (data : List UInt8) : Nat :=
  complement (data.foldl crcStep (complement crc))

end Qunix.Fs.Ext4
