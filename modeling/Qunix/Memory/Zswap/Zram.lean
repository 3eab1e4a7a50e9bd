import Qunix.Foundation.FlatArray
import Qunix.Memory.Zswap.Lz4

/-! # The zram block device

`ZramDevice` of `memory/zswap.rs`: pages of eight sectors, each stored compressed.
-/

namespace Qunix.Memory.Zswap

open Foundation FlatArray

def sectorSize : Nat := 512

def pageSize : Nat := 4096

def zeroPage : List UInt8 := List.replicate pageSize 0

structure ZramDevice where
  /-- The compressed pages by their number. -/
  blocks : Nat → Option (List UInt8)
  totalSectors : Nat
  origBytes : Nat
  compBytes : Nat

namespace ZramDevice

def new (sizeMb : Nat) : ZramDevice where
  blocks := fun _ => none
  totalSectors := Word.mul (Word.mul sizeMb 1024) 1024 / sectorSize
  origBytes := 0
  compBytes := 0

/-- The loop of `read_sectors` from sector `s` of the buffer on. -/
def readLoop (self : ZramDevice) (lba : Nat) :
    (count s : Nat) → List UInt8 → Option (Bool × List UInt8)
  | 0, _, buf => some (true, buf)
  | count + 1, s, buf =>
    let sector := Word.add lba s
    let sOff := sector % 8 * sectorSize
    let bOff := s * sectorSize
    match self.blocks (sector / 8) with
    | some compressed =>
      match lz4Decompress compressed zeroPage with
      | none => none
      | some (false, _) => some (false, buf)
      | some (true, page) =>
        self.readLoop lba count (s + 1)
          (overwrite buf bOff ((page.drop sOff).take sectorSize))
    | none =>
      self.readLoop lba count (s + 1) (overwrite buf bOff (List.replicate sectorSize 0))

variable (self : ZramDevice)

def readSectors (lba : Nat) (buf : List UInt8) : Option (Bool × List UInt8) :=
  self.readLoop lba (buf.length / sectorSize) 0 buf

def existingPage (block : Nat) : Option (Bool × List UInt8) :=
  match self.blocks block with
  | some existing => lz4Decompress existing zeroPage
  | none => some (true, zeroPage)

def fillSectors (buf : List UInt8) (first s : Nat) (page : List UInt8) (count : Nat) : List UInt8 :=
  (List.range count).foldl (fun page i =>
    overwrite page ((first + i) * sectorSize)
      ((buf.drop ((s + i) * sectorSize)).take sectorSize)) page

/-- Compress a page and keep it. A page that does not shrink enough is kept as it is. -/
def storePage (block : Nat) (page : List UInt8) : Option ZramDevice :=
  (lz4Compress page (List.replicate (pageSize + 64) 0)).map fun
    | (some compLen, comp) =>
      let oldSize := ((self.blocks block).map List.length).getD 0
      { self with
        blocks := Function.update self.blocks block (some (comp.take compLen))
        origBytes := Word.add self.origBytes 4096
        compBytes := Word.sub (Word.add self.compBytes compLen) oldSize }
    | (none, _) =>
      { self with
        blocks := Function.update self.blocks block (some page)
        origBytes := Word.add self.origBytes 4096
        compBytes := Word.add self.compBytes 4096 }

/-- The loop of `write_sectors` from sector `s` of the buffer on. Every turn writes a
sector, so the number of sectors bounds the turns. -/
def writeLoop (lba : Nat) (buf : List UInt8) :
    (fuel : Nat) → ZramDevice → (s : Nat) → Option (Bool × ZramDevice)
  | 0, _, _ => none
  | fuel + 1, self, s =>
    let nSectors := buf.length / sectorSize
    if s < nSectors then
      let sector := Word.add lba s
      let block := sector / 8
      match self.existingPage block with
      | none => none
      | some (false, _) => some (false, self)
      | some (true, page) =>
        let firstInBlock := sector - block * 8
        let canFill := min (8 - firstInBlock) (nSectors - s)
        (self.storePage block (fillSectors buf firstInBlock s page canFill)).bind fun self =>
          writeLoop lba buf fuel self (s + canFill)
    else some (true, self)

def writeSectors (lba : Nat) (buf : List UInt8) : Option (Bool × ZramDevice) :=
  writeLoop lba buf (buf.length / sectorSize + 1) self 0

end ZramDevice

end Qunix.Memory.Zswap
