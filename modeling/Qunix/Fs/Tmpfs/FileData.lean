import Qunix.Memory.PageCopy

/-! # The data of a tmpfs file

`TmpFileData` of `fs/tmpfs/mod.rs`: a length and the frames of the pages, in order.
-/

namespace Qunix.Fs.Tmpfs

open Foundation Arch Memory

/-- The frames stand for the addresses that `alloc_frame` returns. -/
structure TmpFileData where
  len : Nat
  pages : List Nat

inductive Answer (Value : Type)
  | ok (value : Value)
  | enomem
deriving DecidableEq

namespace TmpFileData

variable {allocator : FrameAllocator}

def new : TmpFileData := ⟨0, []⟩

def requiredPages (len : Nat) : Nat := if len = 0 then 0 else Word.add len 4095 / 4096

def addPages (self : TmpFileData) (memory : MemoryState allocator) :
    (count : Nat) → Bool × TmpFileData × MemoryState allocator
  | 0 => (true, self, memory)
  | count + 1 =>
    match memory.allocFrame with
    | (none, memory) => (false, self, memory)
    | (some frame, memory) =>
      addPages { self with pages := self.pages ++ [frame] } (memory.fillFrame frame fun _ => 0)
        count

variable (self : TmpFileData) (memory : MemoryState allocator)

def ensureLen (len : Nat) :
    Bool × TmpFileData × MemoryState allocator :=
  self.addPages memory (requiredPages len - self.pages.length)

def frameAt (position : Nat) : Option Nat := self.pages[position / 4096]?

/-- Write `remaining` bytes of the file, page by page. There is no answer when a
page is missing, where the index panics. -/
def fill (source : Nat → UInt8) (position remaining : Nat)
    (memory : MemoryState allocator) : Option (MemoryState allocator) :=
  match MemoryState.copyIn self.frameAt source remaining position remaining memory with
  | (true, memory) => some memory
  | (false, _) => none

def zeroRange (start stop : Nat) :
    Option (Bool × TmpFileData × MemoryState allocator) :=
  if stop ≤ start then some (true, self, memory)
  else
    match self.ensureLen memory stop with
    | (false, self, memory) => some (false, self, memory)
    | (true, self, memory) =>
      (self.fill (fun _ => 0) start (stop - start) memory).map fun memory =>
        (true, self, memory)

/-- What `read` copies to a buffer of `count` bytes. -/
def read (offset count : Nat) :
    Option (List UInt8) :=
  if self.len ≤ offset then some []
  else
    let total := min count (self.len - offset)
    memory.copyOut self.frameAt total offset total

/-- The second half of `write`, with the pages up to `offset` in place. -/
def writeAt (offset : Nat)
    (data : List UInt8) : Option (Answer Nat × TmpFileData × MemoryState allocator) :=
  let stop := Word.add offset data.length
  match self.ensureLen memory stop with
  | (false, self, memory) => some (.enomem, self, memory)
  | (true, self, memory) =>
    (self.fill (fun position => data.getD (position - offset) 0) offset data.length
      memory).map fun memory =>
      (.ok data.length, { self with len := max self.len stop }, memory)

def write (offset : Nat)
    (data : List UInt8) : Option (Answer Nat × TmpFileData × MemoryState allocator) :=
  if data.isEmpty then some (.ok 0, self, memory)
  else if self.len < offset then
    (self.zeroRange memory self.len offset).bind fun
      | (false, self, memory) => some (.enomem, self, memory)
      | (true, self, memory) => self.writeAt memory offset data
  else self.writeAt memory offset data

def dropPages (self : TmpFileData) (memory : MemoryState allocator) :
    (count : Nat) → TmpFileData × MemoryState allocator
  | 0 => (self, memory)
  | count + 1 =>
    match self.pages.getLast? with
    | none => (self, memory)
    | some frame =>
      dropPages { self with pages := self.pages.dropLast } (memory.freeFrame frame) count

def zeroTail :
    Option (MemoryState allocator) :=
  if 0 < requiredPages self.len ∧ self.len % 4096 ≠ 0 then
    match self.pages[requiredPages self.len - 1]? with
    | none => none
    | some frame =>
      some (memory.fillChunk frame (self.len % 4096) (4096 - self.len % 4096) fun _ => 0)
  else some memory

def truncate (len : Nat) :
    Option (Answer Unit × TmpFileData × MemoryState allocator) :=
  if self.len < len then
    (self.zeroRange memory self.len len).map fun
      | (false, self, memory) => (.enomem, self, memory)
      | (true, self, memory) => (.ok (), { self with len := len }, memory)
  else
    let shortened := { self with len := len }
    let dropped := shortened.dropPages memory (self.pages.length - requiredPages len)
    (dropped.1.zeroTail dropped.2).map fun memory => (.ok (), dropped.1, memory)

end TmpFileData

end Qunix.Fs.Tmpfs
