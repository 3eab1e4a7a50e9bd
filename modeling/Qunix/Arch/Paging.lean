import Qunix.Foundation.RadixTable
import Qunix.Memory.FrameAllocator

/-! # Page tables

`arch/x86_64/paging.rs`: four levels of tables with 512 slots each, all of them
frames of the physical allocator. Physical addresses are page aligned throughout,
so a frame stands for its address. A slot is `none` when the present bit is off.
-/

namespace Qunix.Arch

open Foundation Memory

def pageSize : Nat := Phys.pageSize

/-- The bits of `PageFlags` that the memory manager uses. The present bit is set
in every entry that is written. -/
structure PageFlags where
  writable : Bool
  user : Bool
  cow : Bool
  noExecute : Bool
deriving DecidableEq

structure PageTableEntry where
  frame : Nat
  flags : PageFlags
deriving DecidableEq

/-- The memory of the machine as the kernel manages it. Frames used as page
tables are kept apart from frames that hold bytes. -/
structure MemoryState (allocator : FrameAllocator) where
  frames : allocator.State
  /-- The CPU that executes the kernel. -/
  cpu : Nat
  tables : Tables PageTableEntry
  bytes : Nat → Nat → UInt8
  /-- `COW_REFCOUNTS`. -/
  refcounts : Nat → Nat

namespace MemoryState

variable {allocator : FrameAllocator} (self : MemoryState allocator)

def allocFrame : Option Nat × MemoryState allocator :=
  let answer := allocator.alloc self.frames self.cpu
  (answer.1, { self with frames := answer.2 })

def freeFrame (frame : Nat) : MemoryState allocator :=
  { self with frames := allocator.free self.frames self.cpu frame }

/-- The index into the table of a level, `(virt >> (12 + 9 * level)) & 0x1FF`. -/
def tableIndex (level virt : Nat) : Nat := virt / 2 ^ (12 + 9 * level) % 512

/-- The next table down, made if it is missing. `none` is the panic of
`expect("OOM in page table alloc")`. -/
def ensureTable (table slot : Nat) (flags : PageFlags) :
    Option (MemoryState allocator × Nat) :=
  match self.tables table slot with
  | some entry => some (self, entry.frame)
  | none =>
    match self.allocFrame with
    | (none, _) => none
    | (some frame, next) =>
      some ({ next with
        tables := next.tables.hang table slot frame
          ⟨frame, { flags with writable := true }⟩ }, frame)

def mapPage (pml4 virt frame : Nat) (flags : PageFlags) :
    Option (MemoryState allocator) := do
  let (self, pdpt) ← self.ensureTable pml4 (tableIndex 3 virt) flags
  let (self, pd) ← self.ensureTable pdpt (tableIndex 2 virt) flags
  let (self, pt) ← self.ensureTable pd (tableIndex 1 virt) flags
  some { self with tables := self.tables.write pt (tableIndex 0 virt) (some ⟨frame, flags⟩) }

def getEntry (pml4 virt : Nat) : Option (Nat × Nat) := do
  let e4 ← self.tables pml4 (tableIndex 3 virt)
  let e3 ← self.tables e4.frame (tableIndex 2 virt)
  let e2 ← self.tables e3.frame (tableIndex 1 virt)
  some (e2.frame, tableIndex 0 virt)

def unmapPage (pml4 virt : Nat) : MemoryState allocator :=
  match self.getEntry pml4 virt with
  | some (table, slot) => { self with tables := self.tables.write table slot none }
  | none => self

def getFlags (pml4 virt : Nat) : Option PageFlags := do
  let (table, slot) ← self.getEntry pml4 virt
  let entry ← self.tables table slot
  some entry.flags

/-- The frame an address is mapped to. The offset in the page, which every
caller of `translate` masks off, is left out. -/
def translate (pml4 virt : Nat) : Option Nat := do
  let (table, slot) ← self.getEntry pml4 virt
  let entry ← self.tables table slot
  some entry.frame

/-! ## Pages by number -/

/-- The 36 bits of an address that select its page. -/
def pageNumber (virt : Nat) : Nat := virt / pageSize % 2 ^ 36

/-- Pages below this number belong to the user half, table slots below 256. -/
def userPages : Nat := 2 ^ 35

def pathWidth : Nat → Nat
  | 0 => 1
  | depth + 1 => 256 * 512 ^ depth

def page (pml4 number : Nat) : Option PageTableEntry :=
  self.tables.entryAt PageTableEntry.frame 512 pml4 3 number

abbrev IsTable (roots : Nat → Prop) (frame : Nat) : Prop :=
  self.tables.IsTable PageTableEntry.frame 512 roots pathWidth 3 frame

theorem pathWidth_narrow (depth : Nat) : pathWidth (depth + 1) ≤ pathWidth depth * 512 := by
  cases depth with
  | zero => decide
  | succ depth => rw [pathWidth, pathWidth, pow_succ, mul_assoc]

theorem pathWidth_four : pathWidth (3 + 1) = userPages := by decide

theorem tableIndex_zero (virt : Nat) : tableIndex 0 virt = pageNumber virt % 512 := by
  simp only [tableIndex, pageNumber, pageSize, Phys.pageSize]
  omega

theorem tableIndex_one (virt : Nat) : tableIndex 1 virt = pageNumber virt / 512 % 512 := by
  simp only [tableIndex, pageNumber, pageSize, Phys.pageSize]
  omega

theorem tableIndex_two (virt : Nat) :
    tableIndex 2 virt = pageNumber virt / 512 / 512 % 512 := by
  simp only [tableIndex, pageNumber, pageSize, Phys.pageSize]
  omega

theorem tableIndex_three (virt : Nat) :
    tableIndex 3 virt = pageNumber virt / 512 / 512 / 512 % 512 := by
  simp only [tableIndex, pageNumber, pageSize, Phys.pageSize]
  omega

theorem getEntry_eq (pml4 virt : Nat) :
    self.getEntry pml4 virt =
      (self.tables.tableAt PageTableEntry.frame 512 pml4 3 (pageNumber virt / 512)).map
        (·, pageNumber virt % 512) := by
  simp only [getEntry, Tables.tableAt, tableIndex_zero, tableIndex_one, tableIndex_two,
    tableIndex_three, Option.bind_some]
  cases self.tables pml4 (pageNumber virt / 512 / 512 / 512 % 512) with
  | none => rfl
  | some e4 =>
    cases second : self.tables e4.frame (pageNumber virt / 512 / 512 % 512) with
    | none => simp [second]
    | some e3 =>
      cases third : self.tables e3.frame (pageNumber virt / 512 % 512) <;>
        simp [second, third]

theorem translate_eq (pml4 virt : Nat) :
    self.translate pml4 virt =
      (self.page pml4 (pageNumber virt)).map PageTableEntry.frame := by
  simp only [translate, getEntry_eq, page, Tables.entryAt]
  cases self.tables.tableAt PageTableEntry.frame 512 pml4 3 (pageNumber virt / 512) with
  | none => rfl
  | some table => cases entry : self.tables table (pageNumber virt % 512) <;> simp [entry]

theorem getFlags_eq (pml4 virt : Nat) :
    self.getFlags pml4 virt =
      (self.page pml4 (pageNumber virt)).map PageTableEntry.flags := by
  simp only [getFlags, getEntry_eq, page, Tables.entryAt]
  cases self.tables.tableAt PageTableEntry.frame 512 pml4 3 (pageNumber virt / 512) with
  | none => rfl
  | some table => cases entry : self.tables table (pageNumber virt % 512) <;> simp [entry]

end MemoryState

end Qunix.Arch
