import Qunix.Arch.SyscallEntry
import Qunix.Foundation.Bytes
import Qunix.Memory.PageCopy

/-! # The signal frame on the user stack

The layout of `SigFrame`, and the loops that copy it to and from user memory.
-/

namespace Qunix.Signal

open Arch Foundation Memory MemoryState

/-! ## Layout -/

structure SigInfo where
  signo : BitVec 32
  errno : BitVec 32
  code : BitVec 32
  pad : BitVec 32
  data : Vector (BitVec 64) 14

structure MContext where
  r8 : BitVec 64
  r9 : BitVec 64
  r10 : BitVec 64
  r11 : BitVec 64
  r12 : BitVec 64
  r13 : BitVec 64
  r14 : BitVec 64
  r15 : BitVec 64
  rdi : BitVec 64
  rsi : BitVec 64
  rbp : BitVec 64
  rbx : BitVec 64
  rdx : BitVec 64
  rax : BitVec 64
  rcx : BitVec 64
  rsp : BitVec 64
  rip : BitVec 64
  eflags : BitVec 64
  cs : BitVec 16
  gs : BitVec 16
  fs : BitVec 16
  pad : BitVec 16
  err : BitVec 64
  trapno : BitVec 64
  oldmask : BitVec 64
  cr2 : BitVec 64
  fpstate : BitVec 64
  reserved : Vector (BitVec 64) 8

structure UContext where
  flags : BitVec 64
  link : BitVec 64
  stack : Vector (BitVec 64) 3
  mcontext : MContext
  sigmask : BitVec 64
  fpregs : Vector (BitVec 64) 8

structure SigFrame where
  pretcode : BitVec 64
  info : SigInfo
  uc : UContext

def SigInfo.words (self : SigInfo) : List (BitVec 64) :=
  [self.errno ++ self.signo, self.pad ++ self.code] ++ self.data.toList

def MContext.words (self : MContext) : List (BitVec 64) :=
  [self.r8, self.r9, self.r10, self.r11, self.r12, self.r13, self.r14, self.r15,
    self.rdi, self.rsi, self.rbp, self.rbx, self.rdx, self.rax, self.rcx, self.rsp,
    self.rip, self.eflags, self.pad ++ self.fs ++ self.gs ++ self.cs,
    self.err, self.trapno, self.oldmask, self.cr2, self.fpstate] ++ self.reserved.toList

def UContext.words (self : UContext) : List (BitVec 64) :=
  [self.flags, self.link] ++ self.stack.toList ++ self.mcontext.words ++ [self.sigmask] ++
    self.fpregs.toList

namespace SigFrame

def words (self : SigFrame) : List (BitVec 64) :=
  [self.pretcode] ++ self.info.words ++ self.uc.words

def bytes (self : SigFrame) : List UInt8 := self.words.flatMap fun word => Bytes.le64 word.toNat

/-- `size_of::<SigFrame>()`. -/
def size : Nat := 504

end SigFrame

def wordAt (bytes : List UInt8) (index : Nat) : BitVec 64 :=
  BitVec.ofNat 64 (Bytes.readLe64 bytes (8 * index))

/-- The `mcontext` of a frame in memory. -/
def MContext.ofBytes (bytes : List UInt8) : MContext where
  r8 := wordAt bytes 22
  r9 := wordAt bytes 23
  r10 := wordAt bytes 24
  r11 := wordAt bytes 25
  r12 := wordAt bytes 26
  r13 := wordAt bytes 27
  r14 := wordAt bytes 28
  r15 := wordAt bytes 29
  rdi := wordAt bytes 30
  rsi := wordAt bytes 31
  rbp := wordAt bytes 32
  rbx := wordAt bytes 33
  rdx := wordAt bytes 34
  rax := wordAt bytes 35
  rcx := wordAt bytes 36
  rsp := wordAt bytes 37
  rip := wordAt bytes 38
  eflags := wordAt bytes 39
  cs := (wordAt bytes 40).extractLsb' 0 16
  gs := (wordAt bytes 40).extractLsb' 16 16
  fs := (wordAt bytes 40).extractLsb' 32 16
  pad := (wordAt bytes 40).extractLsb' 48 16
  err := wordAt bytes 41
  trapno := wordAt bytes 42
  oldmask := wordAt bytes 43
  cr2 := wordAt bytes 44
  fpstate := wordAt bytes 45
  reserved := Vector.ofFn fun index => wordAt bytes (46 + index)

/-- `uc.sigmask` of a frame in memory. -/
def sigmaskOfBytes (bytes : List UInt8) : BitVec 64 := wordAt bytes 54

theorem SigFrame.length_words (frame : SigFrame) : frame.words.length = 63 := by
  simp [words, SigInfo.words, UContext.words, MContext.words]

theorem SigFrame.length_bytes (frame : SigFrame) : frame.bytes.length = size := by
  have eight : ∀ word : BitVec 64, (Bytes.le64 word.toNat).length = 8 := fun _ => rfl
  rw [bytes, List.length_flatMap, List.map_congr_left fun word _ => eight word, List.map_const',
    List.sum_replicate, frame.length_words]
  rfl

variable {index : Nat}

theorem wordAt_bytes {frame : SigFrame} {word : BitVec 64}
    (found : frame.words[index]? = some word) : wordAt frame.bytes index = word := by
  rw [wordAt, SigFrame.bytes, Bytes.readLe64_flatMap _ found, BitVec.ofNat_toNat,
    BitVec.setWidth_eq]

/-! ## Copies to and from user memory -/

section UserMemory

variable {allocator : FrameAllocator} {memory after : MemoryState allocator}

def userByte (memory : MemoryState allocator) (pml4 va : Nat) : Option UInt8 :=
  (memory.translate pml4 va).map fun frame => memory.bytes frame (va % 4096)

theorem userByte_getD (memory : MemoryState allocator) (pml4 va : Nat) :
    (userByte memory pml4 va).getD 0 = memory.byteOf (memory.translate pml4) va := by
  rw [userByte, MemoryState.byteOf]
  cases memory.translate pml4 va with
  | none | some frame => rfl

/-- The pages before an unmapped one stay written. -/
def writeToUserVa (pml4 va : Nat) (data : List UInt8) (memory : MemoryState allocator) :
    Bool × MemoryState allocator :=
  MemoryState.copyIn (memory.translate pml4) (fun position => data.getD (position - va) 0)
    data.length va data.length memory

/-- The loop of `sigreturn`. -/
def readFromUserVa (memory : MemoryState allocator) (pml4 va count : Nat) :
    Option (List UInt8) :=
  memory.copyOut (memory.translate pml4) count va count

theorem translate_paged (memory : MemoryState allocator) (pml4 : Nat) :
    Paged (memory.translate pml4) := by
  intro left right same
  have number : MemoryState.pageNumber left = MemoryState.pageNumber right :=
    congrArg (· % 2 ^ 36) same
  rw [translate_eq, translate_eq, number]

variable {pml4 va : Nat}

theorem translate_tables (same : after.tables = memory.tables) :
    after.translate pml4 = memory.translate pml4 := by
  funext va
  rw [MemoryState.translate, MemoryState.translate, MemoryState.getEntry, MemoryState.getEntry,
    same]

/-- A copy of at most a page writes no byte twice, whatever frames the pages are
mapped to. -/
theorem writeToUserVa_spec {data : List UInt8} (short : data.length ≤ 4096)
    (written : writeToUserVa pml4 va data memory = (true, after)) (inside : index < data.length) :
    (userByte after pml4 (va + index)).getD 0 = data.getD index 0 := by
  rcases copyIn_spec (translate_paged memory pml4) _ le_rfl written with
    ⟨same, _, bytes⟩
  rw [userByte_getD, translate_tables same.2, bytes (va + index) ?_, if_pos (by omega),
    add_tsub_cancel_left]
  intro other low high _ sameOffset
  omega

theorem readFromUserVa_spec {count : Nat} {bytes : List UInt8}
    (read : readFromUserVa memory pml4 va count = some bytes) (inside : index < count) :
    bytes.getD index 0 = (userByte memory pml4 (va + index)).getD 0 := by
  rw [userByte_getD, copyOut_spec (translate_paged memory pml4) _ le_rfl read]
  simp [inside]

end UserMemory

end Qunix.Signal
