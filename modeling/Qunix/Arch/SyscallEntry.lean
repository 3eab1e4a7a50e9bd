/-! # Entering and leaving the kernel with `syscall`

The registers that user code sees, and the assembly of `syscall_entry.rs`.
-/

namespace Qunix.Arch

inductive Register
  | rax
  | rbx
  | rcx
  | rdx
  | rsi
  | rdi
  | rbp
  | rsp
  | r8
  | r9
  | r10
  | r11
  | r12
  | r13
  | r14
  | r15
deriving DecidableEq

structure UserState where
  register : Register → BitVec 64
  rip : BitVec 64
  rflags : BitVec 64
  /-- Bit 1 of `RFLAGS` is wired to one. -/
  fixed : rflags.getLsbD 1 = true

/-- The flags of code that runs with interrupts on, and no other flag. -/
theorem UserState.fixed_interruptible : (0x202#64).getLsbD 1 = true := rfl

structure SyscallFrame where
  r15 : BitVec 64
  r14 : BitVec 64
  r13 : BitVec 64
  r12 : BitVec 64
  r11 : BitVec 64
  r10 : BitVec 64
  r9 : BitVec 64
  r8 : BitVec 64
  rbp : BitVec 64
  rdi : BitVec 64
  rsi : BitVec 64
  rdx : BitVec 64
  rcx : BitVec 64
  rbx : BitVec 64
  rax : BitVec 64
  rflagsSaved : BitVec 64
  ripSaved : BitVec 64

/-- The frame that `syscall_entry` pushes. The `syscall` instruction has put the
instruction pointer in `rcx` and the flags in `r11`. -/
def syscallEntry (user : UserState) : SyscallFrame where
  r15 := user.register .r15
  r14 := user.register .r14
  r13 := user.register .r13
  r12 := user.register .r12
  r11 := user.rflags
  r10 := user.register .r10
  r9 := user.register .r9
  r8 := user.register .r8
  rbp := user.register .rbp
  rdi := user.register .rdi
  rsi := user.register .rsi
  rdx := user.register .rdx
  rcx := user.rip
  rbx := user.register .rbx
  rax := user.register .rax
  rflagsSaved := user.rflags
  ripSaved := user.rip

/-- What `sysretq` loads from `r11`. -/
def sysretFlags (r11 : BitVec 64) : BitVec 64 := r11 &&& 0x3C7FD7#64 ||| 2#64

/-- The frame after `syscall_exit` has popped it, with the result in `rax` and the
stack pointer from `gs:[16]`. -/
def syscallExit (frame : SyscallFrame) (retval userRsp : BitVec 64) : UserState where
  register := fun
    | .rax => retval
    | .rbx => frame.rbx
    | .rcx => frame.ripSaved
    | .rdx => frame.rdx
    | .rsi => frame.rsi
    | .rdi => frame.rdi
    | .rbp => frame.rbp
    | .rsp => userRsp
    | .r8 => frame.r8
    | .r9 => frame.r9
    | .r10 => frame.r10
    | .r11 => frame.rflagsSaved
    | .r12 => frame.r12
    | .r13 => frame.r13
    | .r14 => frame.r14
    | .r15 => frame.r15
  rip := frame.ripSaved
  rflags := sysretFlags frame.rflagsSaved
  fixed := by
    rw [sysretFlags, BitVec.getLsbD_or]
    exact Bool.or_true _

end Qunix.Arch
