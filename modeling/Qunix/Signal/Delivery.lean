import Qunix.Process.Table
import Qunix.Signal.Frame

/-! # Sending, delivering and returning from signals

`send_signal`, `apply_default`, the delivery at syscall exit and `sigreturn` of
`signal/mod.rs`.
-/

namespace Qunix.Signal

open Arch Foundation Memory MemoryState

def sigkill : Nat := 9
def sigchld : Nat := 17
def sigcont : Nat := 18
def sigstop : Nat := 19
def sigtstp : Nat := 20
def sigttin : Nat := 21
def sigttou : Nat := 22
def sigurg : Nat := 23
def sigwinch : Nat := 28
def sigsys : Nat := 31

def saNodefer : BitVec 32 := 0x40000000#32
def saResethand : BitVec 32 := 0x80000000#32

inductive DefaultAction
  | ignore
  | stop
  | cont
  | terminate

def defaultAction (sig : Nat) : DefaultAction :=
  if sig ∈ [sigchld, sigwinch, sigurg] then .ignore
  else if sig ∈ [sigstop, sigtstp, sigttin, sigttou] then .stop
  else if sig = sigcont then .cont
  else .terminate

def userEnd : BitVec 64 := 0x0000800000000000#64

def efault : BitVec 64 := BitVec.ofInt 64 (-14)

end Qunix.Signal

namespace Qunix.Process

open Signal

def receive (self : Process) (sig : Nat) : Process where
  __ := self
  sigPending :=
    if sig ≠ sigkill ∧ sig ≠ sigstop ∧ self.sigMask.has sig then self.sigPending
    else self.sigPending.add sig
  state := if sig = sigkill then .zombie (-1) else if sig = sigstop then .stopped else self.state

/-- The mask and the action while a handler runs. -/
def enterHandler (self : Process) (sig : Nat) (action : SigAction) : Process where
  __ := self
  sigMask := (List.range 64).foldl
    (fun mask s => if action.mask.has s then mask.add s else mask)
    (if action.flags &&& saNodefer = 0#32 then self.sigMask.add sig else self.sigMask)
  sigActions :=
    if action.flags &&& saResethand ≠ 0#32 then
      Function.update self.sigActions sig { self.sigActions sig with handler := .default }
    else self.sigActions

def isDead (self : Process) : Bool := self.isZombie || self.state = .stopped

end Qunix.Process

namespace Qunix.Kernel

open Arch Memory Signal

variable {allocator : FrameAllocator} (self : Kernel allocator)

def sendSignal (pid sig : Nat) : Kernel allocator :=
  if sig = 0 ∨ Process.nsig ≤ sig then self
  else if self.current ≠ 0 ∧ self.checkKillPermission self.current pid = false then self
  else self.withProcessMut pid (Process.receive · sig)

def terminate (pid sig : Nat) : Kernel allocator :=
  let ppid := ((self.procs pid).map (·.ppid)).getD 0
  let marked := (self.withProcessMut pid fun process =>
    { process with state := .zombie (-sig), exitCode := -sig }).schedulerCall (.removeTask pid)
  let notified := if ppid ≠ 0 then (marked.sendSignal ppid sigchld).wakeProcess ppid else marked
  if pid = notified.current then
    (notified.schedulerCall .setNeedResched).schedulerCall .schedule
  else notified

def continueStopped (pid : Nat) : Kernel allocator :=
  if (self.procs pid).map (·.state) = some .stopped then
    (self.withProcessMut pid fun process => { process with state := .runnable }).schedulerCall
      (.addTask pid 120 0)
  else self.wakeProcess pid

def applyDefault (pid sig : Nat) : Kernel allocator :=
  match defaultAction sig with
  | .ignore => self
  | .stop =>
    (self.withProcessMut pid fun process => { process with state := .stopped }).schedulerCall
      (.removeTask pid)
  | .cont => self.continueStopped pid
  | .terminate => self.terminate pid sig

/-! ## Delivery -/

/-- The frame as delivery fills it. The fields not named stay zero. -/
def signalFrame (sig : Nat) (action : SigAction) (frame : SyscallFrame)
    (userRsp mask : BitVec 64) : SigFrame where
  pretcode := action.restorer
  info := ⟨BitVec.ofNat 32 sig, 0#32, 0#32, 0#32, Vector.replicate 14 0#64⟩
  uc :=
    { flags := 0#64
      link := 0#64
      stack := Vector.replicate 3 0#64
      mcontext :=
        { rsp := userRsp
          rip := frame.ripSaved
          rax := frame.rax
          rbx := frame.rbx
          rcx := frame.rcx
          rdx := frame.rdx
          rsi := frame.rsi
          rdi := frame.rdi
          rbp := frame.rbp
          r8 := frame.r8
          r9 := frame.r9
          r10 := frame.r10
          r11 := frame.r11
          r12 := frame.r12
          r13 := frame.r13
          r14 := frame.r14
          r15 := frame.r15
          eflags := frame.rflagsSaved
          oldmask := mask
          cs := 0#16
          gs := 0#16
          fs := 0#16
          pad := 0#16
          err := 0#64
          trapno := 0#64
          cr2 := 0#64
          fpstate := 0#64
          reserved := Vector.replicate 8 0#64 }
      sigmask := mask
      fpregs := Vector.replicate 8 0#64 }

/-- Room for the frame below `userRsp`, aligned to 16 bytes. -/
def frameRsp (userRsp : BitVec 64) : BitVec 64 :=
  (userRsp - BitVec.ofNat 64 SigFrame.size) &&& ~~~0xF#64

/-- The new stack pointer, if the frame could be built. -/
def buildSignalFrame (pid sig : Nat) (action : SigAction)
    (frame : SyscallFrame) (userRsp : BitVec 64) : Option (BitVec 64) × Kernel allocator :=
  if userRsp = 0#64 ∨ userEnd ≤ userRsp then (none, self)
  else
    match self.procs pid with
    | none => (none, self)
    | some process =>
      if userEnd ≤ frameRsp userRsp then (none, self)
      else
        match writeToUserVa process.pml4 (frameRsp userRsp).toNat
          (signalFrame sig action frame userRsp process.sigMask.bits).bytes self.memory with
        | (false, memory) => (none, { self with memory := memory })
        | (true, memory) => (some (frameRsp userRsp), { self with memory := memory })

def actionOf (pid sig : Nat) : SigAction :=
  ((self.procs pid).map (Process.sigAction · sig)).getD .default

def deliverWithFrame (pid sig : Nat) (frame : SyscallFrame)
    (userRsp : BitVec 64) : SyscallFrame × Kernel allocator :=
  let action := self.actionOf pid sig
  match action.handler with
  | .ignore => (frame, self)
  | .user handler =>
    match self.buildSignalFrame pid sig action frame userRsp with
    | (some newRsp, built) =>
      ({ frame with ripSaved := handler },
        ({ built with userRsp := newRsp } : Kernel allocator).withProcessMut pid
          (Process.enterHandler · sig action))
    | (none, built) => (frame, built.applyDefault pid sig)
  | .default => (frame, self.applyDefault pid sig)

/-- Every turn takes a signal out of the 64 pending ones. -/
def deliverLoop (userRsp : BitVec 64) :
    (turns : Nat) → Kernel allocator → SyscallFrame → SyscallFrame × Kernel allocator
  | 0, self, frame => (frame, self)
  | turns + 1, self, frame =>
    match self.currentProcess with
    | none => (frame, self)
    | some process =>
      match (process.sigPending.andNot process.sigMask).nextPending with
      | none => (frame, self)
      | some sig =>
        let taken := self.withProcessMut self.current fun process =>
          { process with sigPending := process.sigPending.remove sig }
        match (taken.actionOf self.current sig).handler with
        | .ignore => deliverLoop userRsp turns taken frame
        | .user _ => taken.deliverWithFrame self.current sig frame userRsp
        | .default =>
          let applied := taken.applyDefault self.current sig
          if ((applied.procs self.current).map Process.isDead).getD true then
            (frame, applied)
          else deliverLoop userRsp turns applied frame

def deliverPendingAtSyscallExit (frame : SyscallFrame) :
    SyscallFrame × Kernel allocator :=
  deliverLoop self.userRsp 64 self frame

/-! ## Return -/

/-- The second half of `sigreturn`, with the frame that it has read. -/
def restoreContext (bytes : List UInt8) (frame : SyscallFrame) :
    BitVec 64 × SyscallFrame × Kernel allocator :=
  let mc := MContext.ofBytes bytes
  (mc.rax,
    { frame with
      ripSaved := mc.rip
      rflagsSaved := mc.eflags &&& 0x000000000003F7FF#64 ||| 0x0000000000000200#64
      rbx := mc.rbx
      rbp := mc.rbp
      r12 := mc.r12
      r13 := mc.r13
      r14 := mc.r14
      r15 := mc.r15
      rdi := mc.rdi
      rsi := mc.rsi
      rdx := mc.rdx
      r10 := mc.r10
      r8 := mc.r8
      r9 := mc.r9
      rcx := mc.rcx },
    ({ self with userRsp := mc.rsp } : Kernel allocator).withProcessMut self.current
      fun process => { process with sigMask := ⟨sigmaskOfBytes bytes⟩ })

def sigreturn (frame : SyscallFrame) :
    BitVec 64 × SyscallFrame × Kernel allocator :=
  if self.userRsp = 0#64 ∨ userEnd ≤ self.userRsp then (efault, frame, self)
  else
    match self.currentProcess with
    | none => (efault, frame, self)
    | some process =>
      match readFromUserVa self.memory process.pml4 self.userRsp.toNat SigFrame.size with
      | none => (efault, frame, self)
      | some bytes =>
        let rip := (MContext.ofBytes bytes).rip
        if rip = 0#64 ∨ userEnd ≤ rip then (efault, frame, self)
        else self.restoreContext bytes frame

end Qunix.Kernel
