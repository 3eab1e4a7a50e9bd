import Qunix.Arch.Paging
import Qunix.Security.Seccomp

/-! # Processes

The fields of `Process` that signals and syscall checks use, and the kernel
around the process table.
-/

namespace Qunix.Signal

/-! ## Signal sets and actions -/

structure SignalSet where
  bits : BitVec 64
deriving DecidableEq

namespace SignalSet

def empty : SignalSet := ⟨0#64⟩

variable (self : SignalSet)

def add (sig : Nat) : SignalSet :=
  if sig < 64 then ⟨self.bits ||| 1#64 <<< sig⟩ else self

def remove (sig : Nat) : SignalSet :=
  if sig < 64 then ⟨self.bits &&& ~~~(1#64 <<< sig)⟩ else self

def has (sig : Nat) : Bool :=
  sig < 64 && self.bits &&& 1#64 <<< sig != 0#64

def andNot (self mask : SignalSet) : SignalSet := ⟨self.bits &&& ~~~mask.bits⟩

def nextPending : Option Nat :=
  if self.bits = 0#64 then none else some self.bits.ctz.toNat

end SignalSet

inductive SigHandler
  | default
  | ignore
  | user (address : BitVec 64)
deriving DecidableEq

structure SigAction where
  handler : SigHandler
  mask : SignalSet
  flags : BitVec 32
  restorer : BitVec 64

def SigAction.default : SigAction := ⟨.default, .empty, 0#32, 0#64⟩

end Qunix.Signal

namespace Qunix

open Arch Memory Security Signal

/-! ## Processes -/

inductive ProcessState
  | runnable
  | running
  | sleeping
  | stopped
  | zombie (exitCode : Int)
deriving DecidableEq

/-- The fields of a process that the tree and `wait4` use. -/
structure Family.Process where
  ppid : Nat
  pgid : Nat
  state : ProcessState
  children : List Nat
deriving DecidableEq

def Family.Process.isZombie (self : Family.Process) : Bool :=
  match self.state with
  | .zombie _ => true
  | _ => false

structure Process extends Family.Process where
  syscallFilter : SyscallFilter
  /-- `namespaces.pid_ns`. -/
  pidNs : Nat
  seccomp : FilterChain
  exitCode : Int
  /-- `address_space.pml4_phys`, as a frame number. -/
  pml4 : Nat
  sigPending : SignalSet
  sigMask : SignalSet
  /-- `NSIG` entries. -/
  sigActions : Nat → SigAction

namespace Process

def nsig : Nat := 32

/-- The action for a signal, the default one past the end of the table. -/
def sigAction (self : Process) (sig : Nat) : SigAction :=
  if sig < nsig then self.sigActions sig else .default

def signals (self : Process) : SignalSet × (Nat → SigAction) := (self.sigMask, self.sigActions)

end Process

/-! ## The kernel -/

inductive SchedulerCall
  | addTask (pid prio policy : Nat)
  | removeTask (pid : Nat)
  | enqueue (pid : Nat)
  | setNeedResched
  | schedule
deriving DecidableEq

/-- The kernel as one CPU sees it. The scheduler appears as the calls made to it. -/
structure Kernel (allocator : FrameAllocator) where
  memory : MemoryState allocator
  procs : Nat → Option Process
  current : Nat
  /-- `gs:[16]`. -/
  userRsp : BitVec 64
  /-- The pids that each PID namespace but the root one sees. -/
  pidNsTable : Nat → Option (List Nat)
  scheduler : List SchedulerCall

namespace Kernel

variable {allocator : FrameAllocator} (self : Kernel allocator)

def withProcessMut (pid : Nat) (change : Process → Process) :
    Kernel allocator :=
  { self with procs := Function.update self.procs pid ((self.procs pid).map change) }

def currentProcess : Option Process := self.procs self.current

/-- Processes in the root namespace see every pid. -/
def checkKillPermission (sender target : Nat) : Bool :=
  let senderNs := ((self.procs sender).map Process.pidNs).getD 0
  if senderNs = 0 then true
  else
    match self.pidNsTable senderNs with
    | some visible => visible.contains target
    | none => false

def schedulerCall (call : SchedulerCall) : Kernel allocator :=
  { self with scheduler := self.scheduler ++ [call] }

def wakeProcess (pid : Nat) : Kernel allocator :=
  if (self.procs pid).map (·.state) = some .sleeping then
    ((self.withProcessMut pid fun process => { process with state := .runnable }).schedulerCall
      (.enqueue pid)).schedulerCall .setNeedResched
  else self

@[simp] theorem withProcessMut_same (pid : Nat) (change : Process → Process) :
    (self.withProcessMut pid change).procs pid = (self.procs pid).map change :=
  Function.update_self ..

end Kernel

end Qunix
