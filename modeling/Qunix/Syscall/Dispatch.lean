import Qunix.Signal.Delivery

/-! # System call dispatch

`dispatch` of `syscall/mod.rs`, and which calls pass the seccomp filters and the
allowlist of the process before their handler runs.
-/

namespace Qunix.Syscall

open Arch Memory Security Signal

/-- A handler with the arguments it is called with. -/
inductive HandlerCall
  | getdents64 (fd : BitVec 32) (buf len : BitVec 64)
  | fcntl (fd cmd : BitVec 32) (arg : BitVec 64)
  | futex (uaddr : BitVec 64) (op val : BitVec 32) (timeout uaddr2 : BitVec 64) (val3 : BitVec 32)
  | table (nr a1 a2 a3 a4 a5 : BitVec 64)
deriving DecidableEq

/-- The handlers, which may do anything. -/
def Handlers (allocator : FrameAllocator) : Type :=
  HandlerCall → SyscallFrame → Kernel allocator → BitVec 64 × SyscallFrame × Kernel allocator

structure Dispatched (allocator : FrameAllocator) where
  retval : BitVec 64
  frame : SyscallFrame
  kernel : Kernel allocator
  ran : Option HandlerCall

def nrSyscalls : Nat := 512

def enosys : BitVec 64 := BitVec.ofInt 64 (-38)

def eperm : BitVec 64 := BitVec.ofInt 64 (-1)

variable {allocator : FrameAllocator}

/-! ## The checks -/

def seccompArgs (frame : SyscallFrame) : Vector (BitVec 64) 6 :=
  #v[frame.rdi, frame.rsi, frame.rdx, frame.r10, frame.r8, frame.r9]

def checkSeccomp (kernel : Kernel allocator) (nr ip : BitVec 64) (args : Vector (BitVec 64) 6) :
    QsfResult × Int :=
  match kernel.currentProcess with
  | none => (.allow, 0)
  | some process =>
    if process.seccomp.isActive then
      process.seccomp.runChain ⟨nr.setWidth 32, auditArchX8664, ip, args⟩
    else (.allow, 0)

/-- `current_filter_check`. -/
def qsfCheckSyscall (kernel : Kernel allocator) (nr : BitVec 64) : QsfResult :=
  match kernel.currentProcess with
  | none => .allow
  | some process =>
    if !process.syscallFilter.active || process.syscallFilter.isAllowed nr.toNat then .allow
    else if process.syscallFilter.killOnViolation then .kill
    else .deny

/-! ## The dispatcher -/

def callDirectly (handlers : Handlers allocator) (kernel : Kernel allocator)
    (frame : SyscallFrame) (handler : HandlerCall) : Dispatched allocator :=
  let (retval, _, kernel) := handlers handler frame kernel
  ⟨retval, frame, kernel, some handler⟩

/-- The jump table, in which entry 15 is `sys_rt_sigreturn`. -/
def callTable (handlers : Handlers allocator) (nr : BitVec 64) (frame : SyscallFrame)
    (kernel : Kernel allocator) : BitVec 64 × SyscallFrame × Kernel allocator :=
  if nr = 15#64 then kernel.sigreturn frame
  else handlers (.table nr frame.rdi frame.rsi frame.rdx frame.r10 frame.r8) frame kernel

/-- The last part, after the checks. The plugin hooks around the handler only count
and log, and are left out. -/
def runHandler (handlers : Handlers allocator) (kernel : Kernel allocator) (nr : BitVec 64)
    (frame : SyscallFrame) : Dispatched allocator :=
  let handler := .table nr frame.rdi frame.rsi frame.rdx frame.r10 frame.r8
  let (retval, frame, kernel) := callTable handlers nr frame kernel
  -- After `sigreturn` no signal is delivered.
  if nr ≠ 15#64 then
    let (frame, kernel) := kernel.deliverPendingAtSyscallExit frame
    ⟨retval, frame, kernel, some handler⟩
  else ⟨retval, frame, kernel, some handler⟩

def refuse (kernel : Kernel allocator) (frame : SyscallFrame) (retval : BitVec 64) :
    Dispatched allocator :=
  ⟨retval, frame, kernel, none⟩

def checkAllowlist (handlers : Handlers allocator) (kernel : Kernel allocator) (nr : BitVec 64)
    (frame : SyscallFrame) : Dispatched allocator :=
  match qsfCheckSyscall kernel nr with
  | .allow => runHandler handlers kernel nr frame
  | .deny => refuse kernel frame eperm
  | .kill => refuse (kernel.sendSignal kernel.current sigsys) frame eperm

def dispatch (handlers : Handlers allocator) (kernel : Kernel allocator) (nr : BitVec 64)
    (frame : SyscallFrame) : Dispatched allocator :=
  if nr = 217#64 then
    callDirectly handlers kernel frame (.getdents64 (frame.rdi.setWidth 32) frame.rsi frame.rdx)
  else if nr = 72#64 then
    callDirectly handlers kernel frame
      (.fcntl (frame.rdi.setWidth 32) (frame.rsi.setWidth 32) frame.rdx)
  else if nr = 240#64 then
    callDirectly handlers kernel frame
      (.futex frame.rdi (frame.rsi.setWidth 32) (frame.rdx.setWidth 32) frame.r10 frame.r8
        (frame.r9.setWidth 32))
  else if nrSyscalls ≤ nr.toNat then refuse kernel frame enosys
  else
    match checkSeccomp kernel nr frame.rcx (seccompArgs frame) with
    | (.allow, _) => checkAllowlist handlers kernel nr frame
    | (.deny, errno) => refuse kernel frame (BitVec.ofInt 64 (-max (errno.natAbs : Int) 1))
    | (.kill, _) => refuse (kernel.sendSignal kernel.current sigsys) frame eperm

/-! ## Mediation -/

variable {handlers : Handlers allocator} {kernel : Kernel allocator} {nr : BitVec 64}
variable {frame : SyscallFrame}

/-- Both checks let the call through. -/
structure Permits (kernel : Kernel allocator) (nr : BitVec 64) (frame : SyscallFrame) : Prop where
  seccomp : (checkSeccomp kernel nr frame.rcx (seccompArgs frame)).1 = .allow
  allowlist : qsfCheckSyscall kernel nr = .allow

/-- The calls that the dispatcher serves before it checks anything. -/
def unchecked : List (BitVec 64) := [217#64, 72#64, 240#64]

theorem runHandler_ran : (runHandler handlers kernel nr frame).ran.isSome = true := by
  rw [runHandler]
  simp only
  split <;> rfl

theorem checkAllowlist_ran_iff :
    (checkAllowlist handlers kernel nr frame).ran.isSome = true ↔
      qsfCheckSyscall kernel nr = .allow := by
  rw [checkAllowlist]
  cases answer : qsfCheckSyscall kernel nr with
  | allow => exact ⟨fun _ => rfl, fun _ => runHandler_ran⟩
  | deny | kill => exact iff_of_false Bool.false_ne_true nofun

theorem dispatch_unchecked (direct : nr ∈ unchecked) :
    (dispatch handlers kernel nr frame).ran.isSome = true := by
  rw [unchecked, List.mem_cons, List.mem_cons, List.mem_singleton] at direct
  rcases direct with isGetdents | isFcntl | isFutex
  · subst isGetdents
    rfl
  · subst isFcntl
    rfl
  · subst isFutex
    rfl

theorem dispatch_checked (checked : nr ∉ unchecked) :
    (dispatch handlers kernel nr frame).ran.isSome = true ↔
      nr.toNat < nrSyscalls ∧ Permits kernel nr frame := by
  rw [unchecked, List.mem_cons, List.mem_cons, List.mem_singleton, not_or, not_or] at checked
  rw [dispatch, if_neg checked.1, if_neg checked.2.1, if_neg checked.2.2]
  by_cases known : nr.toNat < nrSyscalls
  · rw [if_neg (not_le_of_gt known)]
    rcases answer : checkSeccomp kernel nr frame.rcx (seccompArgs frame) with ⟨result, errno⟩
    have seccomp : (checkSeccomp kernel nr frame.rcx (seccompArgs frame)).1 = result := by
      rw [answer]
    cases result with
    | allow =>
      rw [checkAllowlist_ran_iff]
      exact ⟨fun allowed => ⟨known, seccomp, allowed⟩, fun passes => passes.2.allowlist⟩
    | deny | kill =>
      apply iff_of_false Bool.false_ne_true
      intro passes
      cases seccomp.symm.trans passes.2.seccomp
  · rw [if_pos (le_of_not_gt known)]
    exact iff_of_false Bool.false_ne_true fun passes => known passes.1

/-- A handler runs only when both checks allow the call, unless the call is one of
the three that are served first and a check does not allow it. -/
theorem dispatch_mediates_iff (handlers : Handlers allocator) (kernel : Kernel allocator)
    (nr : BitVec 64) (frame : SyscallFrame) :
    ((dispatch handlers kernel nr frame).ran.isSome = true → Permits kernel nr frame) ↔
      (nr ∈ unchecked → Permits kernel nr frame) := by
  constructor
  · intro mediated direct
    exact mediated (dispatch_unchecked direct)
  · intro permitted ran
    by_cases direct : nr ∈ unchecked
    · exact permitted direct
    · exact ((dispatch_checked direct).mp ran).2

/-- A filter that answers every call with `EPERM`. -/
def refuseAll : SeccompFilter := ⟨[⟨0x06#16, 0#8, 0#8, 0x00050001#32⟩], rfl⟩

/-- A process that may make no system call at all. -/
def sandboxed : Process where
  ppid := 0
  pgid := 1
  children := []
  syscallFilter := .denyAll
  pidNs := 0
  seccomp := FilterChain.new.install refuseAll
  state := .running
  exitCode := 0
  pml4 := 0
  sigPending := .empty
  sigMask := .empty
  sigActions := fun _ => .default

def sandbox : Kernel Phys.allocator where
  memory :=
    { frames := Phys.emptyState
      cpu := 0
      tables := fun _ _ => none
      bytes := fun _ _ => 0
      refcounts := fun _ => 0 }
  procs := fun pid => if pid = 1 then some sandboxed else none
  current := 1
  userRsp := 0#64
  pidNsTable := fun _ => none
  scheduler := []

/-- `getdents64(3, 0x1000, 512)`. -/
def listDirectory : UserState where
  register
    | .rax => 217#64
    | .rdi => 3#64
    | .rsi => 0x1000#64
    | .rdx => 512#64
    | _ => 0#64
  rip := 0x400000#64
  rflags := 0x202#64
  fixed := UserState.fixed_interruptible

def idle (allocator : FrameAllocator) : Handlers allocator :=
  fun _ frame kernel => (0#64, frame, kernel)

theorem dispatch_getdents64_unmediated :
    (dispatch (idle _) sandbox 217#64 (syscallEntry listDirectory)).ran =
      some (.getdents64 3#32 0x1000#64 512#64) ∧
    checkSeccomp sandbox 217#64 (syscallEntry listDirectory).rcx
      (seccompArgs (syscallEntry listDirectory)) = (.deny, 1) ∧
    qsfCheckSyscall sandbox 217#64 = .kill := by
  decide +kernel

end Qunix.Syscall
