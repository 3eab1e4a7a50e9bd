import Qunix.Syscall.Dispatch

/-! # From a signal handler back to the interrupted code

A handler that returns pops the first word of its frame, so the frame lies eight
bytes below the stack pointer when the restorer calls `sigreturn`. `sigreturn`
reads it at the stack pointer.
-/

namespace Qunix.Signal

/-! ## The place of the frame -/

/-- The frame lies below the old stack pointer. A stack pointer so low that the
subtraction wraps is refused. -/
theorem frameRsp_le {userRsp : BitVec 64} (user : ¬userEnd ≤ userRsp)
    (stays : ¬userEnd ≤ Kernel.frameRsp userRsp) :
    (Kernel.frameRsp userRsp).toNat + SigFrame.size ≤ userRsp.toNat := by
  have top : userEnd.toNat = 140737488355328 := by decide
  have size : (BitVec.ofNat 64 SigFrame.size).toNat = SigFrame.size := by decide
  have bound : SigFrame.size = 504 := rfl
  have aligned : (Kernel.frameRsp userRsp).toNat =
      (userRsp - BitVec.ofNat 64 SigFrame.size).toNat / 16 * 16 :=
    Foundation.Word.toNat_clearLow _ 4
  rw [BitVec.toNat_sub] at aligned
  rw [BitVec.le_def] at user stays
  omega

end Qunix.Signal

namespace Qunix.Kernel

open Arch Foundation Memory Signal

variable {allocator : FrameAllocator} {first second third kernel : Kernel allocator}

/-! ## Delivery enters a handler or leaves the stack pointer alone -/

/-- The CPU still runs the same process on the same user stack. -/
structure SameCpu (first second : Kernel allocator) : Prop where
  userRsp : second.userRsp = first.userRsp
  current : second.current = first.current

theorem SameCpu.trans (left : SameCpu first second) (right : SameCpu second third) :
    SameCpu first third :=
  ⟨right.userRsp.trans left.userRsp, right.current.trans left.current⟩

/-- What processes have besides masks and actions may change, and the scheduler is called. -/
inductive Settles (kernel : Kernel allocator) : Kernel allocator → Prop
  | refl : Settles kernel kernel
  | process {reached : Kernel allocator} {pid : Nat} {change : Process → Process} :
      (∀ process, (change process).signals = process.signals) → Settles kernel reached →
      Settles kernel (reached.withProcessMut pid change)
  | scheduler {reached : Kernel allocator} {call : SchedulerCall} :
      Settles kernel reached → Settles kernel (reached.schedulerCall call)

namespace Settles

variable {reached : Kernel allocator} (settles : Settles kernel reached)

include settles

theorem sameCpu : SameCpu kernel reached := by
  induction settles with
  | refl => exact ⟨rfl, rfl⟩
  | process _ _ induction | scheduler _ induction => exact induction.trans ⟨rfl, rfl⟩

theorem sendSignal (pid sig : Nat) : Settles kernel (reached.sendSignal pid sig) := by
  rw [Kernel.sendSignal]
  split
  next => exact settles
  split
  next => exact settles
  next => exact .process (fun _ => rfl) settles

theorem wakeProcess (pid : Nat) : Settles kernel (reached.wakeProcess pid) := by
  rw [Kernel.wakeProcess]
  split
  next => exact .scheduler (.scheduler (.process (fun _ => rfl) settles))
  next => exact settles

theorem terminate (pid sig : Nat) : Settles kernel (reached.terminate pid sig) := by
  have reschedules : ∀ notified : Kernel allocator, Settles kernel notified →
      Settles kernel (if pid = notified.current then
        (notified.schedulerCall .setNeedResched).schedulerCall .schedule else notified) := by
    intro notified settles
    split
    next => exact settles.scheduler.scheduler
    next => exact settles
  apply reschedules
  have marked : Settles kernel ((reached.withProcessMut pid fun process =>
      { process with state := .zombie (-sig), exitCode := -sig }).schedulerCall
      (.removeTask pid)) := .scheduler (.process (fun _ => rfl) settles)
  split
  next => exact (marked.sendSignal _ _).wakeProcess _
  next => exact marked

theorem continueStopped (pid : Nat) : Settles kernel (reached.continueStopped pid) := by
  rw [Kernel.continueStopped]
  split
  next => exact .scheduler (.process (fun _ => rfl) settles)
  next => exact settles.wakeProcess pid

theorem applyDefault (pid sig : Nat) : Settles kernel (reached.applyDefault pid sig) := by
  rw [Kernel.applyDefault]
  cases defaultAction sig with
  | ignore => exact settles
  | stop => exact .scheduler (.process (fun _ => rfl) settles)
  | cont => exact settles.continueStopped pid
  | terminate => exact settles.terminate pid sig

end Settles

/-- A handler was entered: the frame is in the memory of the process, below the
old stack pointer, and the new one is at its first word. -/
structure Entered (userRsp : BitVec 64) (sigFrame : SigFrame) (kernel : Kernel allocator) :
    Prop where
  user : ¬userEnd ≤ userRsp
  stays : ¬userEnd ≤ frameRsp userRsp
  stack : kernel.userRsp = frameRsp userRsp
  written : ∃ process before, kernel.currentProcess = some process ∧
    writeToUserVa process.pml4 (frameRsp userRsp).toNat sigFrame.bytes before =
      (true, kernel.memory)

/-- Delivery entered the handler of some signal. -/
def EnteredSome (userRsp : BitVec 64) (frame : SyscallFrame) (kernel : Kernel allocator) : Prop :=
  ∃ sig action mask, Entered userRsp (signalFrame sig action frame userRsp mask) kernel

variable {userRsp : BitVec 64} {frame : SyscallFrame}

theorem buildSignalFrame_some {pid sig : Nat} {action : SigAction} {newRsp : BitVec 64}
    {built : Kernel allocator}
    (result : kernel.buildSignalFrame pid sig action frame userRsp = (some newRsp, built)) :
    ∃ process, kernel.procs pid = some process ∧ ¬userEnd ≤ userRsp ∧
      ¬userEnd ≤ frameRsp userRsp ∧ newRsp = frameRsp userRsp ∧
      built = { kernel with memory := built.memory } ∧
      writeToUserVa process.pml4 (frameRsp userRsp).toNat
        (signalFrame sig action frame userRsp process.sigMask.bits).bytes kernel.memory =
        (true, built.memory) := by
  rw [buildSignalFrame] at result
  split at result
  next => cases result
  next user =>
  cases found : kernel.procs pid with
  | none =>
    rw [found] at result
    cases result
  | some process =>
    rw [found] at result
    simp only at result
    split at result
    next => cases result
    next stays =>
    rcases copied : writeToUserVa process.pml4 (frameRsp userRsp).toNat
      (signalFrame sig action frame userRsp process.sigMask.bits).bytes kernel.memory with
      ⟨ok, memory⟩
    rw [copied] at result
    cases ok with
    | false => cases result
    | true =>
      cases result
      exact ⟨process, rfl, fun outside => user (.inr outside), stays, rfl, rfl, copied⟩

theorem buildSignalFrame_sameCpu {pid sig : Nat} {action : SigAction} :
    SameCpu kernel (kernel.buildSignalFrame pid sig action frame userRsp).2 := by
  rw [buildSignalFrame]
  split
  next => exact ⟨rfl, rfl⟩
  split
  next => exact ⟨rfl, rfl⟩
  split
  next => exact ⟨rfl, rfl⟩
  next => split <;> exact ⟨rfl, rfl⟩

theorem deliverWithFrame_cases (sig : Nat) :
    (kernel.deliverWithFrame kernel.current sig frame userRsp).2.userRsp = kernel.userRsp ∨
      EnteredSome userRsp frame
        (kernel.deliverWithFrame kernel.current sig frame userRsp).2 := by
  rw [deliverWithFrame]
  cases (kernel.actionOf kernel.current sig).handler with
  | ignore => exact .inl rfl
  | default => exact .inl (Settles.refl.applyDefault _ _).sameCpu.userRsp
  | user handler =>
    rcases result : kernel.buildSignalFrame kernel.current sig
      (kernel.actionOf kernel.current sig) frame userRsp with ⟨answer, built⟩
    cases answer with
    | none =>
      have same := @buildSignalFrame_sameCpu _ kernel userRsp frame kernel.current sig
        (kernel.actionOf kernel.current sig)
      rw [result] at same
      exact .inl (same.trans (Settles.refl.applyDefault _ _).sameCpu).userRsp
    | some newRsp =>
      rcases buildSignalFrame_some result with
        ⟨process, found, user, stays, isNew, isBuilt, written⟩
      refine .inr ⟨sig, kernel.actionOf kernel.current sig, process.sigMask.bits, user, stays,
        isNew, process.enterHandler sig (kernel.actionOf kernel.current sig), kernel.memory,
        ?_, written⟩
      have current : built.current = kernel.current := by rw [isBuilt]
      have procs : built.procs kernel.current = some process := by rw [isBuilt]; exact found
      simp only [currentProcess]
      change (({ built with userRsp := newRsp } : Kernel allocator).withProcessMut
        kernel.current _).procs built.current = _
      rw [current, withProcessMut_same]
      rw [procs]
      rfl

theorem deliverLoop_cases (turns : Nat) :
    ∀ {kernel : Kernel allocator},
      (deliverLoop userRsp turns kernel frame).2.userRsp = kernel.userRsp ∨
      EnteredSome userRsp frame (deliverLoop userRsp turns kernel frame).2 := by
  induction turns with
  | zero =>
    intro kernel
    exact .inl rfl
  | succ turns induction =>
    intro kernel
    rw [deliverLoop]
    split
    next => exact .inl rfl
    next process _ =>
    split
    next => exact .inl rfl
    next sig _ =>
    simp only
    generalize isTaken : (kernel.withProcessMut kernel.current fun process =>
      { process with sigPending := process.sigPending.remove sig }) = taken
    have same : SameCpu kernel taken := isTaken ▸ ⟨rfl, rfl⟩
    split
    next =>
      rw [← same.userRsp]
      exact induction
    next =>
      rw [← same.userRsp, ← same.current]
      exact deliverWithFrame_cases sig
    next =>
      have applied := same.trans (Settles.refl.applyDefault kernel.current sig).sameCpu
      rw [← applied.userRsp]
      split
      next => exact .inl rfl
      next => exact induction

/-! ## What `sigreturn` reads -/

/-- A frame read eight bytes too high: every word is the next one of the frame. -/
theorem Entered.shifted_word {sigFrame : SigFrame} (entered : Entered userRsp sigFrame kernel)
    {process : Process} (current : kernel.currentProcess = some process)
    {memory : MemoryState allocator} {bytes : List UInt8} {index : Nat}
    (kept : ∀ offset < SigFrame.size,
      userByte memory process.pml4 (kernel.userRsp.toNat + offset) =
        userByte kernel.memory process.pml4 (kernel.userRsp.toNat + offset))
    (read : readFromUserVa memory process.pml4 (kernel.userRsp.toNat + 8) SigFrame.size =
      some bytes)
    (inside : index + 1 < 63) : wordAt bytes index = wordAt sigFrame.bytes (index + 1) := by
  have size : SigFrame.size = 504 := rfl
  have length : sigFrame.bytes.length = SigFrame.size := sigFrame.length_bytes
  rcases entered.written with ⟨owner, before, isOwner, written⟩
  cases current.symm.trans isOwner
  rw [wordAt]
  apply congrArg
  apply Bytes.readLe64_congr
  intro position low
  have address : kernel.userRsp.toNat + 8 + (8 * index + position) =
      kernel.userRsp.toNat + (8 * (index + 1) + position) := by omega
  rw [Bytes.byteAt, Bytes.byteAt, readFromUserVa_spec read (by omega), address, kept _ (by omega),
    entered.stack, writeToUserVa_spec (by omega) written (by omega)]

theorem sigreturn_cases {frame : SyscallFrame} :
    kernel.sigreturn frame = (efault, frame, kernel) ∨
      ∃ process bytes, kernel.currentProcess = some process ∧
        readFromUserVa kernel.memory process.pml4 kernel.userRsp.toNat SigFrame.size =
          some bytes ∧
        kernel.sigreturn frame = kernel.restoreContext bytes frame := by
  rw [sigreturn]
  split
  next => exact .inl rfl
  cases current : kernel.currentProcess with
  | none => exact .inl rfl
  | some process =>
    simp only
    cases read : readFromUserVa kernel.memory process.pml4 kernel.userRsp.toNat
      SigFrame.size with
    | none => exact .inl rfl
    | some bytes =>
      simp only
      split
      next => exact .inl rfl
      next => exact .inr ⟨process, bytes, rfl, read, rfl⟩

end Qunix.Kernel

namespace Qunix.Signal

open Arch Foundation Memory Syscall

variable {allocator : FrameAllocator}

/-! ## A whole system call -/

/-- From the `syscall` instruction to the `sysretq`. -/
def systemCall (handlers : Handlers allocator) (kernel : Kernel allocator) (user : UserState) :
    UserState × Kernel allocator :=
  let result := dispatch handlers { kernel with userRsp := user.register .rsp }
    (user.register .rax) (syscallEntry user)
  (syscallExit result.frame result.retval result.kernel.userRsp, result.kernel)

variable {handlers : Handlers allocator} {kernel : Kernel allocator} {frame : SyscallFrame}

theorem dispatch_sigreturn :
    (dispatch handlers kernel 15#64 frame).frame = frame ∧
        kernel.SameCpu (dispatch handlers kernel 15#64 frame).kernel ∨
      (dispatch handlers kernel 15#64 frame).retval = (kernel.sigreturn frame).1 ∧
        (dispatch handlers kernel 15#64 frame).frame = (kernel.sigreturn frame).2.1 ∧
        (dispatch handlers kernel 15#64 frame).kernel = (kernel.sigreturn frame).2.2 := by
  have refused : ∀ reached : Kernel allocator, kernel.SameCpu reached → ∀ retval,
      (refuse reached frame retval).frame = frame ∧
        kernel.SameCpu (refuse reached frame retval).kernel :=
    fun reached same _ => ⟨rfl, same⟩
  rw [dispatch, if_neg (by decide), if_neg (by decide), if_neg (by decide), if_neg (by decide)]
  split
  next =>
    rw [checkAllowlist]
    split
    next =>
      right
      simp only [runHandler, callTable, if_pos, ne_eq, not_true_eq_false, if_false, and_self]
    next => exact .inl (refused _ ⟨rfl, rfl⟩ _)
    next => exact .inl (refused _ (Kernel.Settles.refl.sendSignal _ _).sameCpu _)
  next => exact .inl (refused _ ⟨rfl, rfl⟩ _)
  next => exact .inl (refused _ (Kernel.Settles.refl.sendSignal _ _).sameCpu _)

/-! ## The round trip -/

/-- A system call about to return to user code. Its handler has run and has left
the frame as `syscall_entry` pushed it. -/
structure Interrupted (allocator : FrameAllocator) where
  user : UserState
  kernel : Kernel allocator
  retval : BitVec 64
  stack : kernel.userRsp = user.register .rsp

namespace Interrupted

variable {interrupted : Interrupted allocator} (self : Interrupted allocator)

def delivered : SyscallFrame × Kernel allocator :=
  self.kernel.deliverPendingAtSyscallExit (syscallEntry self.user)

/-- A caught signal was delivered: the stack pointer is at its frame. -/
def Caught : Prop :=
  self.delivered.2.userRsp ≠ self.kernel.userRsp

/-- The handler has left the frame alone and returned, which popped the address of
the restorer, and the restorer calls `sigreturn`. All else may have changed. -/
structure Returns (interrupted : Interrupted allocator) (kernel : Kernel allocator)
    (user : UserState) : Prop where
  number : user.register .rax = 15#64
  stack : user.register .rsp = interrupted.delivered.2.userRsp + 8#64
  space : kernel.currentProcess.map Process.pml4 =
    interrupted.delivered.2.currentProcess.map Process.pml4
  frame : ∀ process, interrupted.delivered.2.currentProcess = some process →
    ∀ offset < SigFrame.size,
      userByte kernel.memory process.pml4 (interrupted.delivered.2.userRsp.toNat + offset) =
        userByte interrupted.delivered.2.memory process.pml4
          (interrupted.delivered.2.userRsp.toNat + offset)

/-- What the code sees if no signal comes. -/
def undisturbed : UserState :=
  syscallExit (syscallEntry self.user) self.retval (self.user.register .rsp)

/-- The registers, with the result of the call in `rax`, the instruction pointer
and the signal mask are as if no signal had come. -/
structure Restored (interrupted : Interrupted allocator) (result : UserState × Kernel allocator) :
    Prop where
  register : ∀ register, result.1.register register = interrupted.undisturbed.register register
  rip : result.1.rip = interrupted.undisturbed.rip
  mask : result.2.currentProcess.map Process.sigMask =
    interrupted.kernel.currentProcess.map Process.sigMask

theorem Caught.entered (caught : interrupted.Caught) :
    Kernel.EnteredSome (interrupted.user.register .rsp) (syscallEntry interrupted.user)
      interrupted.delivered.2 := by
  have cases := @Kernel.deliverLoop_cases _ interrupted.kernel.userRsp
    (syscallEntry interrupted.user) 64 interrupted.kernel
  rw [← interrupted.stack]
  exact cases.resolve_left caught

theorem Caught.below (caught : interrupted.Caught) :
    interrupted.delivered.2.userRsp + 8#64 ≠ interrupted.user.register .rsp := by
  rcases caught.entered with ⟨sig, action, mask, entered⟩
  have below := frameRsp_le entered.user entered.stays
  have size : SigFrame.size = 504 := rfl
  have eight : (8#64).toNat = 8 := rfl
  intro same
  have sum := congrArg BitVec.toNat same
  rw [entered.stack, BitVec.toNat_add] at sum
  omega

/-- The context that `sigreturn` reads: the flags in place of the instruction
pointer, the instruction pointer in place of the stack pointer, and the segment
registers, which delivery leaves zero, in place of the flags. -/
structure Misread (interrupted : Interrupted allocator) (context : MContext) : Prop where
  rip : context.rip = interrupted.user.rflags
  rsp : context.rsp = interrupted.user.rip
  rax : context.rax = interrupted.user.rip
  eflags : context.eflags = 0#64

theorem Returns.misread {kernel : Kernel allocator} {user : UserState} {process : Process}
    {bytes : List UInt8} (returns : interrupted.Returns kernel user)
    (caught : interrupted.Caught) (current : kernel.currentProcess = some process)
    (read : readFromUserVa kernel.memory process.pml4 (user.register .rsp).toNat SigFrame.size =
      some bytes) : interrupted.Misread (MContext.ofBytes bytes) := by
  rcases caught.entered with ⟨sig, action, mask, entered⟩
  rcases entered.written with ⟨owner, before, isOwner, written⟩
  have space : process.pml4 = owner.pml4 := by
    have same := returns.space
    rw [current, isOwner] at same
    exact Option.some.inj same
  have top : (user.register .rsp).toNat = interrupted.delivered.2.userRsp.toNat + 8 := by
    have below := frameRsp_le entered.user entered.stays
    have size : SigFrame.size = 504 := rfl
    have eight : (8#64).toNat = 8 := rfl
    rw [returns.stack, entered.stack, BitVec.toNat_add]
    omega
  rw [space, top] at read
  have shifted : ∀ {index word}, index + 1 < 63 →
      (Kernel.signalFrame sig action (syscallEntry interrupted.user)
        (interrupted.user.register .rsp) mask).words[index + 1]? = some word →
      wordAt bytes index = word := by
    intro index word inside found
    rw [entered.shifted_word isOwner (returns.frame owner isOwner) read inside]
    exact wordAt_bytes found
  refine ⟨shifted (by decide) ?_, shifted (by decide) ?_, shifted (by decide) ?_,
    shifted (by decide) ?_⟩ <;>
  simp [SigFrame.words, SigInfo.words, UContext.words, MContext.words, Kernel.signalFrame,
    syscallEntry]

/-- The call fails on the stack of the restorer, or user code goes on with what was
misread. -/
theorem sigreturn_outcome {kernel : Kernel allocator} {user : UserState}
    (caught : interrupted.Caught) (returns : interrupted.Returns kernel user) :
    (systemCall handlers kernel user).1.register .rsp = interrupted.delivered.2.userRsp + 8#64 ∨
      (systemCall handlers kernel user).1.rip = interrupted.user.rflags ∧
      (systemCall handlers kernel user).1.register .rsp = interrupted.user.rip ∧
      (systemCall handlers kernel user).1.register .rax = interrupted.user.rip ∧
      (systemCall handlers kernel user).1.register .r11 = 0x200#64 := by
  rw [systemCall, returns.number, ← returns.stack]
  rcases @dispatch_sigreturn _ handlers { kernel with userRsp := user.register .rsp }
    (syscallEntry user) with ⟨_, same⟩ | ⟨isRetval, isFrame, isKernel⟩
  · exact .inl same.userRsp
  simp only [syscallExit]
  rw [isRetval, isFrame, isKernel]
  rcases @Kernel.sigreturn_cases _ { kernel with userRsp := user.register .rsp }
    (syscallEntry user) with failed | ⟨process, bytes, current, read, restored⟩
  · rw [failed]
    exact .inl rfl
  have misread := returns.misread caught current read
  rw [restored]
  refine .inr ⟨misread.rip, misread.rsp, misread.rax, ?_⟩
  simp only [Kernel.restoreContext]
  rw [misread.eflags]
  rfl

/-- The round trip through a handler never brings the interrupted code back to the
state it would have seen without the signal. -/
theorem sigreturn_never_restores {kernel : Kernel allocator} {user : UserState}
    (caught : interrupted.Caught) (returns : interrupted.Returns kernel user) :
    ¬interrupted.Restored (systemCall handlers kernel user) := by
  intro restored
  rcases @sigreturn_outcome _ handlers _ _ _ caught returns with stack | ⟨_, _, _, flags⟩
  · exact caught.below (stack.symm.trans (restored.register .rsp))
  · -- `r11` would have held the flags, in which bit 1 is set.
    have isFlags : interrupted.user.rflags = 0x200#64 :=
      (restored.register .r11).symm.trans flags
    have lost := interrupted.user.fixed
    rw [isFlags] at lost
    cases lost

/-! ## `SIGUSR1` during `getpid` -/

/-- A process with one page of stack, at `0x2000`, that catches `SIGUSR1`. -/
def catcher : Process where
  ppid := 0
  pgid := 1
  children := []
  syscallFilter := .allowAll
  pidNs := 0
  seccomp := .new
  state := .running
  exitCode := 0
  pml4 := 1
  sigPending := SignalSet.empty.add 10
  sigMask := .empty
  sigActions := fun sig =>
    if sig = 10 then ⟨.user 0x401000#64, .empty, 0#32, 0x402000#64⟩ else .default

def catcherTables (table slot : Nat) : Option PageTableEntry :=
  if (table, slot) = (1, 0) then some ⟨2, ⟨true, true, false, false⟩⟩
  else if (table, slot) = (2, 0) then some ⟨3, ⟨true, true, false, false⟩⟩
  else if (table, slot) = (3, 0) then some ⟨4, ⟨true, true, false, false⟩⟩
  else if (table, slot) = (4, 2) then some ⟨5, ⟨true, true, false, false⟩⟩
  else none

def getpid : Interrupted Phys.allocator where
  user :=
    { register := fun
        | .rax => 39#64
        | .rsp => 0x2800#64
        | _ => 0#64
      rip := 0x400100#64
      rflags := 0x246#64
      fixed := rfl }
  kernel :=
    { memory :=
        { frames := Phys.emptyState
          cpu := 0
          tables := catcherTables
          bytes := fun _ _ => 0
          refcounts := fun _ => 0 }
      procs := fun pid => if pid = 7 then some catcher else none
      current := 7
      userRsp := 0x2800#64
      pidNsTable := fun _ => none
      scheduler := [] }
  retval := 7#64
  stack := rfl

def restorer : UserState where
  register
    | .rax => 15#64
    | .rsp => 0x2608#64
    | _ => 0#64
  rip := 0x402007#64
  rflags := 0x202#64
  fixed := UserState.fixed_interruptible

theorem getpid_caught : getpid.Caught := by
  have stack : getpid.delivered.2.userRsp = 0x2600#64 := by decide +kernel
  rw [Caught, stack]
  decide

theorem getpid_returns : getpid.Returns getpid.delivered.2 restorer where
  number := rfl
  stack := by decide +kernel
  space := rfl
  frame := fun _ _ _ _ => rfl

theorem sigreturn_never_restores_getpid :
    ¬getpid.Restored (systemCall (idle _) getpid.delivered.2 restorer) :=
  sigreturn_never_restores getpid_caught getpid_returns

/-- The code goes on at the address that the flags spell, with the instruction
pointer as its stack pointer and as the result of `getpid`. -/
theorem sigreturn_misreads_getpid :
    getpid.Caught ∧ getpid.Returns getpid.delivered.2 restorer ∧
    (systemCall (idle _) getpid.delivered.2 restorer).1.rip = 0x246#64 ∧
    (systemCall (idle _) getpid.delivered.2 restorer).1.register .rsp = 0x400100#64 ∧
    (systemCall (idle _) getpid.delivered.2 restorer).1.register .rax = 0x400100#64 ∧
    getpid.undisturbed.rip = 0x400100#64 ∧ getpid.undisturbed.register .rsp = 0x2800#64 ∧
    getpid.undisturbed.register .rax = 7#64 := by
  refine ⟨getpid_caught, getpid_returns, ?_⟩
  decide +kernel

end Interrupted

end Qunix.Signal
