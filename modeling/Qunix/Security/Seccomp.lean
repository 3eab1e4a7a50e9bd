import Qunix.Foundation.WordBitmap

/-! # Seccomp filters and the syscall allowlist

The classic BPF machine of `security/seccomp.rs`, the filter chain of a process,
and the bitmap of allowed syscalls of `security/mod.rs`. Audit records are left
out: nothing reads them back.
-/

namespace Qunix.Security

open Foundation

inductive QsfResult
  | allow
  | deny
  | kill
deriving DecidableEq

/-! ## Instructions -/

inductive OpClass
  | ld
  | ldx
  | st
  | stx
  | alu
  | jmp
  | ret
  | misc
deriving DecidableEq

inductive LoadMode
  | imm
  | abs
  | ind
  | mem
  | len
  | msh
  | other
deriving DecidableEq

inductive AluOp
  | add
  | sub
  | mul
  | div
  | or
  | and
  | lsh
  | rsh
  | neg
  | mod
  | xor
  | other
deriving DecidableEq

inductive JumpOp
  | ja
  | jeq
  | jgt
  | jge
  | jset
  | other
deriving DecidableEq

inductive MiscOp
  | tax
  | txa
  | other
deriving DecidableEq

structure BpfInsn where
  code : BitVec 16
  jt : BitVec 8
  jf : BitVec 8
  k : BitVec 32
deriving DecidableEq

namespace BpfInsn

variable (self : BpfInsn)

/-- `class`, which the three low bits of the code encode completely. -/
def opClass : OpClass :=
  match (self.code &&& 0x07#16).toNat with
  | 0 => .ld
  | 1 => .ldx
  | 2 => .st
  | 3 => .stx
  | 4 => .alu
  | 5 => .jmp
  | 6 => .ret
  | _ => .misc

def mode : LoadMode :=
  match (self.code &&& 0xe0#16).toNat with
  | 0x00 => .imm
  | 0x20 => .abs
  | 0x40 => .ind
  | 0x60 => .mem
  | 0x80 => .len
  | 0xa0 => .msh
  | _ => .other

def op : Nat := (self.code &&& 0xf0#16).toNat

def aluOp : AluOp :=
  match self.op with
  | 0x00 => .add
  | 0x10 => .sub
  | 0x20 => .mul
  | 0x30 => .div
  | 0x40 => .or
  | 0x50 => .and
  | 0x60 => .lsh
  | 0x70 => .rsh
  | 0x80 => .neg
  | 0x90 => .mod
  | 0xa0 => .xor
  | _ => .other

def jumpOp : JumpOp :=
  match self.op with
  | 0x00 => .ja
  | 0x10 => .jeq
  | 0x20 => .jgt
  | 0x30 => .jge
  | 0x40 => .jset
  | _ => .other

def miscOp : MiscOp :=
  match self.op with
  | 0x00 => .tax
  | 0x80 => .txa
  | _ => .other

def bpfK : Nat := 0x00

def bpfX : Nat := 0x08

/-- A source of `RET` only. `src` never has this bit. -/
def bpfA : Nat := 0x10

def src : Nat := (self.code &&& 0x08#16).toNat

end BpfInsn

/-! ## The input record -/

structure SeccompData where
  nr : BitVec 32
  arch : BitVec 32
  ip : BitVec 64
  args : Vector (BitVec 64) 6

def auditArchX8664 : BitVec 32 := 0xC000003E#32

def seccompDataLen : Nat := 64

/-- Offsets 8 to 11 give single bytes of the instruction pointer. -/
def SeccompData.loadU32 (self : SeccompData) (offset : Nat) : Option (BitVec 32) :=
  if offset = 0 then some self.nr
  else if offset = 4 then some self.arch
  else if 8 ≤ offset ∧ offset ≤ 11 then
    some ((self.ip >>> (8 * (offset - 8)) &&& 0xFF#64).setWidth 32)
  else if 12 ≤ offset ∧ offset ≤ 15 then
    if offset + 4 ≤ 16 then some ((self.ip >>> ((offset - 8) * 8)).setWidth 32) else none
  else if 16 ≤ offset ∧ offset ≤ 63 then
    (self.args[(offset - 16) / 8]?).map fun (arg : BitVec 64) =>
      (arg >>> ((offset - 16) % 8 * 8)).setWidth 32
  else none

/-! ## The validator -/

inductive BpfError
  | tooLong
  | empty
  | invalidJump (pc : Nat)
  | invalidMemAccess (pc : Nat)
  | invalidLoadOffset (pc : Nat)
  | noReturnAtEnd
  | divisionByConstantZero (pc : Nat)
deriving DecidableEq

def maxInsns : Nat := 4096

def memWords : Nat := 16

/-- The checks on one instruction of a program of `count`. -/
def validateInsn (count pc : Nat) (insn : BpfInsn) : Except BpfError Unit :=
  match insn.opClass with
  | .ld | .ldx =>
    match insn.mode with
    -- The sum is a `u32` and wraps.
    | .abs => if (insn.k + 4#32).toNat > seccompDataLen then .error (.invalidLoadOffset pc)
        else .ok ()
    | .mem => if insn.k.toNat ≥ memWords then .error (.invalidMemAccess pc) else .ok ()
    | _ => .ok ()
  | .st | .stx => if insn.k.toNat ≥ memWords then .error (.invalidMemAccess pc) else .ok ()
  | .alu =>
    if (insn.aluOp = .div ∨ insn.aluOp = .mod) ∧ insn.src = BpfInsn.bpfK ∧ insn.k = 0#32 then
      .error (.divisionByConstantZero pc)
    else .ok ()
  | .jmp =>
    if insn.jumpOp = .ja then
      if pc + (1 + insn.k.toNat) ≥ count then .error (.invalidJump pc) else .ok ()
    else if pc + 1 + insn.jt.toNat ≥ count ∨ pc + 1 + insn.jf.toNat ≥ count then
      .error (.invalidJump pc)
    else .ok ()
  | .ret | .misc => .ok ()

def validateFrom (count : Nat) : (pc : Nat) → List BpfInsn → Except BpfError Unit
  | _, [] => .ok ()
  | pc, insn :: rest => do
      validateInsn count pc insn
      validateFrom count (pc + 1) rest

def validate (insns : List BpfInsn) : Except BpfError Unit :=
  match insns.getLast? with
  | none => .error .empty
  | some last =>
    if insns.length > maxInsns then .error .tooLong
    else do
      validateFrom insns.length 0 insns
      if last.opClass = .ret then .ok () else .error .noReturnAtEnd

/-! ## The machine -/

def seccompRetKillProcess : BitVec 32 := 0x80000000#32
def seccompRetKill : BitVec 32 := 0x00000000#32
def seccompRetTrap : BitVec 32 := 0x00030000#32
def seccompRetErrno : BitVec 32 := 0x00050000#32
def seccompRetTrace : BitVec 32 := 0x7FF00000#32
def seccompRetLog : BitVec 32 := 0x7FFC0000#32
def seccompRetAllow : BitVec 32 := 0x7FFF0000#32
def seccompRetActionFull : BitVec 32 := 0xFFFF0000#32

structure Vm where
  a : BitVec 32
  x : BitVec 32
  mem : Vector (BitVec 32) memWords
  pc : Nat

inductive Turn
  | next (vm : Vm)
  | answer (value : BitVec 32)

namespace Vm

def new : Vm := ⟨0#32, 0#32, Vector.replicate memWords 0#32, 0⟩

variable (self : Vm)

def word (k : BitVec 32) : BitVec 32 := (self.mem[k.toNat]?).getD 0#32

def store (k value : BitVec 32) : Vector (BitVec 32) memWords :=
  self.mem.setIfInBounds k.toNat value

def source (insn : BpfInsn) : BitVec 32 :=
  if insn.src = BpfInsn.bpfX then self.x else insn.k

def load (data : SeccompData) (insn : BpfInsn) : BitVec 32 :=
  match insn.mode with
  | .imm => insn.k
  | .abs => (data.loadU32 insn.k.toNat).getD 0#32
  | .ind => (data.loadU32 (self.x + insn.k).toNat).getD 0#32
  | .mem => self.word insn.k
  | .len => BitVec.ofNat 32 seccompDataLen
  | .msh | .other => 0#32

def loadIndex (insn : BpfInsn) : BitVec 32 :=
  match insn.mode with
  | .imm => insn.k
  | .mem => self.word insn.k
  | .len => BitVec.ofNat 32 seccompDataLen
  | .abs | .ind | .msh | .other => 0#32

/-- No result when the divisor is zero, which kills. -/
def calculate (op : AluOp) (a src : BitVec 32) : Option (BitVec 32) :=
  match op with
  | .add => some (a + src)
  | .sub => some (a - src)
  | .mul => some (a * src)
  | .div => if src ≠ 0#32 then some (a / src) else none
  | .mod => if src ≠ 0#32 then some (a % src) else none
  | .or => some (a ||| src)
  | .and => some (a &&& src)
  | .xor => some (a ^^^ src)
  | .lsh => some (if src.toNat < 32 then a <<< src.toNat else 0#32)
  | .rsh => some (if src.toNat < 32 then a >>> src.toNat else 0#32)
  | .neg => some (~~~a + 1#32)
  | .other => some a

def taken (op : JumpOp) (a src : BitVec 32) : Bool :=
  match op with
  | .jeq => a == src
  | .jgt => src < a
  | .jge => src ≤ a
  | .jset => a &&& src != 0#32
  | .ja | .other => false

def exec (data : SeccompData) (insn : BpfInsn) : Turn :=
  match insn.opClass with
  | .ld => .next { self with a := self.load data insn, pc := self.pc + 1 }
  | .ldx => .next { self with x := self.loadIndex insn, pc := self.pc + 1 }
  | .st => .next { self with mem := self.store insn.k self.a, pc := self.pc + 1 }
  | .stx => .next { self with mem := self.store insn.k self.x, pc := self.pc + 1 }
  | .alu =>
    match calculate insn.aluOp self.a (self.source insn) with
    | some value => .next { self with a := value, pc := self.pc + 1 }
    | none => .answer seccompRetKill
  | .jmp =>
    if insn.jumpOp = .ja then .next { self with pc := self.pc + (1 + insn.k.toNat) }
    else if taken insn.jumpOp self.a (self.source insn) then
      .next { self with pc := self.pc + (1 + insn.jt.toNat) }
    else .next { self with pc := self.pc + (1 + insn.jf.toNat) }
  | .ret => .answer (if insn.src = BpfInsn.bpfA then self.a else insn.k)
  | .misc =>
    match insn.miscOp with
    | .tax => .next { self with x := self.a, pc := self.pc + 1 }
    | .txa => .next { self with a := self.x, pc := self.pc + 1 }
    | .other => .next { self with pc := self.pc + 1 }

end Vm

def runFor (prog : List BpfInsn) (data : SeccompData) : (budget : Nat) → Vm → BitVec 32
  | 0, _ => seccompRetKill
  | budget + 1, vm =>
    match prog[vm.pc]? with
    | none => seccompRetKill
    | some insn =>
      match vm.exec data insn with
      | .next vm => runFor prog data budget vm
      | .answer value => value

def budget : Nat := 1000000

def run (prog : List BpfInsn) (data : SeccompData) : BitVec 32 := runFor prog data budget .new

/-! ## The chain of a process -/

/-- The result and the number for `errno`. -/
def actionToQsf (retval : BitVec 32) : QsfResult × Int :=
  let action := retval &&& seccompRetActionFull
  let data : Int := (retval &&& 0x0000FFFF#32).toNat
  if action = seccompRetAllow then (.allow, 0)
  else if action = seccompRetKill then (.kill, 0)
  else if action = seccompRetKillProcess then (.kill, 0)
  else if action = seccompRetTrap then (.kill, 0)
  else if action = seccompRetErrno then (.deny, data)
  else if seccompRetTrace ≤ action then (.allow, 0)
  else if action = seccompRetLog then (.allow, 0)
  else (.allow, 0)

/-- A filter is installed only if it passed the validator. -/
structure SeccompFilter where
  insns : List BpfInsn
  valid : validate insns = .ok ()

inductive SeccompMode
  | off
  | strict
  | filter
deriving DecidableEq

structure FilterChain where
  filters : List SeccompFilter
  mode : SeccompMode

namespace FilterChain

def new : FilterChain := ⟨[], .off⟩

variable (self : FilterChain)

def isActive : Bool := self.mode ≠ .off

/-- The lower return value is taken to be the more restrictive one. -/
def restrict (data : SeccompData) (mostRestrictive : BitVec 32) (filter : SeccompFilter) :
    BitVec 32 :=
  if run filter.insns data < mostRestrictive then run filter.insns data else mostRestrictive

def runChain (data : SeccompData) : QsfResult × Int :=
  if self.mode = .strict then
    if data.nr.toNat ∈ [0, 1, 15, 60, 231] then (.allow, 0) else (.kill, 0)
  else actionToQsf (self.filters.foldl (restrict data) seccompRetAllow)

def install (filter : SeccompFilter) : FilterChain :=
  ⟨self.filters ++ [filter], .filter⟩

def setStrict : FilterChain := { self with mode := .strict }

end FilterChain

/-! ## The allowlist -/

structure SyscallFilter where
  bitmap : WordBitmap
  active : Bool
  killOnViolation : Bool

namespace SyscallFilter

def allowAll : SyscallFilter := ⟨fun _ => BitVec.allOnes 64, false, false⟩

def denyAll : SyscallFilter := ⟨WordBitmap.empty, true, true⟩

def isAllowed (self : SyscallFilter) (nr : Nat) : Bool :=
  if !self.active || 512 ≤ nr then true else self.bitmap.test nr

end SyscallFilter

/-! ## Validated programs

Jumps only go forward, so a validated program comes to a `RET`. -/

/-- The word of the scratch memory that an instruction uses. -/
def BpfInsn.scratch (self : BpfInsn) : Option Nat :=
  match self.opClass with
  | .ld | .ldx => if self.mode = .mem then some self.k.toNat else none
  | .st | .stx => some self.k.toNat
  | _ => none

/-- A return, or a division or remainder by zero. -/
def Vm.Returns (self : Vm) (insn : BpfInsn) : Prop :=
  insn.opClass = .ret ∨
    insn.opClass = .alu ∧ (insn.aluOp = .div ∨ insn.aluOp = .mod) ∧ self.source insn = 0#32

variable (prog : List BpfInsn) (data : SeccompData)

/-- An execution of `count` instructions with no limit on their number. -/
inductive Executes : Vm → Nat → BitVec 32 → Prop
  | last {vm insn value} (fetched : prog[vm.pc]? = some insn) (returns : vm.Returns insn)
      (answered : vm.exec data insn = .answer value) : Executes vm 1 value
  | next {vm insn after count value} (fetched : prog[vm.pc]? = some insn)
      (scratch : ∀ word ∈ insn.scratch, word < memWords)
      (stepped : vm.exec data insn = .next after) (rest : Executes after count value) :
      Executes vm (count + 1) value

variable {prog} {insn : BpfInsn} {vm : Vm}

theorem both_ok {first second : Except BpfError Unit} (valid : (do first; second) = .ok ()) :
    first = .ok () ∧ second = .ok () := by
  cases first with
  | error => cases valid
  | ok => exact ⟨rfl, valid⟩

theorem validateFrom_insn {insns : List BpfInsn} {count pc index : Nat}
    (valid : validateFrom count pc insns = .ok ()) (fetched : insns[index]? = some insn) :
    validateInsn count (pc + index) insn = .ok () := by
  induction insns generalizing pc index with
  | nil => cases fetched
  | cons head rest induction =>
    rcases both_ok valid with ⟨checked, later⟩
    cases index with
    | zero =>
      cases fetched
      exact checked
    | succ index =>
      rw [← Nat.add_assoc, Nat.add_right_comm]
      exact induction later fetched

/-- What the validator has checked. -/
structure Validated (prog : List BpfInsn) : Prop where
  nonempty : 0 < prog.length
  short : prog.length ≤ maxInsns
  insn : ∀ {pc insn}, prog[pc]? = some insn → validateInsn prog.length pc insn = .ok ()
  last : ∀ {insn}, prog[prog.length - 1]? = some insn → insn.opClass = .ret

theorem validated (valid : validate prog = .ok ()) : Validated prog := by
  rw [validate, List.getLast?_eq_getElem?] at valid
  split at valid
  · cases valid
  next last isLast =>
    split at valid
    · cases valid
    rcases both_ok valid with ⟨checked, returns⟩
    refine ⟨by grind, by omega, ?_, ?_⟩
    · intro pc insn fetched
      simpa using validateFrom_insn checked fetched
    · intro insn fetched
      cases isLast.symm.trans fetched
      by_contra other
      rw [if_neg other] at returns
      cases returns

/-- An instruction that does not return goes on behind itself and inside the program. -/
theorem Vm.exec_cases (validated : Validated prog) (fetched : prog[vm.pc]? = some insn) :
    (∃ value, vm.exec data insn = .answer value ∧ vm.Returns insn) ∨
    ∃ after, vm.exec data insn = .next after ∧ (∀ word ∈ insn.scratch, word < memWords) ∧
      vm.pc < after.pc ∧ after.pc < prog.length := by
  have checked := validated.insn fetched
  by_cases isRet : insn.opClass = .ret
  · exact .inl ⟨_, by rw [exec, isRet], .inl isRet⟩
  have more : vm.pc + 1 < prog.length := by
    by_contra atEnd
    have isEnd : vm.pc = prog.length - 1 := by grind
    exact isRet (validated.last (isEnd ▸ fetched))
  rw [validateInsn] at checked
  rw [exec, BpfInsn.scratch, Returns]
  cases isClass : insn.opClass with
  | ret => exact absurd isClass isRet
  | jmp =>
    refine .inr ?_
    simp only [isClass] at checked ⊢
    split at checked <;> split at checked
    · cases checked
    next isJa small => exact ⟨_, if_pos isJa, nofun, by simp only; omega, by simp only; omega⟩
    · cases checked
    next notJa small =>
      rw [if_neg notJa]
      split <;> exact ⟨_, rfl, nofun, by simp only; omega, by simp only; omega⟩
  | alu =>
    cases result : calculate insn.aluOp vm.a (vm.source insn) with
    | some value => exact .inr ⟨_, rfl, nofun, Nat.lt_succ_self _, more⟩
    | none =>
      refine .inl ⟨_, rfl, .inr ⟨rfl, ?_⟩⟩
      cases isOp : insn.aluOp <;> simp_all [calculate]
  | ld | ldx | st | stx =>
    refine .inr ⟨_, rfl, ?_, Nat.lt_succ_self _, more⟩
    grind
  | misc => cases insn.miscOp <;> exact .inr ⟨_, rfl, nofun, Nat.lt_succ_self _, more⟩

theorem Vm.executes (validated : Validated prog) {budget : Nat} (inside : vm.pc < prog.length)
    (enough : prog.length - vm.pc ≤ budget) :
    ∃ count ≤ prog.length - vm.pc, Executes prog data vm count (runFor prog data budget vm) := by
  induction budget generalizing vm with
  | zero => omega
  | succ budget induction =>
    have fetched := List.getElem?_eq_getElem inside
    rw [runFor, fetched]
    rcases exec_cases data validated fetched with
      ⟨value, answered, returns⟩ | ⟨after, stepped, scratch, forward, stays⟩
    · simp only [answered]
      exact ⟨1, by omega, .last fetched returns answered⟩
    · simp only [stepped]
      rcases induction stays (by omega) with ⟨count, few, rest⟩
      exact ⟨count + 1, by omega, .next fetched scratch stepped rest⟩

theorem run_executes (valid : validate prog = .ok ()) :
    ∃ count ≤ prog.length, count < budget ∧ Executes prog data .new count (run prog data) := by
  have checked := validated valid
  have short : prog.length < budget := checked.short.trans_lt (by decide)
  rcases @Vm.executes prog data .new checked budget checked.nonempty (le_of_lt short) with
    ⟨count, few, executes⟩
  exact ⟨count, few, lt_of_le_of_lt few short, executes⟩

/-- Kill, if the number of the call is odd. -/
def evenCalls : List BpfInsn :=
  [⟨0x20, 0, 0, 0⟩, ⟨0x45, 0, 1, 1⟩, ⟨0x06, 0, 0, 0⟩, ⟨0x06, 0, 0, 0x7FFF0000⟩]

theorem run_executes_even : ∃ count ≤ evenCalls.length, count < budget ∧
    Executes evenCalls ⟨2, 0, 0, .replicate 6 0⟩ .new count
      (run evenCalls ⟨2, 0, 0, .replicate 6 0⟩) :=
  run_executes _ rfl

end Qunix.Security
