import Qunix.Process.Family

/-! # Waiting for children

The two searches of `wait4`, for a zombie and for any process, look at the whole table unless the
argument is -1.
-/

namespace Qunix.Family

open Foundation Option

namespace Table

/-- Numbers of processes are `u32`. -/
def pidLimit : Nat := 4294967296

def allPids (self : Table) : List Nat :=
  (List.range pidLimit).filter fun pid => (self.procs pid).isSome

def waitAnyZombie (self : Table) (ppid : Nat) : Option Nat :=
  (self.procs ppid).bind fun parent =>
    parent.children.find? fun child => (self.procs child).any (·.isZombie)

def findProcess (self : Table) (test : Process → Bool) : Option Nat :=
  self.allPids.find? fun pid => (self.procs pid).any test

def findZombie (self : Table) (me : Nat) (pid : Int) : Option Nat :=
  if pid = -1 then self.waitAnyZombie me
  else if pid < -1 then
    self.findProcess fun process => process.pgid == (-pid).toNat && process.isZombie
  else if (self.procs pid.toNat).any (·.isZombie) then some pid.toNat
  else none

def hasRelevantChildren (self : Table) (me : Nat) (pid : Int) : Bool :=
  if pid = -1 then (self.procs me).any fun process => !process.children.isEmpty
  else if pid < -1 then (self.findProcess fun process => process.pgid == (-pid).toNat).isSome
  else (self.procs pid.toNat).isSome

/-! ## What the searches look at -/

/-- A process that the argument makes `wait4` look at. -/
def Selected (me : Nat) (pid : Int) (child : Nat) (process : Process) : Prop :=
  (pid = -1 ∧ process.ppid = me) ∨ (pid < -1 ∧ process.pgid = (-pid).toNat) ∨
    (0 ≤ pid ∧ child = pid.toNat)

/-- A child of the caller that the argument asks for. -/
def Matches (self : Table) (me : Nat) (pid : Int) (child : Nat) (process : Process) : Prop :=
  process.ppid = me ∧
    (pid = -1 ∨ (pid < -1 ∧ process.pgid = (-pid).toNat) ∨
      (pid = 0 ∧ ∃ caller, self.procs me = some caller ∧ process.pgid = caller.pgid) ∨
      (0 < pid ∧ child = pid.toNat))

def HasSelected (self : Table) (me : Nat) (pid : Int) : Prop :=
  ∃ child process, self.procs child = some process ∧ Selected me pid child process

def HasMatching (self : Table) (me : Nat) (pid : Int) : Prop :=
  ∃ child process, self.procs child = some process ∧ self.Matches me pid child process

variable {self : Table} {me child : Nat} {pid : Int}

theorem findProcess_eq (test : Process → Bool) :
    self.findProcess test = (List.range pidLimit).find? fun pid => (self.procs pid).any test := by
  rw [findProcess, allPids, List.find?_filter]
  congr 1
  funext pid
  cases self.procs pid with
  | none | some process => simp

variable {test : Process → Bool} {process : Process}

theorem findProcess_eq_some :
    self.findProcess test = some child ↔
      (∃ process, self.procs child = some process ∧ test process = true) ∧ child < pidLimit ∧
        ∀ earlier, earlier < child → ∀ process, self.procs earlier = some process →
          test process = false := by
  rw [findProcess_eq, List.find?_range_eq_some, List.mem_range]
  simp [any_eq_true, any_eq_false]

theorem findProcess_isSome (typed : ∀ pid, pidLimit ≤ pid → self.procs pid = none) :
    (self.findProcess test).isSome = true ↔
      ∃ child process, self.procs child = some process ∧ test process = true := by
  constructor
  · intro isSome
    rcases isSome_iff_exists.mp isSome with ⟨child, found⟩
    exact ⟨child, (findProcess_eq_some.mp found).1⟩
  · rintro ⟨child, process, found, passes⟩
    by_contra notFound
    rw [not_isSome_iff_eq_none, findProcess_eq, List.find?_range_eq_none] at notFound
    have small : child < pidLimit := by
      by_contra large
      rw [typed child (by omega)] at found
      cases found
    have fails := notFound child small
    simp [found, passes] at fails

theorem waitAnyZombie_spec (listed : self.Listed) (found : self.waitAnyZombie me = some child) :
    ∃ process, self.procs child = some process ∧ process.isZombie = true ∧ process.ppid = me := by
  rw [waitAnyZombie, bind_eq_some_iff] at found
  rcases found with ⟨parent, isParent, found⟩
  have zombie := List.find?_some found
  rw [any_eq_true] at zombie
  rcases zombie with ⟨process, isProcess, zombie⟩
  have isChild := (listed.mem_children isParent).mp (List.mem_of_find?_eq_some found)
  rw [parentOf_some isProcess, Option.some.injEq] at isChild
  exact ⟨process, isProcess, zombie, isChild⟩

/-- A selected zombie, and the first one if a group is asked for. -/
def FirstZombie (self : Table) (me : Nat) (pid : Int) (child : Nat) : Prop :=
  (∃ process, self.procs child = some process ∧ process.isZombie = true ∧
    Selected me pid child process) ∧
    (pid < -1 → ∀ earlier, earlier < child → ∀ process, self.procs earlier = some process →
      process.isZombie = true → ¬ Selected me pid earlier process)

theorem selected_group (group : pid < -1) :
    Selected me pid child process ↔ process.pgid = (-pid).toNat := by
  have notAny : pid ≠ -1 := by omega
  have negative : ¬ 0 ≤ pid := by omega
  simp [Selected, group, notAny, negative]

theorem selected_exact (exact : 0 ≤ pid) :
    Selected me pid child process ↔ child = pid.toNat := by
  have notAny : pid ≠ -1 := by omega
  have noGroup : ¬ pid < -1 := by omega
  simp [Selected, exact, notAny, noGroup]

theorem findZombie_firstZombie (listed : self.Listed)
    (found : self.findZombie me pid = some child) :
    self.FirstZombie me pid child := by
  rw [findZombie] at found
  split at found
  next any =>
    rcases waitAnyZombie_spec listed found with ⟨process, isProcess, zombie, isChild⟩
    exact ⟨⟨process, isProcess, zombie, .inl ⟨any, isChild⟩⟩, fun group => by omega⟩
  next notAny =>
    split at found
    next group =>
      rw [findProcess_eq_some] at found
      rcases found with ⟨⟨process, isProcess, passes⟩, _, first⟩
      simp only [Bool.and_eq_true, beq_iff_eq] at passes
      refine ⟨⟨process, isProcess, passes.2, (selected_group group).mpr passes.1⟩, ?_⟩
      intro _ earlier isEarlier other isOther zombie selected
      have fails := first earlier isEarlier other isOther
      rw [selected_group group] at selected
      simp [selected, zombie] at fails
    next notGroup =>
      have exact : 0 ≤ pid := by omega
      split at found
      next zombie =>
        cases found
        rw [any_eq_true] at zombie
        rcases zombie with ⟨process, isProcess, zombie⟩
        exact ⟨⟨process, isProcess, zombie, (selected_exact exact).mpr rfl⟩, fun group => by omega⟩
      next => cases found

section

variable (typed : ∀ pid, pidLimit ≤ pid → self.procs pid = none)
include typed

/-- Apart from the order among the children, the search finds the first zombie. -/
theorem FirstZombie.findZombie (first : self.FirstZombie me pid child) (notAny : pid ≠ -1) :
    self.findZombie me pid = some child := by
  rcases first with ⟨⟨process, isProcess, zombie, selected⟩, earliest⟩
  rw [Table.findZombie, if_neg notAny]
  split
  next group =>
    rw [selected_group group] at selected
    rw [findProcess_eq_some]
    refine ⟨⟨process, isProcess, by simp [selected, zombie]⟩, ?_, ?_⟩
    · by_contra large
      rw [typed child (by omega)] at isProcess
      cases isProcess
    · intro earlier isEarlier other isOther
      have fails := earliest group earlier isEarlier other isOther
      rw [selected_group group] at fails
      by_cases isZombie : other.isZombie = true
      · simp [fails isZombie]
      · simp [isZombie]
  next notGroup =>
    rw [selected_exact (by omega)] at selected
    rw [selected] at isProcess ⊢
    simp [isProcess, zombie]

theorem hasRelevantChildren_iff
    (listed : self.Listed) {caller : Process} (isCaller : self.procs me = some caller) :
    self.hasRelevantChildren me pid = true ↔ self.HasSelected me pid := by
  rw [hasRelevantChildren]
  split
  next any =>
    simp only [isCaller, any_some, Bool.not_eq_true', List.isEmpty_eq_false_iff_exists_mem]
    constructor
    · rintro ⟨child, member⟩
      rcases parentOf_eq_some.mp ((listed.mem_children isCaller).mp member) with
        ⟨process, isProcess, isChild⟩
      exact ⟨child, process, isProcess, .inl ⟨any, isChild⟩⟩
    · rintro ⟨child, process, isProcess, selected⟩
      refine ⟨child, (listed.mem_children isCaller).mpr ?_⟩
      rcases selected with ⟨_, isChild⟩ | ⟨group, _⟩ | ⟨exact, _⟩
      · rw [parentOf_some isProcess, isChild]
      · omega
      · omega
  next notAny =>
    split
    next group =>
      rw [findProcess_isSome typed]
      simp [HasSelected, selected_group group]
    next notGroup =>
      rw [isSome_iff_exists]
      simp [HasSelected, selected_exact (show 0 ≤ pid by omega)]

end

end Table

end Qunix.Family
