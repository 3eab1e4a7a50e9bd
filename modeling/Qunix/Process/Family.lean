import Qunix.Process.Table

/-! # Parents and children

The process table as far as the tree of processes is concerned. The tree is stored twice, in the
`ppid` of every process and in the `children` of its parent.
-/

namespace Qunix.Family

open Foundation Function Option

namespace Process

def push (self : Process) (pid : Nat) : Process := { self with children := self.children ++ [pid] }

def retain (self : Process) (pid : Nat) : Process :=
  { self with children := self.children.filter (· != pid) }

end Process

structure Table where
  procs : Nat → Option Process
  nextPid : Nat
  current : Nat

namespace Table

def maxPids : Nat := 65536

def set (self : Table) (pid : Nat) (process : Option Process) : Table :=
  { self with procs := Function.update self.procs pid process }

def update (self : Table) (pid : Nat) (change : Process → Process) : Table :=
  self.set pid ((self.procs pid).map change)

def advance (next : Nat) : Nat := if maxPids ≤ next then 2 else next + 1

/-- The loop of `alloc_pid` for at most `fuel` rounds, with the hint that it leaves. -/
def allocPidFrom (procs : Nat → Option Process) (start : Nat) :
    (fuel : Nat) → Nat → Option (Option Nat × Nat)
  | 0, _ => none
  | fuel + 1, next =>
    if procs next = none then some (some next, advance next)
    else if advance next = start then some (none, advance next)
    else allocPidFrom procs start fuel (advance next)

def allocPid (fuel : Nat) (self : Table) : Option (Option Nat × Table) :=
  (allocPidFrom self.procs self.nextPid fuel self.nextPid).map fun ended =>
    (ended.1, { self with nextPid := ended.2 })

/-- `Table::new` followed by the idle process of `init`. -/
def init : Table where
  procs := Function.update (fun _ => none) 1 (some ⟨0, 1, .runnable, []⟩)
  nextPid := 2
  current := 1

/-- The number that `spawn` gives to a process that asks for `wanted`. -/
def choosePid (fuel : Nat) (self : Table) (wanted : Nat) : Option (Option Nat × Table) :=
  if wanted ≠ 0 ∧ self.procs wanted = none then some (some wanted, self) else self.allocPid fuel

def adopt (self : Table) (ppid pid : Nat) : Table :=
  if ppid ≠ 0 ∧ ppid ≠ pid then
    self.update ppid fun parent => if parent.children.contains pid then parent else parent.push pid
  else self

/-- What `spawn` does with that number, or without one. -/
def enter (self : Table) (process : Process) : Option Nat → Nat × Table
  | none => (0, self)
  | some pid => (pid, (self.adopt process.ppid pid).set pid (some process))

def spawn (fuel : Nat) (self : Table) (wanted : Nat) (process : Process) : Option (Nat × Table) :=
  (self.choosePid fuel wanted).map fun chosen => chosen.2.enter process chosen.1

/-- The child that `fork_current` and `clone_thread` enter into the table. -/
def child (ppid : Nat) (parent : Process) : Process := ⟨ppid, parent.pgid, .runnable, []⟩

/-- What both do with the number of the child; `copied` is the success of `copy_on_fork`. -/
def startChild (self : Table) (ppid : Nat) (copied : Bool) : Option Nat → Option Nat × Table
  | none => (none, self)
  | some pid =>
    match self.procs ppid with
    | none => (none, self)
    | some parent =>
      if copied then
        (some pid, (self.update ppid (·.push pid)).set pid (some (child ppid parent)))
      else (none, self)

def cloneWith (fuel : Nat) (self : Table) (ppid : Nat) (copied : Bool) :
    Option (Option Nat × Table) :=
  (self.allocPid fuel).map fun chosen => chosen.2.startChild ppid copied chosen.1

def forkCurrent (fuel : Nat) (self : Table) (copied : Bool) : Option (Option Nat × Table) :=
  self.cloneWith fuel self.current copied

/-- The address space is shared, so there is nothing that can fail. -/
def cloneThread (fuel : Nat) (self : Table) (parentPid : Nat) : Option (Option Nat × Table) :=
  self.cloneWith fuel parentPid true

/-- The end of `exit_current`, and a terminating signal for any process. -/
def terminate (self : Table) (pid : Nat) (code : Int) : Table :=
  self.update pid fun process => { process with state := .zombie code }

def exitCurrent (self : Table) (code : Int) : Table := self.terminate self.current code

def reapChild (self : Table) (pid : Nat) : Option Int × Table :=
  match self.procs pid with
  | none => (none, self)
  | some process =>
    match process.state with
    | .zombie code => (some code, (self.set pid none).update process.ppid (·.retain pid))
    | _ => (none, self)

/-! ## Entries after an update -/

variable {self : Table} {pid other : Nat} {entry : Option Process} {change : Process → Process}

@[simp] theorem procs_set_self : (self.set pid entry).procs pid = entry := update_self ..

theorem procs_set_of_ne (differs : other ≠ pid) :
    (self.set pid entry).procs other = self.procs other :=
  update_of_ne differs ..

@[simp] theorem procs_update_self :
    (self.update pid change).procs pid = (self.procs pid).map change :=
  update_self ..

theorem procs_update_of_ne (differs : other ≠ pid) :
    (self.update pid change).procs other = self.procs other :=
  update_of_ne differs ..

theorem update_none (absent : self.procs pid = none) : self.update pid change = self := by
  rw [update, set, absent, map_none, ← absent, update_eq_self]

/-! ## New numbers -/

theorem advance_ne_zero (next : Nat) : advance next ≠ 0 := by
  rw [advance]
  split <;> omega

variable {fuel : Nat} {chosen : Option Nat} {after : Table}

variable {parent : Process} {next wanted : Nat}

theorem allocPidFrom_spec {procs : Nat → Option Process} {start after : Nat} (positive : next ≠ 0)
    (ended : allocPidFrom procs start fuel next = some (chosen, after)) :
    after ≠ 0 ∧ ∀ pid, chosen = some pid → pid ≠ 0 ∧ procs pid = none := by
  induction fuel generalizing next with
  | zero => cases ended
  | succ fuel induction =>
    rw [allocPidFrom] at ended
    split at ended
    next unused =>
      cases ended
      refine ⟨advance_ne_zero next, ?_⟩
      intro pid isPid
      cases isPid
      exact ⟨positive, unused⟩
    next =>
      split at ended
      next =>
        cases ended
        refine ⟨advance_ne_zero next, ?_⟩
        intro pid isPid
        cases isPid
      next => exact induction (advance_ne_zero next) ended

/-- The number is new, and only the hint of the table changes. -/
structure Drawn (table : Table) (chosen : Option Nat) (after : Table) : Prop where
  only : ∃ next, next ≠ 0 ∧ after = { table with nextPid := next }
  new : ∀ pid, chosen = some pid → pid ≠ 0 ∧ table.procs pid = none

theorem allocPid_drawn
    (positive : self.nextPid ≠ 0) (ended : self.allocPid fuel = some (chosen, after)) :
    self.Drawn chosen after := by
  rw [allocPid, map_eq_some_iff] at ended
  rcases ended with ⟨⟨found, next⟩, loop, isEnd⟩
  cases isEnd
  rcases allocPidFrom_spec positive loop with ⟨nonzero, new⟩
  exact ⟨⟨next, nonzero, rfl⟩, new⟩

theorem choosePid_drawn (positive : self.nextPid ≠ 0)
    (ended : self.choosePid fuel wanted = some (chosen, after)) :
    self.Drawn chosen after := by
  rw [choosePid] at ended
  split at ended
  next free =>
    cases ended
    refine ⟨⟨self.nextPid, positive, rfl⟩, ?_⟩
    intro pid isPid
    cases isPid
    exact free
  next => exact allocPid_drawn positive ended

/-! ## The lists of children -/

def parentOf (self : Table) (pid : Nat) : Option Nat := (self.procs pid).map (·.ppid)

/-- The children lists are what the parent fields say. -/
structure Listed (table : Table) : Prop where
  noZero : table.procs 0 = none
  hint : table.nextPid ≠ 0
  counted : ∀ {pid : Nat} {parent : Process}, table.procs pid = some parent →
    ∀ child, parent.children.count child = if table.parentOf child = some pid then 1 else 0

theorem parentOf_eq_some {parent : Nat} :
    self.parentOf pid = some parent ↔
      ∃ process, self.procs pid = some process ∧ process.ppid = parent :=
  map_eq_some_iff

theorem parentOf_eq_none (absent : self.procs pid = none) : self.parentOf pid = none := by
  rw [parentOf, absent, map_none]

theorem parentOf_some {process : Process} (found : self.procs pid = some process) :
    self.parentOf pid = some process.ppid := by
  rw [parentOf, found, map_some]

namespace Listed

variable {process : Process}

section

variable (listed : self.Listed)
include listed

theorem ne_zero (found : self.procs pid = some process) : pid ≠ 0 := by
  intro isZero
  rw [isZero, listed.noZero] at found
  cases found

theorem with_nextPid (positive : next ≠ 0) :
    Listed { self with nextPid := next } where
  noZero := listed.noZero
  hint := positive
  counted := listed.counted

theorem count_new (new : self.procs pid = none)
    (found : self.procs other = some parent) : parent.children.count pid = 0 := by
  rw [listed.counted found, parentOf_eq_none new]
  rfl

theorem mem_children (found : self.procs pid = some parent) {child : Nat} :
    child ∈ parent.children ↔ self.parentOf child = some pid := by
  have counted := listed.counted found child
  split at counted
  next isParent =>
    refine iff_of_true (List.count_pos_iff.mp ?_) isParent
    omega
  next noParent => exact iff_of_false (List.count_eq_zero.mp counted) noParent

end

end Listed

/-- A process enters the table as the last child of its parent. -/
def add (self : Table) (pid : Nat) (process : Process) : Table :=
  (self.update process.ppid (·.push pid)).set pid (some process)

section Add

variable {process : Process}

theorem parentOf_update (keeps : ∀ process, (change process).ppid = process.ppid) :
    (self.update pid change).parentOf other = self.parentOf other := by
  by_cases same : other = pid
  · rw [same, parentOf, procs_update_self, map_map]
    congr 1
    funext process
    exact keeps process
  · rw [parentOf, parentOf, procs_update_of_ne same]

theorem parentOf_set_of_ne (differs : other ≠ pid) :
    (self.set pid entry).parentOf other = self.parentOf other := by
  rw [parentOf, parentOf, procs_set_of_ne differs]

theorem parentOf_add_self : (self.add pid process).parentOf pid = some process.ppid := by
  rw [parentOf, add, procs_set_self, map_some]

theorem parentOf_add_of_ne (differs : other ≠ pid) :
    (self.add pid process).parentOf other = self.parentOf other := by
  rw [add, parentOf_set_of_ne differs]
  exact parentOf_update fun _ => rfl

theorem procs_add_of_ne (differs : other ≠ pid) : (self.add pid process).procs other =
    if other = process.ppid then (self.procs other).map (·.push pid) else self.procs other := by
  rw [add, procs_set_of_ne differs]
  split
  next isParent => rw [isParent, procs_update_self]
  next isOther => exact procs_update_of_ne isOther

/-- A new process without children that nobody has as its parent. -/
structure Joins (table : Table) (pid : Nat) (process : Process) : Prop where
  positive : pid ≠ 0
  new : table.procs pid = none
  childless : process.children = []
  unclaimed : ∀ other, (table.add pid process).parentOf other ≠ some pid

theorem Listed.counted_add (listed : self.Listed) (joins : self.Joins pid process)
    (found : (self.add pid process).procs other = some parent) (child : Nat) :
    parent.children.count child =
      if (self.add pid process).parentOf child = some other then 1 else 0 := by
  by_cases isNew : other = pid
  · rw [isNew, add, procs_set_self] at found
    cases found
    rw [isNew]
    rw [if_neg (joins.unclaimed child), joins.childless, List.count_nil]
  rw [procs_add_of_ne isNew] at found
  by_cases isChild : child = pid
  · rw [isChild, parentOf_add_self]
    split at found
    next isParent =>
      rcases map_eq_some_iff.mp found with ⟨before, isBefore, rfl⟩
      rw [if_pos (congrArg some isParent.symm), Process.push, List.count_append,
        listed.count_new joins.new isBefore, List.count_singleton_self]
    next isOther =>
      rw [if_neg (fun same => isOther (Option.some.inj same).symm),
        listed.count_new joins.new found]
  · rw [parentOf_add_of_ne isChild]
    split at found
    next =>
      rcases map_eq_some_iff.mp found with ⟨before, isBefore, rfl⟩
      have notMine : [pid].count child = 0 := List.count_eq_zero.mpr (by simpa using isChild)
      rw [Process.push, List.count_append, notMine]
      exact listed.counted isBefore child
    next => exact listed.counted found child

theorem Listed.add (listed : self.Listed) (joins : self.Joins pid process) :
    (self.add pid process).Listed where
  noZero := by
    rw [procs_add_of_ne joins.positive.symm, listed.noZero]
    split <;> rfl
  hint := listed.hint
  counted := listed.counted_add joins

end Add

/-! ## The end of a process -/

section Ends

variable {process : Process}

theorem parentOf_terminate (code : Int) :
    (self.terminate pid code).parentOf other = self.parentOf other :=
  parentOf_update fun _ => rfl

theorem Listed.update (listed : self.Listed)
    (sameParent : ∀ process, (change process).ppid = process.ppid)
    (sameChildren : ∀ process, (change process).children = process.children) :
    (self.update pid change).Listed where
  noZero := by
    by_cases isZero : 0 = pid
    · rw [← isZero, update_none listed.noZero]
      exact listed.noZero
    · exact (procs_update_of_ne isZero).trans listed.noZero
  hint := listed.hint
  counted := by
    intro other parent found child
    rw [parentOf_update sameParent]
    by_cases same : other = pid
    · rw [same, procs_update_self] at found
      rcases map_eq_some_iff.mp found with ⟨before, isBefore, rfl⟩
      rw [same, sameChildren]
      exact listed.counted isBefore child
    · rw [procs_update_of_ne same] at found
      exact listed.counted found child

theorem Listed.terminate (listed : self.Listed) (code : Int) : (self.terminate pid code).Listed :=
  listed.update (fun _ => rfl) fun _ => rfl

/-- What `reap_child` leaves of a table when it takes a zombie out. -/
def remove (self : Table) (pid ppid : Nat) : Table := (self.set pid none).update ppid (·.retain pid)

variable {ppid : Nat}

theorem procs_remove_self : (self.remove pid ppid).procs pid = none := by
  by_cases same : pid = ppid
  · rw [remove, ← same, procs_update_self, procs_set_self, map_none]
  · rw [remove, procs_update_of_ne same, procs_set_self]

theorem procs_remove_of_ne (differs : other ≠ pid) :
    (self.remove pid ppid).procs other =
      if other = ppid then (self.procs other).map (·.retain pid) else self.procs other := by
  split
  next isParent => rw [remove, ← isParent, procs_update_self, procs_set_of_ne differs]
  next isOther => rw [remove, procs_update_of_ne isOther, procs_set_of_ne differs]

theorem parentOf_remove_of_ne (differs : other ≠ pid) :
    (self.remove pid ppid).parentOf other = self.parentOf other := by
  have kept : (self.remove pid ppid).parentOf other = (self.set pid none).parentOf other :=
    parentOf_update fun _ => rfl
  exact kept.trans (parentOf_set_of_ne differs)

theorem Process.count_retain (child : Nat) :
    (process.retain pid).children.count child =
      if child = pid then 0 else process.children.count child := by
  rw [Process.retain]
  split
  next same =>
    rw [List.count_eq_zero, same]
    simp
  next differs =>
    apply List.count_filter
    simpa using differs

theorem Listed.counted_remove (listed : self.Listed) (found : self.procs pid = some process)
    (there : (self.remove pid process.ppid).procs other = some parent) (child : Nat) :
    parent.children.count child =
      if (self.remove pid process.ppid).parentOf child = some other then 1 else 0 := by
  have differs : other ≠ pid := by
    intro same
    rw [same, procs_remove_self] at there
    cases there
  rw [procs_remove_of_ne differs] at there
  by_cases same : child = pid
  · rw [same, parentOf_eq_none procs_remove_self]
    split at there
    next =>
      rcases map_eq_some_iff.mp there with ⟨before, _, rfl⟩
      rw [Process.count_retain, if_pos rfl]
      rfl
    next isOther =>
      rw [listed.counted there, parentOf_some found,
        if_neg fun same => isOther (Option.some.inj same).symm]
      rfl
  · rw [parentOf_remove_of_ne same]
    split at there
    next =>
      rcases map_eq_some_iff.mp there with ⟨before, isBefore, rfl⟩
      rw [Process.count_retain, if_neg same]
      exact listed.counted isBefore child
    next => exact listed.counted there child

theorem Listed.remove (listed : self.Listed) (found : self.procs pid = some process) :
    (self.remove pid process.ppid).Listed where
  noZero := by
    rw [procs_remove_of_ne (listed.ne_zero found).symm, listed.noZero]
    split <;> rfl
  hint := listed.hint
  counted := listed.counted_remove found

theorem reapChild_cases : (self.reapChild pid = (none, self) ∧
    ∀ process, self.procs pid = some process → process.isZombie = false) ∨
      ∃ process code, self.procs pid = some process ∧ process.state = .zombie code ∧
        self.reapChild pid = (some code, self.remove pid process.ppid) := by
  cases found : self.procs pid with
  | none =>
    refine .inl ⟨?_, ?_⟩
    · simp only [reapChild, found]
    · intro process isThere
      cases isThere
  | some process =>
    cases isState : process.state with
    | zombie code =>
      refine .inr ⟨process, code, rfl, isState, ?_⟩
      simp only [reapChild, found, isState, remove]
    | _ =>
      refine .inl ⟨?_, ?_⟩
      · simp only [reapChild, found, isState]
      · intro same isSame
        cases isSame
        simp only [Process.isZombie, isState]

end Ends

/-! ## What enters the table -/

/-- Only the hint moves, or a process of a kind enters under a new number. -/
def Enters (self : Table) (Kind : Process → Prop) (after : Table) : Prop :=
  ∃ next, next ≠ 0 ∧ (after = { self with nextPid := next } ∨
    ∃ pid process, pid ≠ 0 ∧ self.procs pid = none ∧ Kind process ∧
      after = Table.add { self with nextPid := next } pid process)

/-- `spawn` only pushes the number, since it is in no list yet. -/
theorem Listed.adopt_eq (listed : self.Listed) {process : Process} (new : self.procs pid = none) :
    (self.adopt process.ppid pid).set pid (some process) = self.add pid process := by
  have pushes : self.adopt process.ppid pid = self.update process.ppid (·.push pid) := by
    rw [adopt]
    split
    next =>
      cases found : self.procs process.ppid with
      | none => rw [update_none found, update_none found]
      | some parent =>
        have notThere : parent.children.contains pid = false := by
          have counted := listed.count_new new found
          rw [List.count_eq_zero] at counted
          simpa using counted
        rw [Table.update, Table.update, found, map_some, notThere]
        rfl
    next noParent =>
      have absent : self.procs process.ppid = none := by
        by_cases isZero : process.ppid = 0
        · rw [isZero, listed.noZero]
        have isNew : process.ppid = pid := by
          by_contra differs
          exact noParent ⟨isZero, differs⟩
        rw [isNew, new]
      rw [update_none absent]
  rw [pushes, Table.add]

theorem Listed.spawn_enters (listed : self.Listed) {fuel given : Nat} {process : Process}
    {after : Table} (spawned : self.spawn fuel wanted process = some (given, after)) :
    self.Enters (· = process) after := by
  rw [Table.spawn, map_eq_some_iff] at spawned
  rcases spawned with ⟨⟨chosen, table⟩, isChosen, entered⟩
  rcases choosePid_drawn listed.hint isChosen with ⟨⟨next, nonzero, rfl⟩, new⟩
  refine ⟨next, nonzero, ?_⟩
  cases chosen with
  | none =>
    cases entered
    exact .inl rfl
  | some pid =>
    rcases new pid rfl with ⟨positive, unused⟩
    cases entered
    refine .inr ⟨given, process, positive, unused, rfl, ?_⟩
    exact (listed.with_nextPid nonzero).adopt_eq unused

theorem cloneWith_enters {ppid : Nat} {copied : Bool} {given : Option Nat}
    (hint : self.nextPid ≠ 0) (cloned : self.cloneWith fuel ppid copied = some (given, after)) :
    self.Enters (fun process =>
      ∃ parent, self.procs ppid = some parent ∧ process = child ppid parent)
      after := by
  rw [Table.cloneWith, map_eq_some_iff] at cloned
  rcases cloned with ⟨⟨chosen, table⟩, isChosen, started⟩
  rcases allocPid_drawn hint isChosen with ⟨⟨next, nonzero, rfl⟩, new⟩
  refine ⟨next, nonzero, ?_⟩
  cases chosen with
  | none =>
    cases started
    exact .inl rfl
  | some pid =>
    rcases new pid rfl with ⟨positive, unused⟩
    cases found : self.procs ppid with
    | none =>
      simp only [startChild, found] at started
      cases started
      exact .inl rfl
    | some parent =>
      cases copied with
      | false =>
        simp only [startChild, found] at started
        cases started
        exact .inl rfl
      | true =>
        simp only [startChild, found] at started
        cases started
        exact .inr ⟨pid, child ppid parent, positive, unused, ⟨parent, rfl, rfl⟩, rfl⟩

/-! ## All numbers in turn -/

/-- The numbers that `alloc_pid` goes through. -/
def InCycle (pid : Nat) : Prop := 2 ≤ pid ∧ pid ≤ maxPids

theorem InCycle.advance {pid : Nat} (inCycle : InCycle pid) : InCycle (advance pid) := by
  rcases inCycle with ⟨large, small⟩
  rw [InCycle, Table.advance]
  split <;> constructor <;> omega

variable {procs : Nat → Option Process} {start : Nat}

/-- The number that is looked at in a round. -/
def pidAt (start round : Nat) : Nat := 2 + (start - 2 + round) % 65535

theorem advance_pidAt (start round : Nat) :
    advance (pidAt start round) = pidAt start (round + 1) := by
  have limit : maxPids = 65536 := rfl
  rw [advance, pidAt, pidAt]
  split <;> omega

variable (inCycle : InCycle start)
include inCycle

theorem exists_pidAt {pid : Nat} (also : InCycle pid) :
    ∃ round < 65535, pid = pidAt start round := by
  simp only [InCycle, maxPids] at inCycle also
  exact ⟨(pid + 65535 - start) % 65535, by omega, by rw [pidAt]; omega⟩

/-- The rounds from one on, if the numbers of all earlier ones are in use. -/
theorem allocPidFrom_cycle {round : Nat} (early : round < 65535) (enough : 65535 ≤ fuel + round)
    (used : ∀ before < round, procs (pidAt start before) ≠ none) :
    ∃ chosen after, allocPidFrom procs start fuel (pidAt start round) = some (chosen, after) ∧
      (∀ pid ∈ chosen, InCycle pid ∧ procs pid = none) ∧
      (chosen = none → ∀ pid, InCycle pid → procs pid ≠ none) := by
  induction fuel generalizing round with
  | zero => omega
  | succ fuel induction =>
    rw [allocPidFrom, advance_pidAt]
    by_cases free : procs (pidAt start round) = none
    · refine ⟨_, _, if_pos free, ?_, nofun⟩
      intro pid chosen
      cases chosen
      exact ⟨by simp only [InCycle, pidAt, maxPids]; omega, free⟩
    have usedToo : ∀ before < round + 1, procs (pidAt start before) ≠ none :=
      Nat.forall_lt_succ_right.mpr ⟨used, free⟩
    rw [if_neg free]
    split
    next around =>
      refine ⟨_, _, rfl, nofun, fun _ pid also => ?_⟩
      rcases exists_pidAt inCycle also with ⟨other, inside, rfl⟩
      simp only [InCycle, pidAt, maxPids] at inCycle around
      exact usedToo other (by omega)
    next goesOn =>
      refine induction ?_ (by omega) usedToo
      simp only [InCycle, pidAt, maxPids] at inCycle goesOn
      omega

omit inCycle

theorem allocPid_exhaustive {table : Table} {turns : Nat}
    (reachable : table.nextPid = advance^[turns] init.nextPid) :
    ∃ chosen after, table.allocPid maxPids = some (chosen, after) ∧
      (∀ pid ∈ chosen, InCycle pid ∧ table.procs pid = none) ∧
      (chosen = none ↔ ∀ pid, InCycle pid → table.procs pid ≠ none) := by
  have inCycle : InCycle table.nextPid := by
    rw [reachable]
    exact Function.Iterate.rec InCycle ⟨le_rfl, by decide⟩ (fun _ => InCycle.advance) turns
  have first : pidAt table.nextPid 0 = table.nextPid := by
    simp only [InCycle, maxPids] at inCycle
    rw [pidAt]
    omega
  rcases @allocPidFrom_cycle maxPids table.procs table.nextPid inCycle 0 (by decide) (by decide)
    nofun with ⟨chosen, after, ended, free, full⟩
  rw [first] at ended
  refine ⟨chosen, _, by rw [allocPid, ended]; rfl, free, full, fun allUsed => ?_⟩
  cases chosen with
  | none => rfl
  | some pid => exact absurd (free pid rfl).2 (allUsed pid (free pid rfl).1)

/-- Two numbers from the hint on are in use. -/
def twoUsed : Table :=
  (init.set 65536 (some ⟨0, 1, .running, []⟩)).set 2 (some ⟨0, 1, .running, []⟩)

/-- The search comes around the end of the numbers. -/
theorem allocPid_exhaustive_around : ∃ after,
    allocPid maxPids { twoUsed with nextPid := 65536 } = some (some 3, after) ∧
      InCycle 3 ∧ twoUsed.procs 3 = none := by
  have isHint : 65536 = advance^[65534] 2 := by
    have turns (turn : Nat) (early : turn ≤ 65534) : advance^[turn] 2 = 2 + turn := by
      induction turn with
      | zero => rfl
      | succ turn induction =>
        rw [iterate_succ_apply', induction (by omega), advance, maxPids, if_neg (by omega)]
        omega
    exact (turns 65534 (Nat.le_refl _)).symm
  rcases @allocPid_exhaustive { twoUsed with nextPid := 65536 } 65534 isHint with
    ⟨chosen, after, ended, free, _⟩
  have three : allocPid maxPids { twoUsed with nextPid := 65536 } = some (some 3, _) := rfl
  rw [ended] at three
  cases three
  exact ⟨_, ended, free 3 rfl⟩

end Table

end Qunix.Family
