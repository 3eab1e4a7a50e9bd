import Qunix.Foundation.Reachability
import Qunix.Process.Family

/-! # The tree of processes over whole runs

A process that ends keeps its children: nobody gives them to another parent. The tree stays right
as long as processes start below living parents and end without children.
-/

namespace Qunix.Family

open Foundation

namespace Table

variable {self : Table} {pid other : Nat}

def Alive (self : Table) (pid : Nat) : Prop :=
  ∃ process, self.procs pid = some process ∧ process.isZombie = false

/-- The lists are right and every parent is alive. -/
structure Linked (table : Table) : Prop extends Listed table where
  parented : ∀ {pid : Nat} {process : Process}, table.procs pid = some process →
    process.ppid = 0 ∨ table.Alive process.ppid

variable {process : Process}

variable {after : Table}

section

variable (linked : self.Linked)
include linked

theorem Linked.no_children (positive : pid ≠ 0) (gone : ¬ self.Alive pid) :
    self.parentOf other ≠ some pid := by
  intro isParent
  rcases parentOf_eq_some.mp isParent with ⟨process, found, isPid⟩
  rcases linked.parented found with zero | alive
  · exact positive (isPid.symm.trans zero)
  · rw [isPid] at alive
    exact gone alive

theorem Linked.parented_of (found : after.procs pid = some process)
    (kept : after.parentOf pid = self.parentOf pid) :
    process.ppid = 0 ∨ self.Alive process.ppid := by
  rw [parentOf_some found] at kept
  rcases parentOf_eq_some.mp kept.symm with ⟨old, isOld, samePpid⟩
  rw [← samePpid]
  exact linked.parented isOld

theorem Linked.with_nextPid {next : Nat} (positive : next ≠ 0) :
    Linked { self with nextPid := next } where
  toListed := linked.toListed.with_nextPid positive
  parented := linked.parented

omit linked in
theorem Alive.add {alive : Nat} (isAlive : self.Alive alive) (new : self.procs pid = none) :
    (self.add pid process).Alive alive := by
  rcases isAlive with ⟨found, isFound, running⟩
  have differs : alive ≠ pid := by
    intro same
    rw [same, new] at isFound
    cases isFound
  rw [Table.Alive, procs_add_of_ne differs, isFound]
  split
  · exact ⟨found.push pid, rfl, running⟩
  · exact ⟨found, rfl, running⟩

theorem Linked.joins (positive : pid ≠ 0) (new : self.procs pid = none)
    (childless : process.children = []) (parent : process.ppid = 0 ∨ self.Alive process.ppid) :
    self.Joins pid process where
  positive := positive
  new := new
  childless := childless
  unclaimed := by
    intro other
    have absent : ¬ self.Alive pid := by
      rintro ⟨process, isThere, _⟩
      rw [new] at isThere
      cases isThere
    by_cases same : other = pid
    · rw [same, parentOf_add_self]
      intro isParent
      rcases parent with zero | alive
      · exact positive ((Option.some.inj isParent).symm.trans zero)
      · exact absent (Option.some.inj isParent ▸ alive)
    · rw [parentOf_add_of_ne same]
      exact linked.no_children positive absent

theorem Linked.add (joins : self.Joins pid process)
    (parent : process.ppid = 0 ∨ self.Alive process.ppid) : (self.add pid process).Linked where
  toListed := linked.toListed.add joins
  parented := by
    intro other found isFound
    by_cases isNew : other = pid
    · rw [isNew, Table.add, procs_set_self] at isFound
      cases isFound
      exact parent.imp_right (·.add joins.new)
    · exact (linked.parented_of isFound (parentOf_add_of_ne isNew)).imp_right (·.add joins.new)

theorem Linked.enters {Kind : Process → Prop}
    (childless : ∀ process, Kind process → process.children = [])
    (parent : ∀ process, Kind process → process.ppid = 0 ∨ self.Alive process.ppid)
    (enters : self.Enters Kind after) : after.Linked := by
  rcases enters with ⟨next, nonzero, isAfter⟩
  have drawn := linked.with_nextPid nonzero
  rcases isAfter with rfl | ⟨pid, process, positive, new, kind, rfl⟩
  · exact drawn
  · have joins : Joins { self with nextPid := next } pid process :=
      drawn.joins positive new (childless process kind) (parent process kind)
    exact drawn.add joins (parent process kind)

theorem Linked.terminate (code : Int)
    (childless : ∀ process, self.procs pid = some process → process.children = []) :
    (self.terminate pid code).Linked where
  toListed := linked.toListed.terminate code
  parented := by
    intro other process found
    refine (linked.parented_of found (parentOf_terminate code)).imp_right ?_
    rintro ⟨parent, isParent, running⟩
    have differs : process.ppid ≠ pid := by
      intro same
      rw [same] at isParent
      have member := (linked.mem_children isParent).mpr
        ((parentOf_terminate code).symm.trans (same ▸ parentOf_some found))
      rw [childless parent isParent] at member
      cases member
    exact ⟨parent, (procs_update_of_ne differs).trans isParent, running⟩

omit linked in
theorem not_alive_of_zombie (found : self.procs pid = some process)
    (zombie : process.isZombie = true) : ¬ self.Alive pid := by
  rintro ⟨other, isOther, running⟩
  rw [found] at isOther
  cases isOther
  rw [zombie] at running
  cases running

theorem Linked.remove (found : self.procs pid = some process)
    (zombie : process.isZombie = true) : (self.remove pid process.ppid).Linked where
  toListed := linked.toListed.remove found
  parented := by
    intro other kept there
    have differs : other ≠ pid := by
      intro same
      rw [same, procs_remove_self] at there
      cases there
    refine (linked.parented_of there (parentOf_remove_of_ne differs)).imp_right ?_
    rintro ⟨parent, isThere, running⟩
    have notRemoved : kept.ppid ≠ pid := by
      intro same
      exact not_alive_of_zombie found zombie (same ▸ ⟨parent, isThere, running⟩)
    rw [Alive, procs_remove_of_ne notRemoved, isThere]
    split
    · exact ⟨parent.retain pid, rfl, running⟩
    · exact ⟨parent, rfl, running⟩

theorem Linked.reapChild : (self.reapChild pid).2.Linked := by
  rcases @reapChild_cases self pid with ⟨same, _⟩ | ⟨process, code, found, isZombie, isRemoved⟩
  · rw [same]
    exact linked
  · rw [isRemoved]
    apply linked.remove found
    rw [Process.isZombie, isZombie]

end

/-! ## Runs -/

inductive Call
  | schedule (pid : Nat)
  | spawn (wanted : Nat) (process : Process)
  | fork (copied : Bool)
  | clone (parentPid : Nat)
  | exit (code : Int)
  | kill (pid : Nat) (code : Int)
  | reap (pid : Nat)

inductive Runs : Table → Call → Table → Prop
  | schedule {self : Table} {pid : Nat} : Runs self (.schedule pid) { self with current := pid }
  | spawn {self after : Table} {fuel wanted pid : Nat} {process : Process} :
      self.spawn fuel wanted process = some (pid, after) → Runs self (.spawn wanted process) after
  | fork {self after : Table} {fuel : Nat} {copied : Bool} {pid : Option Nat} :
      self.forkCurrent fuel copied = some (pid, after) → Runs self (.fork copied) after
  | clone {self after : Table} {fuel parentPid : Nat} {pid : Option Nat} :
      self.cloneThread fuel parentPid = some (pid, after) → Runs self (.clone parentPid) after
  | exit {self : Table} {code : Int} : Runs self (.exit code) (self.exitCurrent code)
  | kill {self : Table} {pid : Nat} {code : Int} :
      Runs self (.kill pid code) (self.terminate pid code)
  | reap {self : Table} {pid : Nat} : Runs self (.reap pid) (self.reapChild pid).2

def Childless (self : Table) (pid : Nat) : Prop :=
  ∀ process, self.procs pid = some process → process.children = []

def NotZombie (self : Table) (pid : Nat) : Prop :=
  ∀ process, self.procs pid = some process → process.isZombie = false

/-- Processes start below a living parent and end without children. -/
def Careful (self : Table) : Call → Prop
  | .schedule _ | .reap _ => True
  | .spawn _ process =>
    process.children = [] ∧ (process.ppid = 0 ∨ self.Alive process.ppid)
  | .fork _ => self.NotZombie self.current
  | .clone parentPid => self.NotZombie parentPid
  | .exit _ => self.Childless self.current
  | .kill pid _ => self.Childless pid

def calls (Allowed : Table → Call → Prop) : TransitionSystem Table Call where
  Initial := (· = init)
  Step self call after := Runs self call after ∧ Allowed self call

theorem init_eq : init = (⟨fun _ => none, 2, 1⟩ : Table).add 1 ⟨0, 1, .runnable, []⟩ := by
  rw [add, update_none rfl]
  rfl

theorem linked_init : init.Linked := by
  have empty : (⟨fun _ => none, 2, 1⟩ : Table).Linked := by
    refine ⟨⟨rfl, by decide, ?_⟩, ?_⟩
    · intro pid parent found
      cases found
    · intro pid process found
      cases found
  rw [init_eq]
  exact empty.add (empty.joins (by decide) rfl rfl (.inl rfl)) (.inl rfl)

theorem Linked.enters_child (linked : self.Linked) {ppid : Nat} (running : self.NotZombie ppid)
    (enters : self.Enters
      (fun process => ∃ parent, self.procs ppid = some parent ∧ process = child ppid parent)
        after) :
    after.Linked := by
  apply linked.enters _ _ enters
  · rintro process ⟨parent, _, rfl⟩
    rfl
  · rintro process ⟨parent, found, rfl⟩
    exact .inr ⟨parent, found, running parent found⟩

theorem Linked.step {call : Call} {after : Table} (linked : self.Linked)
    (step : (calls Careful).Step self call after) : after.Linked := by
  rcases step with ⟨runs, careful⟩
  cases runs with
  | schedule => exact ⟨⟨linked.noZero, linked.hint, linked.counted⟩, linked.parented⟩
  | spawn spawned =>
    apply linked.enters _ _ (linked.spawn_enters spawned)
    · rintro process rfl
      exact careful.1
    · rintro process rfl
      exact careful.2
  | fork forked | clone forked =>
    exact linked.enters_child careful (cloneWith_enters linked.hint forked)
  | exit | kill => exact linked.terminate _ careful
  | reap => exact linked.reapChild

theorem linked_of_reachable (reachable : (calls Careful).Reachable self) : self.Linked := by
  apply reachable.invariant
  · intro state initial
    rw [initial]
    exact linked_init
  · intro state call next linked step
    exact Linked.step linked step

/-! ## The tree -/

/-- Both copies of the tree agree, and a process whose parent has gone is a child of `initPid`. -/
structure FamilyLaw (initPid : Nat) (table : Table) : Prop where
  listed : ∀ pid parent, table.procs pid = some parent → ∀ child,
    parent.children.count child = 1 ↔
      ∃ process, table.procs child = some process ∧ process.ppid = pid
  adopted : ∀ pid process, table.procs pid = some process → process.ppid ≠ 0 →
    ¬ table.Alive process.ppid → process.ppid = initPid

theorem listed_of_counted
    (counted : ∀ {pid : Nat} {parent : Process}, self.procs pid = some parent → ∀ child,
      parent.children.count child = if self.parentOf child = some pid then 1 else 0)
    {parent : Process} (found : self.procs pid = some parent) (child : Nat) :
    parent.children.count child = 1 ↔
      ∃ process, self.procs child = some process ∧ process.ppid = pid := by
  rw [counted found, ← parentOf_eq_some]
  split
  next isParent => exact iff_of_true rfl isParent
  next noParent => exact iff_of_false Nat.zero_ne_one noParent

theorem Linked.familyLaw (linked : self.Linked) (initPid : Nat) : FamilyLaw initPid self := by
  constructor
  · intro pid parent found child
    exact listed_of_counted linked.counted found child
  · intro pid process found hasParent gone
    rcases linked.parented found with zero | alive
    · exact absurd zero hasParent
    · exact absurd alive gone

theorem not_alive_terminate (code : Int) : ¬ (self.terminate pid code).Alive pid := by
  rintro ⟨process, found, running⟩
  rw [terminate, procs_update_self] at found
  rcases Option.map_eq_some_iff.mp found with ⟨before, _, rfl⟩
  cases running

theorem Linked.exists_child (linked : self.Linked) (hasChild : ¬ self.Childless pid) :
    pid ≠ 0 ∧ ∃ child, self.parentOf child = some pid := by
  rw [Childless, not_forall] at hasChild
  rcases hasChild with ⟨parent, hasChild⟩
  rw [Classical.not_imp] at hasChild
  rcases hasChild with ⟨found, nonempty⟩
  rcases List.exists_mem_of_ne_nil _ nonempty with ⟨child, member⟩
  exact ⟨linked.ne_zero found, child, (linked.mem_children found).mp member⟩

/-- The end of a process other than `initPid` breaks the tree if it has children. -/
theorem Linked.terminate_iff (linked : self.Linked) (initPid : Nat) (code : Int) :
    FamilyLaw initPid (self.terminate pid code) ↔ self.Childless pid ∨ pid = initPid := by
  constructor
  · intro law
    by_contra neither
    rw [not_or] at neither
    rcases linked.exists_child neither.1 with ⟨positive, child, isParent⟩
    rw [← parentOf_terminate code] at isParent
    rcases parentOf_eq_some.mp isParent with ⟨process, found, isPid⟩
    apply neither.2
    rw [← isPid]
    apply law.adopted child process found
    · rw [isPid]
      exact positive
    · rw [isPid]
      exact not_alive_terminate code
  · intro allowed
    by_cases childless : self.Childless pid
    · exact (linked.terminate code childless).familyLaw initPid
    have isInit := allowed.resolve_left childless
    constructor
    · intro other parent found child
      exact listed_of_counted (linked.toListed.terminate code).counted found child
    · intro other process found hasParent gone
      rcases linked.parented_of found (parentOf_terminate code) with zero |
        ⟨parent, isParent, running⟩
      · exact absurd zero hasParent
      -- A parent that was alive before can only be the process that ended.
      by_contra differs
      apply gone
      have kept : process.ppid ≠ pid := fun same => differs (same.trans isInit)
      exact ⟨parent, (procs_update_of_ne kept).trans isParent, running⟩

/-- The tree is right in every run in which processes start below living parents and end without
children, and the end of a process with children breaks it. -/
theorem familyLaw_of_reachable (initPid : Nat) (table : Table)
    (reachable : (calls Careful).Reachable table) :
    FamilyLaw initPid table ∧ ∀ pid code,
      (FamilyLaw initPid (table.terminate pid code) ↔ table.Childless pid ∨ pid = initPid) := by
  have linked := linked_of_reachable reachable
  exact ⟨linked.familyLaw initPid, fun _ code => linked.terminate_iff initPid code⟩

/-- Process 2 has two children, one of which has ended and been reaped. -/
theorem familyLaw_of_reachable_reaped : ∃ table, (calls Careful).Reachable table ∧
    table.procs 2 = some ⟨0, 1, .runnable, [3]⟩ ∧ table.procs 3 = some ⟨2, 1, .runnable, []⟩ ∧
      table.procs 4 = none ∧ FamilyLaw 1 table ∧ ¬ FamilyLaw 1 (table.terminate 2 0) := by
  have start : (calls Careful).Reachable init := .initial rfl
  have spawned := start.step
    ⟨.spawn (rfl : init.spawn 1 1 ⟨0, 1, .runnable, []⟩ = some (2, _)), rfl, .inl rfl⟩
  have second := spawned.step ⟨@Runs.schedule _ 2, trivial⟩
  have forked := second.step ⟨.fork (rfl : forkCurrent 1 _ true = some (some 3, _)),
    fun process found => by cases found; rfl⟩
  have again := forked.step ⟨.fork (rfl : forkCurrent 1 _ true = some (some 4, _)),
    fun process found => by cases found; rfl⟩
  have ended := again.step ⟨@Runs.kill _ 4 0, fun process found => by cases found; rfl⟩
  have reaped := ended.step ⟨@Runs.reap _ 4, trivial⟩
  have law := familyLaw_of_reachable 1 _ reaped
  refine ⟨_, reaped, rfl, rfl, rfl, law.1, fun stays => ?_⟩
  rcases (law.2 2 0).mp stays with childless | isInit
  · cases childless _ rfl
  · cases isInit

theorem reachable_orphan : ∃ table, (calls fun _ _ => True).Reachable table ∧
    table.procs 2 = some ⟨0, 1, .runnable, []⟩ ∧ table.procs 3 = none ∧
      table.procs 4 = some ⟨3, 1, .runnable, []⟩ := by
  have start : (calls fun _ _ => True).Reachable init := .initial rfl
  have spawned := start.step
    ⟨.spawn (rfl : init.spawn 1 1 ⟨0, 1, .runnable, []⟩ = some (2, _)), trivial⟩
  have second := spawned.step ⟨@Runs.schedule _ 2, trivial⟩
  have forked := second.step ⟨.fork (rfl : forkCurrent 1 _ true = some (some 3, _)), trivial⟩
  have third := forked.step ⟨@Runs.schedule _ 3, trivial⟩
  have again := third.step ⟨.fork (rfl : forkCurrent 1 _ true = some (some 4, _)), trivial⟩
  have ended := again.step ⟨@Runs.exit _ 0, trivial⟩
  exact ⟨_, ended.step ⟨@Runs.reap _ 3, trivial⟩, rfl, rfl, rfl⟩

/-- The orphan is no child of the first user process, and a new process 3 does not list it. -/
theorem familyLaw_broken :
    (∃ table, (calls fun _ _ => True).Reachable table ∧ ¬ FamilyLaw 2 table) ∧
      ∃ table, (calls fun _ _ => True).Reachable table ∧ ∀ initPid, ¬ FamilyLaw initPid table := by
  rcases reachable_orphan with ⟨table, reachable, two, three, four⟩
  constructor
  · refine ⟨table, reachable, ?_⟩
    intro law
    have isChild := law.adopted 4 _ four (by decide) ?_
    · cases isChild
    · rintro ⟨process, found, _⟩
      rw [three] at found
      cases found
  · have chosen : table.choosePid 0 3 = some (some 3, table) := if_pos ⟨by decide, three⟩
    have spawned : table.spawn 0 3 ⟨2, 1, .runnable, []⟩ =
        some (3, (table.adopt 2 3).set 3 (some ⟨2, 1, .runnable, []⟩)) := by
      rw [spawn, chosen]
      rfl
    refine ⟨_, reachable.step ⟨.spawn spawned, trivial⟩, ?_⟩
    intro initPid law
    have orphan : ((table.adopt 2 3).set 3 (some ⟨2, 1, .runnable, []⟩)).procs 4 =
        some ⟨3, 1, .runnable, []⟩ := by
      rw [procs_set_of_ne (by decide), adopt, if_pos (by decide), procs_update_of_ne (by decide)]
      exact four
    have listed := (law.listed 3 _ procs_set_self 4).mpr ⟨_, orphan, rfl⟩
    cases listed

end Table

end Qunix.Family
