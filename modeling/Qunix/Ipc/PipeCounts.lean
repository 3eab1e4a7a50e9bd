import Mathlib.Data.List.Basic
import Qunix.Foundation.Reachability

/-! # Readers and writers of pipes

The counters of a pipe are kept by hand: `dup`, `fork` and `close` adjust them, while `clone`,
`execve` and the end of a process make and drop descriptors without counting all of them.
-/

namespace Qunix.Ipc

open Foundation List Function

inductive PipeEnd
  | read (pipe : Nat)
  | write (pipe : Nat)
deriving DecidableEq

inductive Owner
  | process (pid : Nat)
  | group (number : Nat)
deriving DecidableEq

structure Entry where
  owner : Owner
  fd : Nat
  target : PipeEnd
  cloexec : Bool
deriving DecidableEq

/-- The entries of the live tables, the `readers` and `writers` of each pipe with the flags that
`try_read` and `try_write` look at, and the number of processes that use a table. -/
structure Pipes where
  entries : List Entry
  counts : PipeEnd → Nat
  closed : PipeEnd → Bool
  users : Owner → Nat

variable (entries : List Entry)

def count (target : PipeEnd) : Nat := entries.countP (·.target == target)

def table (owner : Owner) : List Entry := entries.filter (·.owner == owner)

namespace Pipes

variable (self : Pipes)

/-- `dup_read` and `dup_write` for all the entries of a list. -/
def acquire (entries : List Entry) : Pipes :=
  { self with counts := fun target => self.counts target + count entries target }

/-- `close_read` and `close_write`, once for each end that a list has. -/
def release (entries : List Entry) : Pipes :=
  { self with
    counts := fun target =>
      if count entries target = 0 then self.counts target else self.counts target - 1
    closed := fun target =>
      if count entries target = 0 then self.closed target
      else self.closed target || self.counts target - 1 == 0 }

def copyTable (owner new : Owner) : Pipes :=
  { self with
    entries := (table self.entries owner).map ({ · with owner := new }) ++ self.entries
    users := update self.users new 1 }

/-- A process stops using a table, which goes away with the last one. -/
def leave (owner : Owner) : Pipes :=
  { self with
    entries :=
      if self.users owner = 1 then self.entries.filter (! ·.owner == owner) else self.entries
    users := update self.users owner (self.users owner - 1) }

inductive Call
  | pipe
  | dup
  | close
  | fork
  | cloneGroup (parent : Nat)
  | cloneThread
  | execve (owner : Owner)
  | exit (owner : Owner)
  | kill (owner : Owner)

/-- `dup2` is a `close` of what is at the new number and a `dup`. A thread of a process without a
group gets a new group with a copy of the table, and the process keeps its own. -/
inductive Runs (self : Pipes) : Call → Pipes → Prop
  | pipe {owner : Owner} {readFd writeFd pipe : Nat} {cloexec : Bool} :
      count self.entries (.read pipe) = 0 → count self.entries (.write pipe) = 0 →
      Runs self .pipe { self with
        entries := ⟨owner, readFd, .read pipe, cloexec⟩ :: ⟨owner, writeFd, .write pipe, cloexec⟩ ::
          self.entries
        counts := update (update self.counts (.read pipe) 1) (.write pipe) 1
        closed := update (update self.closed (.read pipe) false)
          (.write pipe) false }
  | dup {entry : Entry} {new : Nat} {cloexec : Bool} : entry ∈ self.entries →
      (∀ other ∈ table self.entries entry.owner, other.fd ≠ new) →
      Runs self .dup { self.acquire [entry] with
        entries := { entry with fd := new, cloexec := entry.cloexec || cloexec } :: self.entries }
  | close {entry : Entry} : entry ∈ self.entries →
      Runs self .close { self.release [entry] with entries := self.entries.erase entry }
  | fork {owner : Owner} {child : Nat} : table self.entries (.process child) = [] →
      Runs self .fork
        ((self.acquire (table self.entries owner)).copyTable owner (.process child))
  | cloneGroup {parent group : Nat} : table self.entries (.group group) = [] →
      Runs self (.cloneGroup parent) (self.copyTable (.process parent) (.group group))
  | cloneThread {group : Nat} : Runs self .cloneThread { self with
      users := update self.users (.group group) (self.users (.group group) + 1) }
  | execve {owner : Owner} : Runs self (.execve owner) { self with
      entries := self.entries.filter fun entry => !(entry.owner == owner && entry.cloexec) }
  | exit {owner : Owner} :
      Runs self (.exit owner) ((self.release (table self.entries owner)).leave owner)
  | kill {owner : Owner} : Runs self (.kill owner) (self.leave owner)

/-- The counters are the numbers of entries, and an end is closed when it has none. -/
def Counted : Prop :=
  ∀ target, self.counts target = count self.entries target ∧
    (self.closed target = true ↔ count self.entries target = 0)

/-- What a call must find for the counters to stay right. -/
def Fair : Call → Prop
  | .cloneGroup parent => table self.entries (.process parent) = []
  | .execve owner => ∀ entry ∈ table self.entries owner, entry.cloexec = false
  | .exit owner =>
    if self.users owner = 1 then ∀ target, count (table self.entries owner) target ≤ 1
      else table self.entries owner = []
  | .kill owner => self.users owner = 1 → table self.entries owner = []
  | _ => True

def calls (Allowed : Pipes → Call → Prop) : TransitionSystem Pipes Call where
  Initial self := self.Counted ∧ self.entries = []
  Step self call next := Runs self call next ∧ Allowed self call

end Pipes

/-! ## Counting -/

theorem count_cons (entry : Entry) (entries : List Entry) (target : PipeEnd) :
    count (entry :: entries) target = count [entry] target + count entries target := by
  simp [count, countP_cons, Nat.add_comm]

theorem count_append (first second : List Entry) (target : PipeEnd) :
    count (first ++ second) target = count first target + count second target :=
  countP_append

theorem count_erase {entry : Entry} {entries : List Entry} (member : entry ∈ entries)
    (target : PipeEnd) :
    count entries target = count [entry] target + count (entries.erase entry) target := by
  rw [← count_cons]
  exact (perm_cons_erase member).countP_eq _

theorem count_split (keep : Entry → Bool) (target : PipeEnd) :
    count entries target =
      count (entries.filter keep) target + count (entries.filter (! keep ·)) target := by
  rw [← count_append]
  exact (filter_append_perm keep entries).symm.countP_eq _

theorem count_copy (owner : Owner) (target : PipeEnd) :
    count (entries.map ({ · with owner := owner })) target = count entries target := by
  simp [count, countP_map, comp_def]

theorem count_eq_zero_iff :
    (∀ target, count entries target = 0) ↔ entries = [] := by
  constructor
  · intro none
    apply List.eq_nil_iff_forall_not_mem.mpr
    intro entry member
    have absent := List.countP_eq_zero.mp (none entry.target) entry member
    simp at absent
  · intro empty target
    rw [empty]
    rfl

namespace Pipes

variable {self : Pipes}

/-! ## Flags -/

/-- The flags follow the counters, whatever these count. -/
def Flagged (self : Pipes) : Prop := ∀ target, self.closed target = true ↔ self.counts target = 0

theorem Counted.flagged (counted : self.Counted) : self.Flagged := by
  intro target
  rw [(counted target).1]
  exact (counted target).2

/-- Steps that touch only entries and users leave the flags right, and the counters may miss. -/
theorem Flagged.counted_iff (flagged : self.Flagged) (entries : List Entry) (users : Owner → Nat) :
    Counted { self with entries := entries, users := users } ↔
      ∀ target, self.counts target = count entries target := by
  constructor
  · intro counted target
    exact (counted target).1
  · intro counts target
    have flag := flagged target
    rw [counts target] at flag
    exact ⟨counts target, flag⟩

theorem Flagged.acquire (flagged : self.Flagged) {entries : List Entry}
    (within : ∀ target, count entries target ≤ self.counts target) :
    (self.acquire entries).Flagged := by
  intro target
  have held := within target
  have flag := flagged target
  simp only [Pipes.acquire, flag]
  omega

theorem Flagged.release (flagged : self.Flagged) (entries : List Entry) :
    (self.release entries).Flagged := by
  intro target
  have flag := flagged target
  simp only [Pipes.release]
  split
  · exact flag
  · simp only [Bool.or_eq_true, flag, beq_iff_eq]
    omega

/-! ## Steps -/

theorem Runs.counted_iff (counted : self.Counted) {call : Call} {next : Pipes}
    (runs : Runs self call next) : next.Counted ↔ self.Fair call := by
  have flagged := counted.flagged
  have counts (target : PipeEnd) := (counted target).1
  have part (owner : Owner) (target : PipeEnd) :
      count (table self.entries owner) target ≤ self.counts target := by
    rw [counts target]
    exact filter_sublist.countP_le
  have one {entry : Entry} (member : entry ∈ self.entries) (target : PipeEnd) :
      count [entry] target ≤ self.counts target := by
    rw [counts target]
    exact (List.singleton_sublist.mpr member).countP_le
  cases runs with
  | @pipe owner readFd writeFd pipe cloexec noReader noWriter =>
    simp only [Fair, iff_true]
    intro target
    have law := counted target
    by_cases read : target = .read pipe
    · subst target
      simp_all [count]
    · by_cases write : target = .write pipe
      · subst target
        simp_all [count]
      · simpa [update_apply, count, read, write, Ne.symm read, Ne.symm write] using law
  | dup member _ =>
    simp only [Fair, iff_true]
    apply ((flagged.acquire (one member)).counted_iff _ _).mpr
    intro target
    rw [count_cons, ← counts target, Nat.add_comm]
    rfl
  | @close entry member =>
    simp only [Fair, iff_true]
    apply ((flagged.release _).counted_iff _ _).mpr
    intro target
    have left := count_erase member target
    have single : count [entry] target ≤ 1 := countP_le_length
    simp only [release, counts target]
    split <;> omega
  | @fork owner child _ =>
    simp only [Fair, iff_true]
    apply ((flagged.acquire (part owner)).counted_iff _ _).mpr
    intro target
    rw [count_append, count_copy, Nat.add_comm]
    exact congrArg (· + _) (counts target)
  | @cloneGroup parent group _ =>
    apply (flagged.counted_iff _ _).trans
    simp only [count_append, count_copy, counts, Fair, ← count_eq_zero_iff]
    simp
  | cloneThread =>
    simp only [Fair, iff_true]
    exact (flagged.counted_iff _ _).mpr counts
  | @execve owner =>
    have parts := count_split self.entries fun entry => !(entry.owner == owner && entry.cloexec)
    apply (flagged.counted_iff _ _).trans
    simp only [counts, parts, Nat.add_eq_left, count_eq_zero_iff]
    simp [Fair, table, filter_eq_nil_iff]
  | @exit owner =>
    apply ((flagged.release _).counted_iff _ _).trans
    by_cases last : self.users owner = 1
    · simp only [Fair, release, last, if_true]
      apply forall_congr'
      intro target
      have rest : count self.entries target = count (table self.entries owner) target + _ :=
        count_split self.entries (·.owner == owner) target
      rw [counts target]
      split <;> omega
    · simp only [Fair, release, last, if_false, ← count_eq_zero_iff]
      apply forall_congr'
      intro target
      have held := part owner target
      rw [counts target] at held ⊢
      split <;> omega
  | @kill owner =>
    apply (flagged.counted_iff _ _).trans
    by_cases last : self.users owner = 1
    · simp only [Fair, last, if_true, forall_const, ← count_eq_zero_iff]
      apply forall_congr'
      intro target
      have rest : count self.entries target = count (table self.entries owner) target + _ :=
        count_split self.entries (·.owner == owner) target
      rw [counts target]
      omega
    · simpa [Fair, last] using counts

def initial : Pipes where
  entries := []
  counts _ := 0
  closed _ := true
  users _ := 1

/-- The counters of every pipe are the numbers of entries for its ends, and an end is closed
exactly when it has none, in every state of a run in which a thread is only cloned from a process
without a group when its table has no pipe, `execve` finds no pipe to close, a process ends with
each end at most once in a table of its own, and a signal only ends one without pipes. No other
call breaks it, and each call that does not find its condition does. -/
theorem pipes_counted {self : Pipes} (reachable : (calls Fair).Reachable self) :
    self.Counted ∧ ∀ call next, Runs self call next → (next.Counted ↔ self.Fair call) := by
  have counted : self.Counted := by
    apply reachable.invariant
    · intro state starts
      exact starts.1
    · intro state call next counted taken
      exact (taken.1.counted_iff counted).mpr taken.2
  exact ⟨counted, fun _ _ runs => runs.counted_iff counted⟩

theorem initial_reachable (Allowed : Pipes → Call → Prop) : (calls Allowed).Reachable initial :=
  .initial ⟨fun _ => ⟨rfl, by simp [initial, count]⟩, rfl⟩

/-- A process with a pipe forks, and it and its child close the ends that they do not use. -/
theorem pipes_counted_forked : ∃ self, (calls Fair).Reachable self ∧ self.entries =
    [⟨.process 2, 4, .write 0, false⟩, ⟨.process 1, 3, .read 0, false⟩] ∧ self.Counted := by
  have made := (initial_reachable Fair).step
    ⟨@Runs.pipe _ (.process 1) 3 4 0 false rfl rfl, trivial⟩
  have forked := made.step ⟨@Runs.fork _ (.process 1) 2 (by decide), trivial⟩
  have reader := forked.step
    ⟨@Runs.close _ ⟨.process 1, 4, .write 0, false⟩ (by decide), trivial⟩
  have writer := reader.step
    ⟨@Runs.close _ ⟨.process 2, 3, .read 0, false⟩ (by decide), trivial⟩
  exact ⟨_, writer, by decide, (pipes_counted writer).1⟩

/-- A process with a pipe forks, a signal ends the child and the parent closes its write end. No
entry for the write end is left, but the end is not closed, so the parent's `read` never ends. -/
theorem pipes_miscounted : ∃ self, (calls fun _ _ => True).Reachable self ∧
    count self.entries (.read 0) = 1 ∧ count self.entries (.write 0) = 0 ∧
      self.counts (.write 0) = 1 ∧ self.closed (.write 0) = false := by
  have made := (initial_reachable fun _ _ => True).step
    ⟨@Runs.pipe _ (.process 1) 3 4 0 false rfl rfl, trivial⟩
  have forked := made.step ⟨@Runs.fork _ (.process 1) 2 (by decide), trivial⟩
  have killed := forked.step ⟨@Runs.kill _ (.process 2), trivial⟩
  have closed := killed.step
    ⟨@Runs.close _ ⟨.process 1, 4, .write 0, false⟩ (by decide), trivial⟩
  exact ⟨_, closed, by decide⟩

end Pipes

end Qunix.Ipc
