import Qunix.Process.FamilyTree
import Qunix.Process.Wait

/-! # Calls of `wait4` side by side

Every helper of `wait4` takes the lock of the table once, so between two of them other processes
may change the table. A call reaps only children of its caller, whatever the others do, as long as
all calls select children of their callers and no number is given out again while it is still
somebody's parent.
-/

namespace Qunix.Family

open Foundation Function Option

structure WaitCall where
  pid : Int
  nohang : Bool
deriving DecidableEq

inductive Phase
  | idle
  | looking (call : WaitCall)
  | reaping (call : WaitCall) (child : Nat)
  | missed (call : WaitCall)
  | asleep (call : WaitCall)
  | returned (call : WaitCall) (result : Int)
deriving DecidableEq

structure System where
  table : Table
  typed : ∀ pid, Table.pidLimit ≤ pid → table.procs pid = none
  phase : Nat → Phase

inductive Label
  | start (me : Nat) (call : WaitCall)
  | look (me : Nat)
  | reap (me : Nat)
  | decide (me : Nat)
  | wake (me : Nat)
  | kernel (call : Table.Call)
  | regroup (pid pgid : Nat)

namespace System

open Table

def echild : Int := -10

def afterLook (table : Table) (me : Nat) (call : WaitCall) : Phase :=
  match table.findZombie me call.pid with
  | some child => .reaping call child
  | none => .missed call

def afterDecide (table : Table) (me : Nat) (call : WaitCall) : Phase :=
  if call.nohang then .returned call 0
  else if table.hasRelevantChildren me call.pid then .asleep call
  else .returned call echild

/-- What `block_current` does before it gives up the processor. -/
def sleep (process : Process) : Process := { process with state := .sleeping }

def resume (process : Process) : Process :=
  if process.state = .sleeping ∨ process.state = .runnable then { process with state := .running }
  else process

def ended (table : Table) : Table.Call → Option Nat
  | .exit _ => some table.current
  | .kill pid _ => some pid
  | _ => none

def enter (self : System) (me : Nat) (phase : Phase) : Nat → Phase :=
  Function.update self.phase me phase

/-- A process that is ended leaves its call. -/
def leave (self : System) : Option Nat → Nat → Phase
  | some pid => self.enter pid .idle
  | none => self.phase

/-- The steps of a call are taken by a process that is alive, and all reaping is done by `wait4`. -/
def Runs (self : System) (label : Label) (next : System) : Prop :=
  match label with
  | .start me call =>
    self.table.Alive me ∧
      (self.phase me = .idle ∨ ∃ last result, self.phase me = .returned last result) ∧
      next.table = self.table ∧ next.phase = self.enter me (.looking call)
  | .look me => ∃ call, self.table.Alive me ∧ self.phase me = .looking call ∧
      next.table = self.table ∧ next.phase = self.enter me (afterLook self.table me call)
  | .reap me => ∃ call child, self.table.Alive me ∧ self.phase me = .reaping call child ∧
      next.table = (self.table.reapChild child).2 ∧
        next.phase = self.enter me (.returned call child)
  | .decide me => ∃ call, self.table.Alive me ∧ self.phase me = .missed call ∧
      next.table = (if afterDecide self.table me call = .asleep call then self.table.update me sleep
        else self.table) ∧
      next.phase = self.enter me (afterDecide self.table me call)
  | .wake me => ∃ call, self.table.Alive me ∧ self.phase me = .asleep call ∧
      next.table = self.table.update me resume ∧ next.phase = self.enter me (.looking call)
  | .kernel call => (∀ pid, call ≠ .reap pid) ∧ Table.Runs self.table call next.table ∧
      next.phase = self.leave (ended self.table call)
  | .regroup pid pgid =>
    next.table = self.table.update pid (fun process => { process with pgid := pgid }) ∧
      next.phase = self.phase

/-! ## What a step should do -/

/-- No process leaves the table. -/
def NobodyGone (before after : Table) : Prop :=
  ∀ pid, before.procs pid ≠ none → after.procs pid ≠ none

/-- A child is chosen only if it is a zombie that the argument asks for; what was chosen is reaped
once, by its parent; `ECHILD` is the answer exactly without a child that is asked for. -/
def Right (self : System) (label : Label) (next : System) : Prop :=
  match label with
  | .look me => NobodyGone self.table next.table ∧
      ∀ call child, next.phase me = .reaping call child →
      ∃ process, self.table.procs child = some process ∧ process.isZombie = true ∧
        self.table.Matches me call.pid child process
  | .reap me => ∀ call child, self.phase me = .reaping call child →
      (∃ process, self.table.procs child = some process ∧
        process.isZombie = true ∧ process.ppid = me) ∧
        next.phase me = .returned call child ∧ next.table.procs child = none ∧
        ∀ other, other ≠ child → self.table.procs other ≠ none → next.table.procs other ≠ none
  | .decide me => NobodyGone self.table next.table ∧ ∀ call, self.phase me = .missed call →
      (next.phase me = .returned call echild ↔ ¬ self.table.HasMatching me call.pid) ∧
        (next.phase me = .returned call 0 → self.table.HasMatching me call.pid)
  | _ => NobodyGone self.table next.table

/-- The numbers that a step gives out are nobody's parent. -/
def Fresh (before after : Table) : Prop :=
  ∀ pid, before.procs pid = none → after.procs pid ≠ none → ∀ other, after.parentOf other ≠ some pid

/-- A member of the group that a negative argument stands for. -/
def Member (table : Table) (pid : Int) (number : Nat) (process : Process) : Prop :=
  table.procs number = some process ∧ process.pgid = (-pid).toNat

/-- A process that is asked for by its number is a child of the caller when it is a zombie, and in a
group every zombie of another parent comes after one of the caller. -/
def LooksAtOwn (table : Table) (me : Nat) (pid : Int) : Prop :=
  if pid < -1 then
    ∀ number stranger, Member table pid number stranger → stranger.isZombie = true →
      stranger.ppid ≠ me → ∃ child < number, ∃ process, Member table pid child process ∧
        process.isZombie = true ∧ process.ppid = me
  else
    0 < pid → ∀ process, table.procs pid.toNat = some process → process.isZombie = true →
      process.ppid = me

/-- A call that must not block has a child that it asks for. A call that may block asks for the
number of a child, for a group with a child in it or for one without any process, for all children,
or for the caller's own group when no child is in it. -/
def DecidesForOwn (table : Table) (me : Nat) (call : WaitCall) : Prop :=
  if call.nohang then table.HasMatching me call.pid
  else if call.pid < -1 then
    ∀ number process, Member table call.pid number process →
      ∃ child own, Member table call.pid child own ∧ own.ppid = me
  else if call.pid = 0 then
    ∀ caller child process, table.procs me = some caller → table.procs child = some process →
      process.ppid = me → process.pgid ≠ caller.pgid
  else
    0 < call.pid → ∀ process, table.procs call.pid.toNat = some process → process.ppid = me

def Own (self : System) (label : Label) (next : System) : Prop :=
  match label with
  | .look me => ∀ call, self.phase me = .looking call → LooksAtOwn self.table me call.pid
  | .decide me => ∀ call, self.phase me = .missed call → DecidesForOwn self.table me call
  | .kernel call => (∀ wanted process, call = .spawn wanted process → process.children = []) ∧
      Fresh self.table next.table
  | _ => True

/-- Any table with right lists, and nobody waits. -/
def calls (Allowed : System → Label → System → Prop) : TransitionSystem System Label where
  Initial self := self.table.Listed ∧ ∀ pid, self.phase pid = .idle
  Step self label next := Runs self label next ∧ Allowed self label next

/-! ## What the other steps keep -/

/-- Nobody leaves, gets another parent or comes back to life. -/
def Keeps (before after : Table) : Prop :=
  ∀ pid process, before.procs pid = some process → ∃ kept, after.procs pid = some kept ∧
    kept.ppid = process.ppid ∧ (process.isZombie = true → kept.isZombie = true)

theorem Keeps.refl (table : Table) : Keeps table table :=
  fun _ process found => ⟨process, found, rfl, id⟩

variable {after table : Table} {pid child : Nat} {process : Process} {phase : Phase}
  {call : WaitCall}

theorem Keeps.nobodyGone {before : Table} (keeps : Keeps before after) :
    NobodyGone before after := by
  intro pid isThere
  rcases Option.ne_none_iff_exists'.mp isThere with ⟨process, found⟩
  rcases keeps pid process found with ⟨kept, isKept, _⟩
  rw [isKept]
  exact some_ne_none kept

variable {change : Process → Process} {Kind : Process → Prop} {ppid other who : Nat}

theorem keeps_update (parent : ∀ process, (change process).ppid = process.ppid)
    (zombie : ∀ process, table.procs pid = some process → process.isZombie = true →
      (change process).isZombie = true) : Keeps table (table.update pid change) := by
  intro other process found
  by_cases same : other = pid
  · rw [same] at found
    refine ⟨change process, ?_, parent process, zombie process found⟩
    rw [same, procs_update_self, found, map_some]
  · refine ⟨process, ?_, rfl, id⟩
    rw [procs_update_of_ne same, found]

theorem keeps_enters (enters : table.Enters Kind after) : Keeps table after := by
  rcases enters with ⟨next, _, rfl | ⟨pid, entrant, _, new, _, rfl⟩⟩
  · exact Keeps.refl table
  · intro other process found
    have differs : other ≠ pid := by
      intro same
      rw [same, new] at found
      cases found
    rw [procs_add_of_ne differs]
    split
    next => exact ⟨process.push pid, by rw [found]; rfl, rfl, id⟩
    next => exact ⟨process, found, rfl, id⟩

theorem keeps_terminate {code : Int} :
    Keeps table (table.terminate pid code) :=
  keeps_update (fun _ => rfl) fun _ _ _ => rfl

theorem listed_enters (listed : table.Listed)
    (childless : ∀ process, Kind process → process.children = []) (fresh : Fresh table after)
    (enters : table.Enters Kind after) : after.Listed := by
  rcases enters with ⟨next, nonzero, rfl | ⟨pid, process, positive, new, kind, rfl⟩⟩
  · exact listed.with_nextPid nonzero
  apply (listed.with_nextPid nonzero).add
  refine ⟨positive, new, childless process kind, fresh pid new ?_⟩
  rw [add, procs_set_self]
  exact some_ne_none process

theorem kernel_step {call : Table.Call} (listed : table.Listed)
    (noReap : ∀ pid, call ≠ .reap pid) (runs : Table.Runs table call after)
    (childless : ∀ wanted process, call = .spawn wanted process → process.children = [])
    (fresh : Fresh table after) : after.Listed ∧ Keeps table after := by
  cases runs with
  | schedule => exact ⟨⟨listed.noZero, listed.hint, listed.counted⟩, Keeps.refl table⟩
  | spawn spawned =>
    have enters := listed.spawn_enters spawned
    refine ⟨listed_enters listed ?_ fresh enters, keeps_enters enters⟩
    rintro process rfl
    exact childless _ _ rfl
  | fork forked | clone forked =>
    have enters := cloneWith_enters listed.hint forked
    refine ⟨listed_enters listed ?_ fresh enters, keeps_enters enters⟩
    rintro process ⟨parent, _, rfl⟩
    rfl
  | exit | kill => exact ⟨listed.terminate _, keeps_terminate⟩
  | reap => exact absurd rfl (noReap _)

theorem remove_kept (differs : other ≠ pid) (found : table.procs other = some process) :
    ∃ kept, (table.remove pid ppid).procs other = some kept ∧ kept.ppid = process.ppid ∧
      (process.isZombie = true → kept.isZombie = true) := by
  rw [procs_remove_of_ne differs]
  split
  next => exact ⟨process.retain pid, by rw [found]; rfl, rfl, id⟩
  next => exact ⟨process, found, rfl, id⟩

/-! ## Runs -/

/-- What a call has chosen stays a zombie child of its caller. -/
structure Sound (system : System) : Prop where
  listed : system.table.Listed
  chosen : ∀ {me : Nat} {call : WaitCall} {child : Nat}, system.phase me = .reaping call child →
    ∃ process, system.table.procs child = some process ∧ process.isZombie = true ∧ process.ppid = me

variable {self next : System} {me : Nat}

theorem enter_self : self.enter me phase me = phase := update_self ..

theorem enter_of_ne (differs : other ≠ me) :
    self.enter me phase other = self.phase other := update_of_ne differs ..

theorem Sound.keep (sound : self.Sound) (listed : next.table.Listed)
    (keeps : Keeps self.table next.table)
    (phases : ∀ me call child, next.phase me = .reaping call child →
      self.phase me = .reaping call child) :
    next.Sound where
  listed := listed
  chosen := by
    intro me call child isReaping
    rcases sound.chosen (phases me call child isReaping) with ⟨process, found, zombie, isChild⟩
    rcases keeps child process found with ⟨kept, isKept, samePpid, stays⟩
    exact ⟨kept, isKept, stays zombie, samePpid.trans isChild⟩

theorem reaping_of_enter (other : ∀ call child, phase ≠ .reaping call child)
    (entered : next.phase = self.enter me phase) {call : WaitCall} {child : Nat}
    (isReaping : next.phase who = .reaping call child) : self.phase who = .reaping call child := by
  rw [entered] at isReaping
  by_cases same : who = me
  · rw [same, enter_self] at isReaping
    exact absurd isReaping (other call child)
  · rwa [enter_of_ne same] at isReaping

theorem reaping_of_leave {gone : Option Nat} (left : next.phase = self.leave gone)
    (isReaping : next.phase who = .reaping call child) :
    self.phase who = .reaping call child := by
  cases gone with
  | none =>
    rw [left] at isReaping
    exact isReaping
  | some pid => exact reaping_of_enter (fun _ _ differs => by cases differs) left isReaping

theorem afterDecide_ne_reaping {other : WaitCall} :
    afterDecide table me call ≠ .reaping other child := by
  intro isReaping
  simp only [afterDecide] at isReaping
  split at isReaping
  · cases isReaping
  · split at isReaping <;> cases isReaping

theorem afterLook_reaping {other : WaitCall} :
    afterLook table me call = .reaping other child ↔
      other = call ∧ table.findZombie me call.pid = some child := by
  rw [afterLook]
  cases table.findZombie me call.pid with
  | none => simp
  | some found => simp [eq_comm]

/-- A caller that is alive is nobody's zombie. -/
theorem keeps_of_alive (alive : table.Alive me)
    (parent : ∀ process, (change process).ppid = process.ppid) :
    Keeps table (table.update me change) := by
  apply keeps_update parent
  intro process found zombie
  exact absurd alive (not_alive_of_zombie found zombie)

theorem resume_ppid (process : Process) : (resume process).ppid = process.ppid := by
  rw [resume]
  split <;> rfl

theorem resume_children (process : Process) : (resume process).children = process.children := by
  rw [resume]
  split <;> rfl

theorem decide_table (listed : table.Listed) (alive : table.Alive me) (isNext : next.table =
      if afterDecide table me call = .asleep call then table.update me sleep else table) :
    next.table.Listed ∧ Keeps table next.table := by
  rw [isNext]
  split
  · exact ⟨listed.update (fun _ => rfl) (fun _ => rfl), keeps_of_alive alive fun _ => rfl⟩
  · exact ⟨listed, Keeps.refl table⟩

section

variable (sound : self.Sound)
include sound

theorem Sound.reap_eq {call : WaitCall} {child : Nat}
    (isReaping : self.phase me = .reaping call child) :
    ∃ process, self.table.procs child = some process ∧ process.isZombie = true ∧
      process.ppid = me ∧ (self.table.reapChild child).2 = self.table.remove child me := by
  rcases sound.chosen isReaping with ⟨process, found, zombie, isChild⟩
  refine ⟨process, found, zombie, isChild, ?_⟩
  rcases @reapChild_cases self.table child with ⟨_, noZombie⟩ | ⟨same, code, isSame, _, isRemoved⟩
  · rw [noZombie process found] at zombie
    cases zombie
  · rw [found] at isSame
    cases isSame
    rw [isRemoved, isChild]

theorem Sound.reap {call : WaitCall} {child : Nat} (isReaping : self.phase me = .reaping call child)
    (isTable : next.table = (self.table.reapChild child).2)
    (isPhase : next.phase = self.enter me (.returned call child)) : next.Sound := by
  rcases sound.reap_eq isReaping with ⟨process, found, zombie, isChild, isRemoved⟩
  rw [isRemoved] at isTable
  constructor
  · rw [isTable, ← isChild]
    exact sound.listed.remove found
  · intro who other target isChosen
    have before := reaping_of_enter (fun _ _ differs => by cases differs) isPhase isChosen
    rcases sound.chosen before with ⟨chosen, isThere, isZombie, isParent⟩
    -- Two callers cannot have chosen the same child, since it has one parent.
    have differs : target ≠ child := by
      intro same
      rw [same, found] at isThere
      cases isThere
      rw [isPhase, ← isParent, isChild, enter_self] at isChosen
      cases isChosen
    rw [isTable]
    rcases remove_kept differs isThere with ⟨kept, isKept, samePpid, stays⟩
    exact ⟨kept, isKept, stays isZombie, samePpid.trans isParent⟩

omit sound in
/-- The first zombie that the search can find is a child of the caller. -/
theorem looksAtOwn_iff {pid : Int} (listed : table.Listed) : LooksAtOwn table me pid ↔
    ∀ child, table.FirstZombie me pid child → table.parentOf child = some me := by
  rw [LooksAtOwn]
  split
  next group =>
    constructor
    · rintro own child ⟨⟨process, found, zombie, selected⟩, earliest⟩
      rw [parentOf_some found]
      by_contra differs
      rcases own child process ⟨found, (selected_group group).mp selected⟩ zombie
        (fun same => differs (congrArg some same)) with ⟨earlier, isEarlier, other, member, also, _⟩
      exact earliest group earlier isEarlier other member.1 also
        ((selected_group group).mpr member.2)
    · intro law number stranger member zombie differs
      let Zombie (number : Nat) : Prop :=
        ∃ process, Member table pid number process ∧ process.isZombie = true
      classical
      have some : ∃ number, Zombie number := ⟨number, stranger, member, zombie⟩
      rcases Nat.find_spec some with ⟨process, least, also⟩
      have isOwn := law (Nat.find some)
        ⟨⟨process, least.1, also, (selected_group group).mpr least.2⟩,
          fun _ earlier isEarlier other found isZombie selected => Nat.find_min some isEarlier
            ⟨other, ⟨found, (selected_group group).mp selected⟩, isZombie⟩⟩
      rw [parentOf_some least.1, Option.some.injEq] at isOwn
      refine ⟨Nat.find some, ?_, process, least, also, isOwn⟩
      rcases Nat.lt_or_eq_of_le (Nat.find_min' some ⟨stranger, member, zombie⟩) with before | same
      · exact before
      · have found := least.1
        rw [same, member.1] at found
        cases found
        exact absurd isOwn differs
  next notGroup =>
    constructor
    · rintro own child ⟨⟨process, found, zombie, ⟨_, isChild⟩ | ⟨group, _⟩ | ⟨_, isPid⟩⟩, _⟩
      · rw [parentOf_some found, isChild]
      · exact absurd group notGroup
      · have positive := listed.ne_zero found
        rw [parentOf_some found, own (by omega) process (isPid ▸ found) zombie]
    · intro law positive process found zombie
      have isOwn := law pid.toNat ⟨⟨process, found, zombie, .inr (.inr ⟨by omega, rfl⟩)⟩,
        fun group => absurd group notGroup⟩
      rwa [parentOf_some found, Option.some.injEq] at isOwn

omit sound in
theorem decidesForOwn_iff (listed : table.Listed) (blocks : call.nohang = false) :
    DecidesForOwn table me call ↔
      (table.HasSelected me call.pid ↔ table.HasMatching me call.pid) := by
  rw [DecidesForOwn, if_neg (by simp [blocks])]
  split
  next group =>
    have notAny : call.pid ≠ -1 := by omega
    have notZero : call.pid ≠ 0 := by omega
    have negative : ¬ 0 < call.pid := by omega
    simp only [HasSelected, HasMatching, selected_group group, Matches, Member, group, notAny,
      notZero, negative]
    grind
  next notGroup =>
    split
    next zero =>
      have nobody : ¬ table.HasSelected me call.pid := by
        rintro ⟨child, process, found, selected⟩
        rw [selected_exact (by omega), zero] at selected
        exact listed.ne_zero found selected
      rw [iff_false_left nobody]
      simp only [HasMatching, Matches, zero]
      grind
    next notZero =>
      by_cases any : call.pid = -1
      · simp [HasSelected, HasMatching, Selected, Matches, any]
      · have positive : 0 < call.pid := by omega
        simp only [HasSelected, HasMatching, selected_exact positive.le, Matches, any, notGroup,
          notZero, positive]
        grind

theorem Sound.look {call : WaitCall} (own : LooksAtOwn self.table me call.pid)
    (isTable : next.table = self.table)
    (isPhase : next.phase = self.enter me (afterLook self.table me call)) : next.Sound := by
  constructor
  · rw [isTable]
    exact sound.listed
  · intro who other child isChosen
    rw [isTable]
    rw [isPhase] at isChosen
    by_cases same : who = me
    · rw [same, enter_self, afterLook_reaping] at isChosen
      have first := findZombie_firstZombie sound.listed isChosen.2
      have isParent := (looksAtOwn_iff sound.listed).mp own child first
      rcases first.1 with ⟨process, found, zombie, _⟩
      rw [parentOf_some found, Option.some.injEq] at isParent
      exact ⟨process, found, zombie, isParent.trans same.symm⟩
    · rw [enter_of_ne same] at isChosen
      exact sound.chosen isChosen

/-- The steps that neither choose nor reap a child. -/
def Quiet : Label → Prop
  | .look _ | .reap _ => False
  | _ => True

theorem Sound.quiet_step {label : Label} (runs : Runs self label next)
    (own : Own self label next) (quiet : Quiet label) :
    next.table.Listed ∧ Keeps self.table next.table ∧
      ∀ {who call child}, next.phase who = .reaping call child →
        self.phase who = .reaping call child := by
  cases label with
  | start me call =>
    rcases runs with ⟨_, _, isTable, isPhase⟩
    rw [isTable]
    exact ⟨sound.listed, Keeps.refl _,
      reaping_of_enter (fun _ _ differs => by cases differs) isPhase⟩
  | decide me =>
    rcases runs with ⟨call, alive, _, isTable, isPhase⟩
    rcases decide_table sound.listed alive isTable with ⟨listed, keeps⟩
    exact ⟨listed, keeps, reaping_of_enter (fun _ _ => afterDecide_ne_reaping) isPhase⟩
  | wake me =>
    rcases runs with ⟨call, alive, _, isTable, isPhase⟩
    rw [isTable]
    exact ⟨sound.listed.update resume_ppid resume_children, keeps_of_alive alive resume_ppid,
      reaping_of_enter (fun _ _ differs => by cases differs) isPhase⟩
  | kernel call =>
    rcases runs with ⟨noReap, runs, isPhase⟩
    rcases kernel_step sound.listed noReap runs own.1 own.2 with ⟨listed, keeps⟩
    exact ⟨listed, keeps, reaping_of_leave isPhase⟩
  | regroup pid pgid =>
    rcases runs with ⟨isTable, isPhase⟩
    rw [isTable, isPhase]
    exact ⟨sound.listed.update (fun _ => rfl) fun _ => rfl,
      keeps_update (fun _ => rfl) fun _ _ zombie => zombie, id⟩
  | _ => cases quiet

theorem Sound.step {label : Label} (step : (calls Own).Step self label next) :
    next.Sound := by
  rcases step with ⟨runs, own⟩
  have keep (quiet : Quiet label) : next.Sound := by
    rcases sound.quiet_step runs own quiet with ⟨listed, keeps, phases⟩
    exact sound.keep listed keeps fun _ _ _ => phases
  cases label with
  | look me =>
    rcases runs with ⟨call, _, isLooking, isTable, isPhase⟩
    exact sound.look (own call isLooking) isTable isPhase
  | reap me =>
    rcases runs with ⟨call, child, _, isReaping, isTable, isPhase⟩
    exact sound.reap isReaping isTable isPhase
  | _ => exact keep trivial

omit sound in
theorem sound_of_reachable (reachable : (calls Own).Reachable self) : self.Sound := by
  apply reachable.invariant
  · rintro state ⟨listed, idle⟩
    refine ⟨listed, ?_⟩
    intro me call child isReaping
    rw [idle me] at isReaping
    cases isReaping
  · intro state label next sound step
    exact Sound.step sound step

/-! ## Steps of a call -/

omit sound in
/-- A selected child is one that is asked for, except that no process has the number 0. -/
theorem matches_of_selected {pid : Int}
    (listed : table.Listed) (found : table.procs child = some process)
    (selected : Selected me pid child process) (isChild : process.ppid = me) :
    table.Matches me pid child process := by
  refine ⟨isChild, ?_⟩
  rcases selected with ⟨any, _⟩ | group | ⟨exact, isPid⟩
  · exact .inl any
  · exact .inr (.inl group)
  · have positive := listed.ne_zero found
    exact .inr (.inr (.inr ⟨by omega, isPid⟩))

theorem Sound.right_look (runs : Runs self (.look me) next) :
    Right self (.look me) next ↔ Own self (.look me) next := by
  rcases runs with ⟨call, _, isLooking, isTable, isPhase⟩
  have stays : NobodyGone self.table next.table := by
    rw [isTable]
    exact (Keeps.refl _).nobodyGone
  have isNext : next.phase me = afterLook self.table me call := by
    rw [isPhase, enter_self]
  constructor
  · intro right other isOther
    rw [isLooking] at isOther
    cases isOther
    apply (looksAtOwn_iff sound.listed).mpr
    intro child first
    by_cases any : call.pid = -1
    · rcases first.1 with ⟨process, found, _, selected⟩
      rw [parentOf_some found]
      rcases selected with ⟨_, isChild⟩ | ⟨group, _⟩ | ⟨exact, _⟩
      · rw [isChild]
      · omega
      · omega
    · have found := first.findZombie self.typed any
      rcases right.2 call child (isNext.trans (afterLook_reaping.mpr ⟨rfl, found⟩)) with
        ⟨process, isThere, _, isMatch⟩
      rw [parentOf_some isThere, isMatch.1]
  · intro own
    refine ⟨stays, ?_⟩
    intro other child isReaping
    rw [isNext, afterLook_reaping] at isReaping
    rcases isReaping with ⟨rfl, found⟩
    have first := findZombie_firstZombie sound.listed found
    have isParent := (looksAtOwn_iff sound.listed).mp (own other isLooking) child first
    rcases first.1 with ⟨process, isThere, zombie, selected⟩
    rw [parentOf_some isThere, Option.some.injEq] at isParent
    exact ⟨process, isThere, zombie, matches_of_selected sound.listed isThere selected isParent⟩

theorem Sound.right_reap (runs : Runs self (.reap me) next) :
    Right self (.reap me) next := by
  rcases runs with ⟨call, child, _, isReaping, isTable, isPhase⟩
  intro other target isTarget
  rw [isReaping] at isTarget
  cases isTarget
  rcases sound.reap_eq isReaping with ⟨process, found, zombie, isChild, isRemoved⟩
  rw [isRemoved] at isTable
  refine ⟨⟨process, found, zombie, isChild⟩, ?_, ?_, ?_⟩
  · rw [isPhase, enter_self]
  · rw [isTable, procs_remove_self]
  · intro who differs isThere
    rcases Option.ne_none_iff_exists'.mp isThere with ⟨kept, isKept⟩
    rcases remove_kept differs isKept with ⟨after, isAfter, _⟩
    rw [isTable, isAfter]
    exact some_ne_none after

theorem Sound.right_decide (runs : Runs self (.decide me) next) :
    Right self (.decide me) next ↔ Own self (.decide me) next := by
  rcases runs with ⟨call, alive, isMissed, isTable, isPhase⟩
  have stays := (decide_table sound.listed alive isTable).2.nobodyGone
  have isNext : next.phase me = afterDecide self.table me call := by
    rw [isPhase, enter_self]
  rcases alive with ⟨caller, isCaller, _⟩
  have relevant := @hasRelevantChildren_iff self.table me call.pid self.typed sound.listed _
    isCaller
  have law : ((next.phase me = .returned call echild ↔ ¬ self.table.HasMatching me call.pid) ∧
      (next.phase me = .returned call 0 → self.table.HasMatching me call.pid)) ↔
        DecidesForOwn self.table me call := by
    rw [isNext, afterDecide]
    cases blocks : call.nohang with
    | true => simp [DecidesForOwn, blocks, echild]
    | false =>
      rw [decidesForOwn_iff sound.listed blocks, ← relevant]
      cases self.table.hasRelevantChildren me call.pid with
      | true => simp
      | false => simp [echild]
  constructor
  · intro right other isOther
    rw [isMissed] at isOther
    cases isOther
    exact law.mp (right.2 call isMissed)
  · intro own
    refine ⟨stays, ?_⟩
    intro other isOther
    rw [isMissed] at isOther
    cases isOther
    exact law.mpr (own call isMissed)

end

/-- The steps of `wait4`. -/
def OfWait : Label → Prop
  | .kernel _ | .regroup _ _ => False
  | _ => True

/-- The process 2 has the child 3, whose child 4 is a zombie. -/
def grandchild : Table :=
  (((⟨fun _ => none, 5, 2⟩ : Table).add 2 ⟨0, 2, .running, []⟩).add 3 ⟨2, 2, .runnable, []⟩).add 4
    ⟨3, 2, .zombie 0, []⟩

theorem linked_grandchild : grandchild.Linked := by
  have empty : (⟨fun _ => none, 5, 2⟩ : Table).Linked := by
    refine ⟨⟨rfl, by decide, ?_⟩, ?_⟩
    · intro pid parent found
      cases found
    · intro pid process found
      cases found
  have two := empty.add
    (@Linked.joins _ 2 ⟨0, 2, .running, []⟩ empty (by decide) rfl rfl (.inl rfl))
    (.inl rfl)
  have parentTwo : Alive ((⟨fun _ => none, 5, 2⟩ : Table).add 2 ⟨0, 2, .running, []⟩) 2 :=
    ⟨_, rfl, rfl⟩
  have three := two.add (@Linked.joins _ 3 ⟨2, 2, .runnable, []⟩ two (by decide) rfl rfl
    (.inr parentTwo)) (.inr parentTwo)
  have parentThree : Alive (((⟨fun _ => none, 5, 2⟩ : Table).add 2 ⟨0, 2, .running, []⟩).add 3
      ⟨2, 2, .runnable, []⟩) 3 := ⟨_, rfl, rfl⟩
  exact three.add (three.joins (by decide) rfl rfl (.inr parentThree)) (.inr parentThree)

theorem alive_two : grandchild.Alive 2 := ⟨⟨0, 2, .running, [3]⟩, rfl, rfl⟩

theorem alive_three : grandchild.Alive 3 := ⟨⟨2, 2, .runnable, [4]⟩, rfl, rfl⟩

theorem typed_add (small : pid < pidLimit) (typed : ∀ pid, pidLimit ≤ pid → table.procs pid = none)
    (other : Nat) (large : pidLimit ≤ other) : (table.add pid process).procs other = none := by
  rw [procs_add_of_ne (by omega), typed other large]
  split <;> rfl

theorem typed_grandchild (pid : Nat) (large : pidLimit ≤ pid) : grandchild.procs pid = none :=
  typed_add (by decide) (typed_add (by decide) (typed_add (by decide) fun _ _ => rfl)) pid large

theorem typed_remove (typed : ∀ pid, pidLimit ≤ pid → table.procs pid = none) (other : Nat)
    (large : pidLimit ≤ other) : (table.remove pid ppid).procs other = none := by
  by_cases same : other = pid
  · rw [same, procs_remove_self]
  · rw [procs_remove_of_ne same, typed other large]
    split <;> rfl

def atRest : System := ⟨grandchild, typed_grandchild, fun _ => .idle⟩

def inCall (me : Nat) (phase : Phase) : System := { atRest with phase := atRest.enter me phase }

theorem runs_start (alive : grandchild.Alive me) (call : WaitCall) :
    Runs atRest (.start me call) (inCall me (.looking call)) :=
  ⟨alive, .inl rfl, rfl, rfl⟩

theorem runs_look (alive : grandchild.Alive me) (call : WaitCall) :
    Runs (inCall me (.looking call)) (.look me) (inCall me (afterLook grandchild me call)) :=
  ⟨call, alive, enter_self, rfl, (update_idem ..).symm⟩

/-- What is left when the zombie 4 has been reaped. -/
def reaped (me : Nat) (call : WaitCall) : System where
  table := grandchild.remove 4 3
  typed := typed_remove typed_grandchild
  phase := (inCall me (.reaping call 4)).enter me (.returned call 4)

theorem runs_reap (alive : grandchild.Alive me) (call : WaitCall) :
    Runs (inCall me (.reaping call 4)) (.reap me) (reaped me call) :=
  ⟨call, 4, alive, enter_self, rfl, rfl⟩

theorem reachable_atRest {Allowed : System → Label → System → Prop} :
    (calls Allowed).Reachable atRest :=
  .initial ⟨linked_grandchild.toListed, fun _ => rfl⟩

theorem reachable_look : (calls fun _ _ _ => True).Reachable
    (inCall 2 (afterLook grandchild 2 call)) :=
  ((@reachable_atRest fun _ _ _ => True).step ⟨runs_start alive_two call, trivial⟩).step
    ⟨runs_look alive_two call, trivial⟩

end System

end Qunix.Family
