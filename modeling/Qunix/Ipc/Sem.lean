import Qunix.Foundation.Reachability
import Qunix.Foundation.WaitQueue

/-! # Semaphores

The critical sections of `sem_wait`, `sem_trywait` and `sem_post` on one semaphore, and the steps
of `block_current` and `wake_process` between them. The value is an `i32` that does not overflow.
-/

namespace Qunix.Ipc

open Foundation

/-- A semaphore with its waiting processes; `waits` and `posts` count the calls that succeeded. -/
structure Semaphore where
  value : Int
  waiting : Waiting Nat Unit
  waits : Nat
  posts : Nat

inductive SemStep
  | wait (pid : Nat)
  | trywait
  | post
  | block (pid : Nat)
  | wake (pid : Nat)
  | resume (pid : Nat)

namespace Semaphore

def new (initial : Nat) : Semaphore := ⟨initial, ⟨fun _ => [], fun _ => .awake, []⟩, 0, 0⟩

variable (self : Semaphore)

def semTrywait : Option Semaphore :=
  if 0 < self.value then some { self with value := self.value - 1, waits := self.waits + 1 }
  else none

/-- One turn of the loop of `sem_wait`. -/
def semWait (pid : Nat) : Semaphore :=
  self.semTrywait.getD { self with waiting := self.waiting.register pid () }

def semPost : Semaphore :=
  { self with
    value := self.value + 1
    waiting := self.waiting.take () 1
    posts := self.posts + 1 }

/-- `resume` is the return of `block_current` without a wake-up, when no other task can run. -/
def perform : SemStep → Semaphore
  | .wait pid => self.semWait pid
  | .trywait => self.semTrywait.getD self
  | .post => self.semPost
  | .block pid => { self with waiting := self.waiting.block pid }
  | .wake pid => { self with waiting := self.waiting.wake pid }
  | .resume pid => { self with waiting := self.waiting.rouse pid }

def Enabled : SemStep → Prop
  | .wait pid => self.waiting.phase pid = .awake
  | .wake pid => pid ∈ self.waiting.waking
  | _ => True

/-- No wake-up reaches a process between its registration and its sleep. -/
def InTime : SemStep → Prop
  | .wake pid => ∀ queue, self.waiting.phase pid ≠ .entering queue
  | _ => True

def system (initial : Nat) : TransitionSystem Semaphore SemStep where
  Initial := (· = new initial)
  Step := fun self step next => self.Enabled step ∧ next = self.perform step

def timely (initial : Nat) : TransitionSystem Semaphore SemStep where
  Initial := (· = new initial)
  Step := fun self step next => (system initial).Step self step next ∧ self.InTime step

def Balanced (initial : Nat) (self : Semaphore) : Prop :=
  self.waits + self.value = initial + self.posts ∧ 0 ≤ self.value

theorem semTrywait_cases :
    (0 < self.value ∧
      self.semTrywait = some { self with value := self.value - 1, waits := self.waits + 1 }) ∨
    self.semTrywait = none := by
  unfold semTrywait
  split
  · rename_i positive
    exact .inl ⟨positive, rfl⟩
  · exact .inr rfl

theorem Balanced.perform {initial : Nat} {self : Semaphore} (balanced : Balanced initial self)
    (step : SemStep) : Balanced initial (self.perform step) := by
  rcases balanced with ⟨total, notNegative⟩
  cases step with
  | wait | trywait =>
    rcases self.semTrywait_cases with ⟨positive, taken⟩ | taken <;>
      simp only [Semaphore.perform, semWait, taken, Option.getD_some, Option.getD_none, Balanced]
    · constructor <;> push_cast <;> omega
    · exact ⟨total, notNegative⟩
  | post =>
    simp only [Semaphore.perform, semPost, Balanced]
    constructor <;> push_cast <;> omega
  | block | wake | resume => exact ⟨total, notNegative⟩

theorem kept_perform {self : Semaphore} {step : SemStep} (kept : self.waiting.Kept)
    (inTime : self.InTime step) : (self.perform step).waiting.Kept := by
  cases step with
  | wait | trywait =>
    rcases self.semTrywait_cases with ⟨positive, taken⟩ | taken <;>
      simp only [Semaphore.perform, semWait, taken, Option.getD_some, Option.getD_none]
    · exact kept
    · first | exact kept.register _ _ | exact kept
  | post => exact kept.take () 1
  | block pid => exact kept.block pid
  | wake pid => exact kept.wake inTime
  | resume pid => exact kept.rouse pid

/-- Waits, posts and value balance in every run. Where every wake-up comes in time, who sleeps is
registered or about to be woken. -/
theorem semaphore_balanced_and_kept (initial : Nat) :
    (∀ self, (system initial).Reachable self → Balanced initial self) ∧
      ∀ self, (timely initial).Reachable self → ∀ pid, self.waiting.phase pid = .asleep () →
        pid ∈ self.waiting.waiters () ∨ pid ∈ self.waiting.waking := by
  constructor
  · intro self reachable
    refine reachable.invariant ?_ ?_
    · rintro _ rfl
      simp [Balanced, new]
    · rintro before step _ balanced ⟨_, rfl⟩
      exact balanced.perform step
  · intro self reachable pid asleep
    have kept : self.waiting.Kept := by
      refine @TransitionSystem.Reachable.invariant _ _ _ (fun self => self.waiting.Kept) ?_ ?_ _
        reachable
      · rintro _ rfl other place waits
        rcases waits with waits | waits <;> cases waits
      · rintro before step _ kept ⟨⟨_, rfl⟩, inTime⟩
        exact kept_perform kept inTime
    exact kept pid () (.inr asleep)

/-- A post after process 1 has gone to sleep. -/
theorem semaphore_balanced_and_kept_posted :
    ∃ self, (timely 0).Reachable self ∧ self.waiting.phase 1 = .asleep () ∧ self.value = 1 ∧
      (1 ∈ self.waiting.waiters () ∨ 1 ∈ self.waiting.waking) := by
  have start : (timely 0).Reachable (new 0) := .initial rfl
  have registered := start.via (.wait 1) ⟨⟨rfl, rfl⟩, trivial⟩
  have blocked := registered.via (.block 1) ⟨⟨trivial, rfl⟩, trivial⟩
  have posted := blocked.via .post ⟨⟨trivial, rfl⟩, trivial⟩
  exact ⟨_, posted, rfl, rfl, (semaphore_balanced_and_kept 0).2 _ posted 1 rfl⟩

/-- A post between the registration and the sleep of process 1. -/
theorem sleeps_unregistered_at_positive_value :
    ∃ self, (system 0).Reachable self ∧ self.value = 1 ∧ self.waiting.phase 1 = .asleep () ∧
      1 ∉ self.waiting.waiters () ∧ 1 ∉ self.waiting.waking := by
  have start : (system 0).Reachable (new 0) := .initial rfl
  have registered := start.via (.wait 1) ⟨rfl, rfl⟩
  have posted := registered.via .post ⟨trivial, rfl⟩
  have woken := posted.via (.wake 1) ⟨List.mem_singleton.mpr rfl, rfl⟩
  have blocked := woken.via (.block 1) ⟨trivial, rfl⟩
  exact ⟨_, blocked, rfl, rfl, List.not_mem_nil, List.not_mem_nil⟩

end Semaphore

end Qunix.Ipc
