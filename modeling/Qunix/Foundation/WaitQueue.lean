import Mathlib.Data.List.Basic

/-! # Queues of waiting processes

A process that has to wait puts itself into a queue, leaves the critical section and only then
goes to sleep. Whoever makes the wait end takes processes out of the queue and wakes them in a
later step; a wake-up of a process that does not sleep has no effect.
-/

namespace Qunix.Foundation

open Function

universe u v

/-- A process is `entering` a queue from its registration there until it sleeps. -/
inductive Phase (Queue : Type v)
  | awake
  | entering (queue : Queue)
  | asleep (queue : Queue)

/-- `waking` are the processes taken out of a queue whose wake-up is still to come. -/
structure Waiting (Process : Type u) (Queue : Type v) where
  waiters : Queue → List Process
  phase : Process → Phase Queue
  waking : List Process

namespace Waiting

variable {Process : Type u} {Queue : Type v} {self : Waiting Process Queue}

/-- Who waits in a queue, or is about to, is registered there or about to be woken. -/
def Kept (self : Waiting Process Queue) : Prop :=
  ∀ process queue, self.phase process = .entering queue ∨ self.phase process = .asleep queue →
    process ∈ self.waiters queue ∨ process ∈ self.waking

def take [DecidableEq Queue] (self : Waiting Process Queue) (queue : Queue) (count : Nat) :
    Waiting Process Queue :=
  { self with
    waiters := update self.waiters queue ((self.waiters queue).drop count)
    waking := self.waking ++ (self.waiters queue).take count }

section

variable (kept : self.Kept)
include kept

theorem Kept.take [DecidableEq Queue] (queue : Queue) (count : Nat) :
    (self.take queue count).Kept := by
  intro other place waits
  have before := kept other place waits
  by_cases there : place = queue
  · subst there
    rw [← List.take_append_drop count (self.waiters place), List.mem_append] at before
    simp only [Waiting.take, update_self, List.mem_append]
    tauto
  · simp only [Waiting.take, update_of_ne there, List.mem_append]
    tauto

variable [DecidableEq Process]

def register [DecidableEq Queue] (self : Waiting Process Queue) (process : Process)
    (queue : Queue) : Waiting Process Queue :=
  { self with
    waiters := update self.waiters queue (self.waiters queue ++ [process])
    phase := update self.phase process (.entering queue) }

theorem Kept.register [DecidableEq Queue] (process : Process)
    (queue : Queue) : (self.register process queue).Kept := by
  intro other place waits
  have before := kept other place
  by_cases same : other = process <;> by_cases there : place = queue <;>
    simp_all [Waiting.register]

def quit (self : Waiting Process Queue) (process : Process) : Waiting Process Queue :=
  { self with phase := update self.phase process .awake }

theorem Kept.quit (process : Process) : (self.quit process).Kept := by
  intro other place waits
  by_cases same : other = process
  · simp [Waiting.quit, same] at waits
  · simp only [Waiting.quit, update_of_ne same] at waits
    exact kept other place waits

def unregister [DecidableEq Queue] (self : Waiting Process Queue) (process : Process)
    (queue : Queue) : Waiting Process Queue :=
  { self with
    waiters := update self.waiters queue ((self.waiters queue).filter (· ≠ process)) }

theorem Kept.unregister [DecidableEq Queue] {process : Process}
    (awake : self.phase process = .awake) (queue : Queue) :
    (self.unregister process queue).Kept := by
  intro other place waits
  have before := kept other place waits
  have different : other ≠ process := by
    rintro rfl
    simp [Waiting.unregister, awake] at waits
  by_cases there : place = queue <;> simp_all [Waiting.unregister]

def block (self : Waiting Process Queue) (process : Process) : Waiting Process Queue :=
  match self.phase process with
  | .entering queue => { self with phase := update self.phase process (.asleep queue) }
  | _ => self

theorem Kept.block (process : Process) : (self.block process).Kept := by
  intro other place waits
  have before := kept other place
  unfold Waiting.block at waits ⊢
  split at waits
  · by_cases same : other = process <;> simp_all
  · exact before waits

def rouse (self : Waiting Process Queue) (process : Process) : Waiting Process Queue :=
  match self.phase process with
  | .asleep _ => { self with phase := update self.phase process .awake }
  | _ => self

def wake (self : Waiting Process Queue) (process : Process) : Waiting Process Queue :=
  { self.rouse process with waking := self.waking.erase process }

omit kept in
theorem rouse_phase {process other : Process} {place : Queue}
    (waits : (self.rouse process).phase other = .entering place ∨
      (self.rouse process).phase other = .asleep place) :
    (self.phase other = .entering place ∨ self.phase other = .asleep place) ∧
      (other = process → self.phase other = .entering place) := by
  unfold rouse at waits
  split at waits
  · by_cases same : other = process <;> simp_all
  · rename_i notAsleep
    refine ⟨waits, fun same => waits.resolve_right fun asleep => ?_⟩
    exact notAsleep place (same ▸ asleep)

theorem Kept.rouse (process : Process) : (self.rouse process).Kept := by
  intro other place waits
  have before := kept other place (rouse_phase waits).1
  unfold Waiting.rouse
  split <;> exact before

/-- A wake-up is lost only on a process that is entering a queue. -/
theorem Kept.wake {process : Process}
    (settled : ∀ queue, self.phase process ≠ .entering queue) : (self.wake process).Kept := by
  intro other place waits
  have different : other ≠ process := fun same =>
    settled place (same ▸ (rouse_phase waits).2 same)
  rcases kept.rouse process other place waits with member | member
  · exact .inl member
  right
  apply (List.mem_erase_of_ne different).mpr
  unfold Waiting.rouse at member
  split at member <;> exact member

end

end Waiting

end Qunix.Foundation
