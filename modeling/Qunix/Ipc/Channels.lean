import Qunix.Foundation.Reachability
import Qunix.Foundation.WaitQueue

/-! # Who sleeps at a pipe or the terminal

The critical sections of `pipe_read`, `pipe_write`, `pipe_close_read`, `pipe_close_write` and
`tty_read` on one pipe and the terminal, and the steps of `block_current` and `wake_process`
between them. Of the buffers only how much there is to read is kept.
-/

namespace Qunix.Ipc

open Foundation

inductive WaitPlace
  | read
  | write
  | tty
deriving DecidableEq

structure Channels where
  len : Nat
  writeClosed : Bool
  readClosed : Bool
  readers : Nat
  writers : Nat
  /-- Whether the terminal has something to read. -/
  ttyReady : Bool
  waiting : Waiting Nat WaitPlace

/-- A reader that goes on without sleeping unregisters. -/
inductive ChannelStep
  | register (pid : Nat) (place : WaitPlace)
  | tryRead (pid count : Nat) (nonblock : Bool)
  | ttyTryRead (pid : Nat) (rest nonblock : Bool)
  | tryWrite (count : Nat)
  | ttyInput (ready : Bool)
  | closeWrite
  | closeRead
  | unregister (pid : Nat) (place : WaitPlace)
  | takeWaiters (place : WaitPlace)
  | cleanupWaiters
  | block (pid : Nat)
  | wake (pid : Nat)
  | resume (pid : Nat)

namespace Channels

def pipeCapacity : Nat := 65536

def new (readers writers : Nat) : Channels :=
  ⟨0, false, false, readers, writers, false, ⟨fun _ => [], fun _ => .awake, []⟩⟩

def perform (self : Channels) : ChannelStep → Channels
  | .register pid place => { self with waiting := self.waiting.register pid place }
  | .tryRead pid count nonblock =>
    if self.len = 0 ∧ !(self.writeClosed || nonblock) then self
    else { self with len := self.len - count, waiting := self.waiting.quit pid }
  | .ttyTryRead pid rest nonblock =>
    if !(self.ttyReady || nonblock) then self
    else { self with ttyReady := self.ttyReady && rest, waiting := self.waiting.quit pid }
  | .tryWrite count =>
    if self.readClosed then self else { self with len := min (self.len + count) pipeCapacity }
  | .ttyInput ready => { self with ttyReady := ready }
  | .closeWrite => { self with
      writers := self.writers - 1
      writeClosed := self.writeClosed || self.writers - 1 == 0 }
  | .closeRead => { self with
      readers := self.readers - 1
      readClosed := self.readClosed || self.readers - 1 == 0 }
  | .unregister pid place => { self with waiting := self.waiting.unregister pid place }
  | .takeWaiters place => { self with
      waiting := self.waiting.take place (self.waiting.waiters place).length }
  | .cleanupWaiters => { self with
      waiting.waiters := fun place => if place = .tty then self.waiting.waiters place else [] }
  | .block pid => { self with waiting := self.waiting.block pid }
  | .wake pid => { self with waiting := self.waiting.wake pid }
  | .resume pid => { self with waiting := self.waiting.rouse pid }

/-- Readers register before they look, writers after. -/
def Enabled (self : Channels) : ChannelStep → Prop
  | .register pid _ | .unregister pid _ => self.waiting.phase pid = .awake
  | .tryRead pid .. => self.waiting.phase pid = .entering .read
  | .ttyTryRead pid .. => self.waiting.phase pid = .entering .tty
  | .cleanupWaiters => self.writeClosed = true ∧ self.readClosed = true
  | .wake pid => pid ∈ self.waiting.waking
  | _ => True

/-- No wake-up reaches a process between its registration and its sleep, and the entry of the pipe
is removed when nobody is registered. -/
def InTime (self : Channels) : ChannelStep → Prop
  | .wake pid => ∀ place, self.waiting.phase pid ≠ .entering place
  | .cleanupWaiters => ∀ place, place ≠ .tty → self.waiting.waiters place = []
  | _ => True

def runs (readers writers : Nat) (Allowed : Channels → ChannelStep → Prop) :
    TransitionSystem Channels ChannelStep where
  Initial := (· = new readers writers)
  Step := fun self step next => self.Enabled step ∧ Allowed self step ∧ next = self.perform step

variable {readers writers : Nat} {self : Channels}

def Ready (self : Channels) : WaitPlace → Prop
  | .read => 0 < self.len ∨ self.writeClosed = true
  | .write => self.len < pipeCapacity ∨ self.readClosed = true
  | .tty => self.ttyReady = true

/-- A process sleeps although it could go on, and nobody is going to wake it. -/
def Lost (self : Channels) : Prop :=
  ∃ pid place, self.waiting.phase pid = .asleep place ∧ self.Ready place ∧
    pid ∉ self.waiting.waiters place ∧ pid ∉ self.waiting.waking

theorem kept_perform {step : ChannelStep} (kept : self.waiting.Kept) (enabled : self.Enabled step)
    (inTime : self.InTime step) : (self.perform step).waiting.Kept := by
  cases step with
  | register pid place => exact kept.register pid place
  | tryRead pid | ttyTryRead pid =>
    simp only [perform]
    split
    · exact kept
    · exact kept.quit pid
  | tryWrite =>
    simp only [perform]
    split <;> exact kept
  | ttyInput | closeWrite | closeRead => exact kept
  | unregister pid place => exact kept.unregister enabled place
  | takeWaiters place => exact kept.take place _
  | cleanupWaiters =>
    intro pid place waits
    have before := kept pid place waits
    by_cases isTty : place = .tty
    · simpa [perform, isTty] using before
    · rw [inTime place isTty] at before
      simpa [perform, isTty] using before
  | block pid => exact kept.block pid
  | wake pid => exact kept.wake inTime
  | resume pid => exact kept.rouse pid

/-- Where every wake-up comes in time nobody is lost. -/
theorem nobody_lost_in_time (reachable : (runs readers writers InTime).Reachable self) :
    ¬self.Lost := by
  have kept : self.waiting.Kept := by
    refine @TransitionSystem.Reachable.invariant _ _ _ (fun self => self.waiting.Kept) ?_ ?_ _
      reachable
    · rintro _ rfl pid place waits
      rcases waits with waits | waits <;> cases waits
    · rintro before step _ kept ⟨enabled, inTime, rfl⟩
      exact kept_perform kept enabled inTime
  rintro ⟨pid, place, asleep, _, unregistered, unwoken⟩
  exact (kept pid place (.inr asleep)).elim unregistered unwoken

/-- A reader that sleeps when a byte comes is registered. -/
theorem nobody_lost_in_time_reader :
    ∃ self, (runs 1 1 InTime).Reachable self ∧ self.waiting.phase 1 = .asleep .read ∧
      self.Ready .read ∧ ¬self.Lost := by
  have start : (runs 1 1 InTime).Reachable (new 1 1) := .initial rfl
  have registered := start.via (.register 1 .read) ⟨rfl, trivial, rfl⟩
  have blocked := registered.via (.block 1) ⟨trivial, trivial, rfl⟩
  have written := blocked.via (.tryWrite 1) ⟨trivial, trivial, rfl⟩
  exact ⟨_, written, rfl, .inl (by decide), nobody_lost_in_time written⟩

/-- A byte comes between the look into the pipe and the sleep of process 1. -/
theorem reader_lost :
    ∃ self, (runs 1 1 fun _ _ => True).Reachable self ∧ self.Lost := by
  have start : (runs 1 1 fun _ _ => True).Reachable (new 1 1) := .initial rfl
  have registered := start.via (.register 1 .read) ⟨rfl, trivial, rfl⟩
  have looked := registered.via (.tryRead 1 8 false) ⟨rfl, trivial, rfl⟩
  have written := looked.via (.tryWrite 1) ⟨trivial, trivial, rfl⟩
  have taken := written.via (.takeWaiters .read) ⟨trivial, trivial, rfl⟩
  have woken := taken.via (.wake 1) ⟨List.mem_singleton.mpr rfl, trivial, rfl⟩
  have blocked := woken.via (.block 1) ⟨trivial, trivial, rfl⟩
  exact ⟨_, blocked, 1, .read, rfl, .inl (by decide), List.not_mem_nil, List.not_mem_nil⟩

end Channels

end Qunix.Ipc
