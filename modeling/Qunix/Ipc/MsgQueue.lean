import Qunix.Foundation.Reachability
import Mathlib.Data.List.Basic

/-! # Message queues

The turns of the loops of `mq_send` and `mq_receive` on one queue. A turn that does not end its
call blocks the process, which may take another turn later.
-/

namespace Qunix.Ipc

open Foundation

structure Message where
  prio : Nat
  data : List UInt8

structure MsgQueue where
  msgs : List Message
  maxmsg : Nat
  msgsize : Nat
  waitersR : List Nat
  waitersW : List Nat

namespace MsgQueue

def mqOpen (maxmsg msgsize : Nat) : MsgQueue :=
  ⟨[], if maxmsg = 0 then 64 else maxmsg, if msgsize = 0 then 8192 else msgsize, [], []⟩

/-- Whether the call ends with success: only if a receiver was waiting. -/
def mqSend (self : MsgQueue) (pid : Nat) (data : List UInt8) (prio : Nat) : Bool × MsgQueue :=
  if self.msgs.length < self.maxmsg then
    (!self.waitersR.isEmpty, { self with
      msgs := self.msgs ++ [⟨prio, data.take self.msgsize⟩]
      waitersR := self.waitersR.tail })
  else (false, { self with waitersW := self.waitersW ++ [pid] })

/-- The message that was taken, as far as it fits into the buffer. The caller gets its bytes. -/
def mqReceive (self : MsgQueue) (pid room : Nat) : Option Message × MsgQueue :=
  match self.msgs with
  | message :: rest => (some { message with data := message.data.take room },
      { self with msgs := rest, waitersW := self.waitersW.tail })
  | [] => (none, { self with waitersR := self.waitersR ++ [pid] })

end MsgQueue

inductive MqStep
  | send (pid : Nat) (data : List UInt8) (prio : Nat)
  | receive (pid room : Nat)

/-- A queue with the messages of the sends that reported success and those that were received. -/
structure MqHistory where
  queue : MsgQueue
  sent : List Message
  received : List Message

namespace MqHistory

def perform (self : MqHistory) : MqStep → MqHistory
  | .send pid data prio =>
    let (success, queue) := self.queue.mqSend pid data prio
    { self with queue, sent := if success then self.sent ++ [⟨prio, data⟩] else self.sent }
  | .receive pid room =>
    let (message, queue) := self.queue.mqReceive pid room
    { self with queue, received := self.received ++ message.toList }

/-- A message is put into the queue when a receiver waits, fits into it, does not outrank what is
there, and is taken out into a buffer that holds it. -/
def Heeded (self : MqHistory) : MqStep → Prop
  | .send _ data prio => self.queue.msgs.length < self.queue.maxmsg →
      self.queue.waitersR ≠ [] ∧ data.length ≤ self.queue.msgsize ∧
        ∀ message ∈ self.queue.msgs, prio ≤ message.prio
  | .receive _ room => ∀ message ∈ self.queue.msgs.head?, message.data.length ≤ room

def runs (maxmsg msgsize : Nat) (Allowed : MqHistory → MqStep → Prop) :
    TransitionSystem MqHistory MqStep where
  Initial := (· = ⟨.mqOpen maxmsg msgsize, [], []⟩)
  Step := fun self step next => Allowed self step ∧ next = self.perform step

/-- What was sent is what was received and what is still there, in this order, and a receive takes
the oldest of the messages of the highest priority. -/
structure Lawful (history : MqHistory) : Prop where
  once : history.sent = history.received ++ history.queue.msgs
  highest : ∀ {pid room message next}, history.queue.mqReceive pid room = (some message, next) →
    next.msgs = history.queue.msgs.tail ∧ ∀ other ∈ next.msgs, other.prio ≤ message.prio

variable {maxmsg msgsize : Nat} {self : MqHistory} {step : MqStep}

theorem bounded_perform (bounded : self.queue.msgs.length ≤ self.queue.maxmsg) (step : MqStep) :
    (self.perform step).queue.msgs.length ≤ (self.perform step).queue.maxmsg := by
  cases step with
  | send pid data prio =>
    simp only [perform, MsgQueue.mqSend]
    split
    · simpa using ‹_›
    · exact bounded
  | receive pid room =>
    rcases isMsgs : self.queue.msgs with _ | ⟨message, rest⟩
    · simp [perform, MsgQueue.mqReceive, isMsgs]
    · rw [isMsgs, List.length_cons] at bounded
      simp only [perform, MsgQueue.mqReceive, isMsgs]
      exact Nat.le_of_succ_le bounded

structure Ordered (history : MqHistory) : Prop where
  once : history.sent = history.received ++ history.queue.msgs
  sorted : history.queue.msgs.Pairwise fun earlier later => later.prio ≤ earlier.prio

theorem Ordered.perform (ordered : self.Ordered) (heeded : self.Heeded step) :
    (self.perform step).Ordered := by
  rcases ordered with ⟨once, sorted⟩
  cases step with
  | send pid data prio =>
    simp only [MqHistory.perform, MsgQueue.mqSend]
    split
    next space =>
      rcases heeded space with ⟨waits, fits, low⟩
      rw [List.take_of_length_le fits]
      constructor
      · simp [waits, once]
      · simpa [List.pairwise_append, sorted] using low
    next => exact ⟨once, sorted⟩
  | receive pid room =>
    rcases isMsgs : self.queue.msgs with _ | ⟨message, rest⟩ <;> rw [isMsgs] at once sorted <;>
      simp only [MqHistory.perform, MsgQueue.mqReceive, isMsgs]
    · exact ⟨by simpa [isMsgs] using once, by simp⟩
    · have whole := heeded message (by rw [isMsgs]; rfl)
      rw [List.take_of_length_le whole]
      exact ⟨by simpa using once, (List.pairwise_cons.mp sorted).2⟩

theorem Ordered.lawful (ordered : self.Ordered) : self.Lawful := by
  refine ⟨ordered.once, ?_⟩
  intro pid room message next received
  have sorted := ordered.sorted
  rcases isMsgs : self.queue.msgs with _ | ⟨first, rest⟩ <;>
    simp only [MsgQueue.mqReceive, isMsgs] at received
  · cases received
  · rw [isMsgs] at sorted
    cases received
    exact ⟨rfl, (List.pairwise_cons.mp sorted).1⟩

/-- No queue is ever too long. Where every turn is heeded the queue does what is asked of it. -/
theorem message_queue_bounded_and_lawful (maxmsg msgsize : Nat) :
    (∀ self, (runs maxmsg msgsize fun _ _ => True).Reachable self →
      self.queue.msgs.length ≤ self.queue.maxmsg) ∧
      ∀ self, (runs maxmsg msgsize Heeded).Reachable self → self.Lawful := by
  constructor
  · intro self reachable
    refine @TransitionSystem.Reachable.invariant _ _ _
      (fun self => self.queue.msgs.length ≤ self.queue.maxmsg) ?_ ?_ _ reachable
    · rintro _ rfl
      exact Nat.zero_le _
    · rintro before step _ bounded ⟨_, rfl⟩
      exact bounded_perform bounded step
  · intro self reachable
    apply Ordered.lawful
    apply reachable.invariant
    · rintro _ rfl
      exact ⟨rfl, .nil⟩
    · rintro before step _ ordered ⟨heeded, rfl⟩
      exact ordered.perform heeded

/-- Processes 1 and 4 wait, 2 sends with priority 9 and 3 with priority 5, and 1 receives. -/
theorem message_queue_bounded_and_lawful_two :
    ∃ self, (runs 0 0 Heeded).Reachable self ∧ self.received = [⟨9, [97]⟩] ∧
      self.queue.msgs = [⟨5, [98]⟩] ∧ self.Lawful := by
  have start : (runs 0 0 Heeded).Reachable ⟨.mqOpen 0 0, [], []⟩ := .initial rfl
  have waits := start.via (.receive 1 8) ⟨by simp [Heeded, MsgQueue.mqOpen], rfl⟩
  have both := waits.via (.receive 4 8) ⟨by unfold Heeded; decide, rfl⟩
  have first := both.via (.send 2 [97] 9) ⟨by unfold Heeded; decide, rfl⟩
  have second := first.via (.send 3 [98] 5) ⟨by unfold Heeded; decide, rfl⟩
  have taken := second.via (.receive 1 8) ⟨by unfold Heeded; decide, rfl⟩
  exact ⟨_, taken, rfl, rfl, (message_queue_bounded_and_lawful 0 0).2 _ taken⟩

/-- Processes 1 and 4 wait, 2 sends with priority 0 and 3 with priority 9, both with success, before
1 or 4 runs. -/
theorem receives_lower_priority :
    ∃ self, (runs 0 0 fun _ _ => True).Reachable self ∧ ¬self.Lawful := by
  have start : (runs 0 0 fun _ _ => True).Reachable ⟨.mqOpen 0 0, [], []⟩ := .initial rfl
  have waits := start.via (.receive 1 8) ⟨trivial, rfl⟩
  have both := waits.via (.receive 4 8) ⟨trivial, rfl⟩
  have low := both.via (.send 2 [97] 0) ⟨trivial, rfl⟩
  have high := low.via (.send 3 [98] 9) ⟨trivial, rfl⟩
  refine ⟨_, high, ?_⟩
  intro lawful
  have highest := (@Lawful.highest _ lawful 1 8 _ _ rfl).2 ⟨9, [98]⟩
    (List.mem_singleton.mpr rfl)
  cases highest

end MqHistory

end Qunix.Ipc
