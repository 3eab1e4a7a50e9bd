/-! # Labelled transition systems

The induction over whole runs, packaged once. A system says which states it
starts in and which labelled steps it takes; every safety result of the
development is an invariant shown by `Reachable.invariant`.
-/

namespace Qunix.Foundation

universe u v

structure TransitionSystem (State : Type u) (Label : Type v) where
  Initial : State → Prop
  Step : State → Label → State → Prop

namespace TransitionSystem

variable {State : Type u} {Label : Type v}

inductive Reachable (system : TransitionSystem State Label) : State → Prop
  | initial {state : State} : system.Initial state → Reachable system state
  | step {state next : State} {label : Label} :
      Reachable system state → system.Step state label next → Reachable system next

theorem Reachable.via {system : TransitionSystem State Label} {state next : State}
    (reachable : system.Reachable state) (label : Label) (taken : system.Step state label next) :
    system.Reachable next :=
  reachable.step taken

/-- What holds initially and is kept by every step holds in every state that a
run reaches. -/
theorem Reachable.invariant {system : TransitionSystem State Label} {Property : State → Prop}
    (initially : ∀ state, system.Initial state → Property state)
    (preserved : ∀ state label next, Property state →
      system.Step state label next → Property next) {state : State}
    (reachable : system.Reachable state) : Property state := by
  induction reachable with
  | initial starts => exact initially _ starts
  | step _ taken induction => exact preserved _ _ _ induction taken

theorem Reachable.mono {system wider : TransitionSystem State Label}
    (initially : ∀ state, system.Initial state → wider.Initial state)
    (steps : ∀ state label next, system.Step state label next → wider.Step state label next)
    {state : State} (reachable : system.Reachable state) : wider.Reachable state := by
  induction reachable with
  | initial starts => exact .initial (initially _ starts)
  | step _ taken induction => exact induction.step (steps _ _ _ taken)

end TransitionSystem

end Qunix.Foundation
