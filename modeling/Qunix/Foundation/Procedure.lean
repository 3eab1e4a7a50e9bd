/-! # Procedures

Computations that change a state and may fail. The state at a failure is kept, as in a
program that returns early from a sequence of writes.
-/

namespace Qunix.Foundation

def Procedure (State Error Result : Type) : Type := State → Except Error Result × State

namespace Procedure

variable {State Error Result Next : Type}

instance : Monad (Procedure State Error) where
  pure result := fun state => (.ok result, state)
  bind first rest := fun state =>
    match first state with
    | (.ok result, next) => rest result next
    | (.error error, next) => (.error error, next)

def fail (error : Error) : Procedure State Error Result := fun state => (.error error, state)

def observe (view : State → Except Error Result) : Procedure State Error Result := fun state =>
  (view state, state)

def attempt (procedure : Procedure State Error Result) :
    Procedure State Error (Except Error Result) := fun state =>
  (.ok (procedure state).1, (procedure state).2)

/-! ## Successful runs -/

variable {first : Procedure State Error Result} {rest : Result → Procedure State Error Next}
  {state final : State}

theorem pure_run (result : Result) (state : State) :
    (pure result : Procedure State Error Result) state = (.ok result, state) := rfl

theorem bind_run : (first >>= rest) state =
    match first state with
    | (.ok result, next) => rest result next
    | (.error error, next) => (.error error, next) := rfl

theorem bind_ok {result : Next} : (first >>= rest) state = (.ok result, final) ↔
    ∃ middle next, first state = (.ok middle, next) ∧ rest middle next = (.ok result, final) := by
  rw [bind_run]
  constructor
  · intro succeeds
    split at succeeds
    next middle next done => exact ⟨middle, next, done, succeeds⟩
    next => cases succeeds
  · rintro ⟨middle, next, done, succeeds⟩
    rw [done]
    exact succeeds

variable {result : Result} {next : State} {stronger : State → Prop}

theorem bind_of_ok (done : first state = (.ok result, next)) :
    (first >>= rest) state = rest result next := by
  rw [bind_run, done]

variable {error : Error} {after : Result → State → Prop}

theorem bind_of_error (failed : first state = (.error error, next)) :
    (first >>= rest) state = (.error error, next) := by
  rw [bind_run, failed]

theorem bind_error : (first >>= rest) state = (.error error, final) ↔
    first state = (.error error, final) ∨
      ∃ middle next, first state = (.ok middle, next) ∧
        rest middle next = (.error error, final) := by
  rw [bind_run]
  constructor
  · intro fails
    split at fails
    next middle next done => exact .inr ⟨middle, next, done, fails⟩
    next other next done =>
      cases fails
      exact .inl done
  · rintro (failed | ⟨middle, next, done, fails⟩)
    · rw [failed]
    · rw [done]
      exact fails

/-! ## Pre- and postconditions -/

/-- From every state with the precondition a success has the postcondition and a failure
leaves a state that is described as well. -/
def Triple (before : State → Prop) (procedure : Procedure State Error Result)
    (after : Result → State → Prop) (failed : State → Prop) : Prop :=
  ∀ state, before state →
    match procedure state with
    | (.ok result, next) => after result next
    | (.error _, next) => failed next

variable {before : State → Prop} {failed : State → Prop}

theorem Triple.pure (holds : ∀ state, before state → after result state) :
    Triple before (pure result : Procedure State Error Result) after failed :=
  fun state starts => holds state starts

theorem Triple.fail (holds : ∀ state, before state → failed state) :
    Triple before (Procedure.fail error) after failed :=
  fun state starts => holds state starts

theorem Triple.bind {middle : Result → State → Prop} {after : Next → State → Prop}
    (begins : Triple before first middle failed)
    (ends : ∀ result, Triple (middle result) (rest result) after failed) :
    Triple before (first >>= rest) after failed := by
  intro state starts
  have begun := begins state starts
  rw [bind_run]
  split at begun
  next result next _ => exact ends result next begun
  next => exact begun

theorem Triple.weaken {weaker : Result → State → Prop} {wider : State → Prop}
    (triple : Triple before first after failed)
    (precondition : ∀ state, stronger state → before state)
    (postcondition : ∀ result state, after result state → weaker result state)
    (failure : ∀ state, failed state → wider state) :
    Triple stronger first weaker wider := by
  intro state starts
  have holds := triple state (precondition state starts)
  split at holds
  next result next _ => exact postcondition result next holds
  next error next _ => exact failure next holds

theorem Triple.restrict (triple : Triple before first after failed)
    (precondition : ∀ state, stronger state → before state) :
    Triple stronger first after failed :=
  fun state starts => triple state (precondition state starts)

theorem Triple.of_runs
    (success : ∀ state, before state → ∀ result next, first state = (.ok result, next) →
      after result next)
    (failure : ∀ state, before state → ∀ error next, first state = (.error error, next) →
      failed next) :
    Triple before first after failed := by
  intro state starts
  split
  next result next done => exact success state starts result next done
  next error next done => exact failure state starts error next done

theorem Triple.observe {view : State → Except Error Result}
    (holds : ∀ state, before state → failed state) :
    Triple before (Procedure.observe view) (fun _ => before) failed := by
  apply Triple.of_runs
  · intro state starts result next done
    cases (Prod.mk.inj done).2
    exact starts
  · intro state starts error next done
    cases (Prod.mk.inj done).2
    exact holds state starts

theorem Triple.assume {fact : Prop} (triple : fact → Triple before first after failed) :
    Triple (fun state => before state ∧ fact) first after failed :=
  fun state starts => triple starts.2 state starts.1

theorem Triple.either {Property : State → Prop} (triple : Triple before first after failed)
    (starts : before state) (success : ∀ result next, after result next → Property next)
    (failure : ∀ next, failed next → Property next) : Property (first state).2 := by
  have holds := triple state starts
  split at holds
  next result next done =>
    rw [done]
    exact success result next holds
  next error next done =>
    rw [done]
    exact failure next holds

end Procedure

end Qunix.Foundation
