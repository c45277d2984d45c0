import Monkey.Computation

/-!
# Attempts: computations that errors cut short

An error value ends whatever is being computed with it: the operation, the
argument list, the literal, the statement. `Attempt` is the monad of that rule.
Inside an attempt, asking for the value of a tree yields a value that is not an
error, or gives the attempt up with that error as its outcome.

## Main definitions

* `Attempt`, `Attempt.need`, `Attempt.check` and `Attempt.settle`, which turns
  an attempt back into the computation of a value.

## Main results

* `Attempt.outcome_bind`, `Attempt.outcome_lift`, `Attempt.outcome_need`,
  `Attempt.outcome_settle` — what an attempt comes to, from what its parts come to.
-/

namespace Monkey

/-- A computation that may be given up with an error value. -/
abbrev Attempt := ExceptT Value Computation

namespace Attempt

/-- The value of a tree; an error gives the attempt up. -/
def need (n : Node) (sc : Scope) : Attempt Value := do
  let v ← Computation.eval n sc
  if v.isError then throw v else return v

/-- The values of a list of trees, from left to right; the first error gives the attempt up. -/
def needAll (sc : Scope) : List Node → Attempt (List Value)
  | [] => return []
  | n :: ns => do
    let v ← need n sc
    let vs ← needAll sc ns
    return v :: vs

/-- Gives the attempt up with the error value of a fault. -/
def reject {α : Type} (f : Fault) : Attempt α := do
  let e ← Computation.raise f
  throw e

/-- Goes on with a result, or gives the attempt up with the error value of its fault. -/
def check {α : Type} : Except Fault α → Attempt α
  | .ok a => return a
  | .error f => reject f

/-- The value of an attempt: its answer, or the error that it was given up with. -/
def settle (x : Attempt Value) : Computation Value := do
  match ← x.run with
  | .ok v => return v
  | .error e => return e

section Outcomes
variable {α β : Type} (rule : Rule) (depth : Nat) (st : Store)

@[simp] theorem outcome_pure (a : α) :
    (pure a : Attempt α).run.outcome rule depth st = ⟨.ok (.ok a), st⟩ := rfl

@[simp] theorem outcome_throw (v : Value) :
    (throw v : Attempt α).run.outcome rule depth st = ⟨.ok (.error v), st⟩ := rfl

theorem outcome_bind (x : Attempt α) (f : α → Attempt β) :
    (x >>= f).run.outcome rule depth st =
      match x.run.outcome rule depth st with
      | ⟨.ok (.ok a), st'⟩ => (f a).run.outcome rule depth st'
      | ⟨.ok (.error v), st'⟩ => ⟨.ok (.error v), st'⟩
      | ⟨.error e, st'⟩ => ⟨.error e, st'⟩ := by
  rw [ExceptT.run_bind, Computation.outcome_bind]
  generalize x.run.outcome rule depth st = o
  obtain ⟨result, st'⟩ := o
  rcases result with e | (v | a) <;> rfl

theorem outcome_lift (x : Computation α) :
    (liftM x : Attempt α).run.outcome rule depth st =
      match x.outcome rule depth st with
      | ⟨.ok a, st'⟩ => ⟨.ok (.ok a), st'⟩
      | ⟨.error e, st'⟩ => ⟨.error e, st'⟩ :=
  Computation.outcome_bind rule depth st x fun a => pure (Except.ok a : Except Value α)

/-- What is needed comes to a value that is no error, or the attempt is given up with it. -/
theorem outcome_need (n : Node) (sc : Scope) :
    (need n sc).run.outcome rule depth st =
      match evalWithin rule depth n sc st with
      | ⟨.ok v, st'⟩ => ⟨.ok (if v.isError then .error v else .ok v), st'⟩
      | ⟨.error e, st'⟩ => ⟨.error e, st'⟩ := by
  rw [need, outcome_bind]
  simp only [outcome_lift, Computation.outcome_eval]
  generalize evalWithin rule depth n sc st = o
  obtain ⟨result, st'⟩ := o
  cases result with
  | error e => rfl
  | ok v => cases h : v.isError <;> simp [h]

theorem outcome_settle (x : Attempt Value) :
    (settle x).outcome rule depth st =
      match x.run.outcome rule depth st with
      | ⟨.ok (.ok v), st'⟩ => ⟨.ok v, st'⟩
      | ⟨.ok (.error v), st'⟩ => ⟨.ok v, st'⟩
      | ⟨.error e, st'⟩ => ⟨.error e, st'⟩ := by
  rw [settle, Computation.outcome_bind]
  generalize x.run.outcome rule depth st = o
  obtain ⟨result, st'⟩ := o
  rcases result with e | (v | v) <;> rfl

end Outcomes

end Attempt
end Monkey
