import Monkey.Store
import Monkey.Node.Rebuild

/-!
# Progress: computations that ask for values

A computation works on the store, and may ask for a tree to be evaluated in
a scope. It does not evaluate the tree itself: it stops, hands out the request
together with what it will do with the answer, and whoever runs it carries on.
What a tree means is given by a *rule* `Node → Scope → Computation Value` that
describes one tree in terms of requests for its parts (`Monkey.Eval`).

`Progress.resolve` runs a computation, answering each request by a given function,
and `evalWithin d` answers requests up to nesting depth `d` by recursion on `d`.
This is the definition to reason about; `Monkey.Progress.Drive` has the one that
runs programs. Requests nested deeper than the given depth end the run with
`Failure.depthExceeded`; everything else a run can do is finite, so a run always
ends.

## Main results

* `Progress.resolve_bind` — running a sequence is running its parts in sequence.
* `evalWithin_mono` — more depth changes no run but those that lacked it.
-/

namespace Monkey

/-- What ends a run without a value. -/
inductive Failure where
  /-- Evaluation nested too deeply. -/
  | depthExceeded
  /-- A number of too many digits had to be shown. -/
  | unwritableNumber
  /-- A tree was replaced by one that cannot stand in its place. -/
  | illSorted (e : SortError)

/-- How far a computation has come: it is finished, or it has failed, or it waits for the
value of a tree. -/
inductive Progress (α : Type) where
  | done (answer : α) (store : Store)
  | failed (failure : Failure) (store : Store)
  | request (node : Node) (scope : Scope) (store : Store) (resume : Value → Store → Progress α)

/-- What a run leaves: an answer or a failure, and the store. -/
structure Outcome (α : Type) where
  result : Except Failure α
  store : Store

/-- A computation: from a store, how far it comes. -/
def Computation (α : Type) : Type := Store → Progress α

namespace Progress

/-- Continues a computation with `f` once it is done. -/
def bind {α β : Type} : Progress α → (α → Store → Progress β) → Progress β
  | done a st, f => f a st
  | failed e st, _ => failed e st
  | request n sc st resume, f => request n sc st fun v st => (resume v st).bind f

/-- Runs a computation with `evaluate` to answer its requests. -/
def resolve {α : Type} (evaluate : Node → Scope → Store → Outcome Value) : Progress α → Outcome α
  | done a st => ⟨.ok a, st⟩
  | failed e st => ⟨.error e, st⟩
  | request n sc st resume =>
    let o := evaluate n sc st
    match o.result with
    | .ok v => (resume v o.store).resolve evaluate
    | .error e => ⟨.error e, o.store⟩

theorem bind_done {α : Type} (p : Progress α) : p.bind done = p := by
  induction p with
  | done => rfl
  | failed => rfl
  | request n sc st resume ih => simp only [bind, ih]

theorem bind_assoc {α β γ : Type} (p : Progress α) (f : α → Store → Progress β)
    (g : β → Store → Progress γ) :
    (p.bind f).bind g = p.bind fun a st => (f a st).bind g := by
  induction p with
  | done => rfl
  | failed => rfl
  | request n sc st resume ih => simp only [bind, ih]

theorem resolve_bind {α β : Type} (evaluate : Node → Scope → Store → Outcome Value)
    (p : Progress α) (f : α → Store → Progress β) :
    (p.bind f).resolve evaluate =
      match (p.resolve evaluate).result with
      | .ok a => (f a (p.resolve evaluate).store).resolve evaluate
      | .error e => ⟨.error e, (p.resolve evaluate).store⟩ := by
  induction p with
  | done => rfl
  | failed => rfl
  | request n sc st resume ih =>
    simp only [bind, resolve]
    cases (evaluate n sc st).result <;> simp [ih]

end Progress

/-- What a tree means: the computation of its value in a scope. -/
abbrev Rule := Node → Scope → Computation Value

/-- Evaluates a tree by `rule`, with requests nested at most `depth` deep. -/
def evalWithin (rule : Rule) : (depth : Nat) → Node → Scope → Store → Outcome Value
  | 0, _, _, st => ⟨.error .depthExceeded, st⟩
  | depth + 1, n, sc, st => (rule n sc st).resolve (evalWithin rule depth)

@[simp] theorem evalWithin_zero (rule : Rule) (n : Node) (sc : Scope) (st : Store) :
    evalWithin rule 0 n sc st = ⟨.error .depthExceeded, st⟩ := rfl

theorem evalWithin_succ (rule : Rule) (depth : Nat) (n : Node) (sc : Scope) (st : Store) :
    evalWithin rule (depth + 1) n sc st = (rule n sc st).resolve (evalWithin rule depth) := rfl

/-- A run that did not lack depth. -/
def Outcome.Finished {α : Type} (o : Outcome α) : Prop := o.result ≠ .error .depthExceeded

/-- Answering more requests changes no run that was finished without them. -/
theorem Progress.resolve_mono {α : Type} {ev ev' : Node → Scope → Store → Outcome Value}
    (h : ∀ n sc st, (ev n sc st).Finished → ev' n sc st = ev n sc st) (p : Progress α)
    (hp : (p.resolve ev).Finished) : p.resolve ev' = p.resolve ev := by
  induction p with
  | done a st => rfl
  | failed e st => rfl
  | request n sc st resume ih =>
    have hreq : (ev n sc st).Finished := by
      intro hbad
      apply hp
      simp [resolve, hbad]
    simp only [resolve, h n sc st hreq] at hp ⊢
    cases hr : (ev n sc st).result with
    | ok v =>
      simp only [hr] at hp ⊢
      exact ih v _ hp
    | error e => simp

theorem evalWithin_mono_succ (rule : Rule) (depth : Nat) (n : Node) (sc : Scope) (st : Store)
    (h : (evalWithin rule depth n sc st).Finished) :
    evalWithin rule (depth + 1) n sc st = evalWithin rule depth n sc st := by
  induction depth generalizing n sc st with
  | zero => exact absurd rfl h
  | succ depth ih =>
    rw [evalWithin_succ] at h ⊢
    rw [evalWithin_succ rule depth]
    exact Progress.resolve_mono ih _ h

/-- A tree that is evaluated without lack of depth has the same outcome at every greater depth. -/
theorem evalWithin_mono (rule : Rule) {depth depth' : Nat} (hle : depth ≤ depth') (n : Node)
    (sc : Scope) (st : Store) (h : (evalWithin rule depth n sc st).Finished) :
    evalWithin rule depth' n sc st = evalWithin rule depth n sc st := by
  induction hle with
  | refl => rfl
  | step _ ih => rw [evalWithin_mono_succ _ _ _ _ _ (ih ▸ h), ih]

end Monkey
