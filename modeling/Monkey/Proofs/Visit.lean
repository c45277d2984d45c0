import Monkey.Computation

/-!
# The evaluations inside a run

`evalWithin` tells what an evaluation comes to, and nothing about what went on
inside it. Statements such as "no call ever returns this" or "at no time does
the store hold that" speak of every evaluation that takes place on the way.
A `Visit` is one of them, and `Computation.visits` lists all visits of a
computation, each before the visits inside it and all in the order in which
they begin.

## Main results

* `Computation.visits_bind` — the visits of a sequence are those of its parts.
* `Computation.visits_eval_succ` — the visits of an evaluation are itself and
  those of its rule.
* `Computation.visits_closed` — what is inside a visit is visited, too.
* `Computation.fails_of_visit` — a visit that fails ends the whole computation.
-/

namespace Monkey

/-- One evaluation in the course of a run: of a tree, in a scope, from a store, with requests
nested at most `depth` deep inside it. -/
structure Visit where
  depth : Nat
  node : Node
  scope : Scope
  store : Store

/-- What the evaluation comes to. -/
def Visit.outcome (rule : Rule) (w : Visit) : Outcome Value :=
  (rule w.node w.scope).outcome rule w.depth w.store

namespace Progress

/-- The visits of a computation whose requests are answered by `evaluate`, when `trace` gives
the visits of each request. -/
def visits {α : Type} (trace : Node → Scope → Store → List Visit)
    (evaluate : Node → Scope → Store → Outcome Value) : Progress α → List Visit
  | done _ _ => []
  | failed _ _ => []
  | request n sc st resume =>
    trace n sc st ++
      match (evaluate n sc st).result with
      | .ok v => (resume v (evaluate n sc st).store).visits trace evaluate
      | .error _ => []

theorem visits_bind {α β : Type} (trace : Node → Scope → Store → List Visit)
    (evaluate : Node → Scope → Store → Outcome Value) (p : Progress α)
    (f : α → Store → Progress β) :
    (p.bind f).visits trace evaluate =
      p.visits trace evaluate ++
        match (p.resolve evaluate).result with
        | .ok a => (f a (p.resolve evaluate).store).visits trace evaluate
        | .error _ => [] := by
  induction p with
  | done a st => rfl
  | failed e st => rfl
  | request n sc st resume ih =>
    simp only [bind, visits, resolve, List.append_assoc]
    cases (evaluate n sc st).result with
    | ok v => simp [ih]
    | error e => simp

/-- If the visits of each request come with all that is inside them, so do those of
a computation. -/
theorem visits_closed {trace : Node → Scope → Store → List Visit}
    {evaluate : Node → Scope → Store → Outcome Value} {inside : Visit → List Visit}
    (h : ∀ n sc st, ∀ w ∈ trace n sc st, inside w ⊆ trace n sc st) {α : Type} (p : Progress α) :
    ∀ w ∈ p.visits trace evaluate, inside w ⊆ p.visits trace evaluate := by
  induction p with
  | done a st => simp [visits]
  | failed e st => simp [visits]
  | request n sc st resume ih =>
    intro w hw u hu
    rw [visits] at hw ⊢
    rcases List.mem_append.1 hw with hw | hw
    · exact List.mem_append_left _ (h n sc st w hw hu)
    · refine List.mem_append_right _ ?_
      cases hresult : (evaluate n sc st).result with
      | error e =>
        rw [hresult] at hw
        cases hw
      | ok v =>
        rw [hresult] at hw
        exact ih v _ w hw hu

/-- If a visit ends every request that it is inside of, it ends the computation. -/
theorem fails_of_visit {trace : Node → Scope → Store → List Visit}
    {evaluate : Node → Scope → Store → Outcome Value} {w : Visit} {e : Failure}
    (h : ∀ n sc st, w ∈ trace n sc st → (evaluate n sc st).result = .error e) {α : Type}
    (p : Progress α) (hw : w ∈ p.visits trace evaluate) : (p.resolve evaluate).result = .error e := by
  induction p with
  | done a st => cases hw
  | failed e st => cases hw
  | request n sc st resume ih =>
    rw [visits] at hw
    rw [resolve]
    rcases List.mem_append.1 hw with hw | hw
    · rw [h n sc st hw]
    · cases hresult : (evaluate n sc st).result with
      | error e =>
        rw [hresult] at hw
        cases hw
      | ok v =>
        rw [hresult] at hw
        exact ih v _ hw

end Progress

/-- The visits of the evaluation of a tree, that evaluation first. -/
def visitsWithin (rule : Rule) : (depth : Nat) → Node → Scope → Store → List Visit
  | 0, _, _, _ => []
  | depth + 1, n, sc, st =>
    ⟨depth, n, sc, st⟩ ::
      (rule n sc st).visits (visitsWithin rule depth) (evalWithin rule depth)

namespace Computation

/-- The visits of a computation with requests nested at most `depth` deep. -/
def visits (rule : Rule) (depth : Nat) {α : Type} (x : Computation α) (st : Store) : List Visit :=
  (x st).visits (visitsWithin rule depth) (evalWithin rule depth)

section Visits
variable {α β : Type} (rule : Rule) (depth : Nat) (st : Store)

@[simp] theorem visits_pure (a : α) : (pure a : Computation α).visits rule depth st = [] := rfl

theorem visits_bind (x : Computation α) (f : α → Computation β) :
    (x >>= f).visits rule depth st =
      x.visits rule depth st ++
        match x.outcome rule depth st with
        | ⟨.ok a, st'⟩ => (f a).visits rule depth st'
        | ⟨.error _, _⟩ => [] := by
  refine (Progress.visits_bind _ (evalWithin rule depth) (x st) f).trans ?_
  simp only [visits, outcome]
  generalize (x st).resolve (evalWithin rule depth) = o
  obtain ⟨result, st'⟩ := o
  cases result <;> rfl

@[simp] theorem visits_fail (e : Failure) : (fail e : Computation α).visits rule depth st = [] :=
  rfl

@[simp] theorem visits_reading (f : Store → α) : (reading f).visits rule depth st = [] := rfl

@[simp] theorem visits_modify (f : Store → Store) : (modify f).visits rule depth st = [] := rfl

@[simp] theorem visits_yielding (f : Store → α × Store) :
    (yielding f).visits rule depth st = [] := rfl

@[simp] theorem visits_eval (n : Node) (sc : Scope) :
    (eval n sc).visits rule depth st = visitsWithin rule depth n sc st := by
  simp only [visits, eval, Progress.visits]
  cases (evalWithin rule depth n sc st).result <;> simp

/-- An evaluation visits its own tree first, and then what its rule visits. -/
theorem visits_eval_succ (n : Node) (sc : Scope) :
    (eval n sc).visits rule (depth + 1) st =
      ⟨depth, n, sc, st⟩ :: (rule n sc).visits rule depth st :=
  visits_eval rule (depth + 1) st n sc

theorem outcome_eval_succ (n : Node) (sc : Scope) :
    (eval n sc).outcome rule (depth + 1) st = (rule n sc).outcome rule depth st :=
  outcome_eval rule (depth + 1) st n sc

end Visits

end Computation

/-- The visits inside a visit. -/
def Visit.inside (rule : Rule) (w : Visit) : List Visit :=
  (rule w.node w.scope).visits rule w.depth w.store

theorem visitsWithin_closed (rule : Rule) (depth : Nat) : ∀ n sc st,
    ∀ w ∈ visitsWithin rule depth n sc st, w.inside rule ⊆ visitsWithin rule depth n sc st := by
  induction depth with
  | zero => simp [visitsWithin]
  | succ depth ih =>
    intro n sc st w hw
    have hrule : ∀ w ∈ (rule n sc).visits rule depth st,
        w.inside rule ⊆ (rule n sc).visits rule depth st :=
      Progress.visits_closed ih (rule n sc st)
    rcases List.mem_cons.1 hw with rfl | hw
    · exact fun u hu => List.mem_cons_of_mem _ hu
    · exact fun u hu => List.mem_cons_of_mem _ (hrule w hw hu)

/-- A computation visits all that is inside what it visits. -/
theorem Computation.visits_closed (rule : Rule) (depth : Nat) {α : Type} (x : Computation α)
    (st : Store) : ∀ w ∈ x.visits rule depth st, w.inside rule ⊆ x.visits rule depth st :=
  Progress.visits_closed (visitsWithin_closed rule depth) (x st)

theorem evalWithin_fails_of_visit (rule : Rule) {w : Visit} {e : Failure}
    (he : (w.outcome rule).result = .error e) (depth : Nat) : ∀ n sc st,
    w ∈ visitsWithin rule depth n sc st → (evalWithin rule depth n sc st).result = .error e := by
  induction depth with
  | zero => simp [visitsWithin]
  | succ depth ih =>
    intro n sc st hw
    rcases List.mem_cons.1 hw with rfl | hw
    · exact he
    · exact Progress.fails_of_visit ih (rule n sc st) hw

/-- Nothing goes on behind a visit that fails: the computation fails for the same reason. -/
theorem Computation.fails_of_visit {rule : Rule} {depth : Nat} {α : Type} {x : Computation α}
    {st : Store} {w : Visit} {e : Failure} (hw : w ∈ x.visits rule depth st)
    (he : (w.outcome rule).result = .error e) : (x.outcome rule depth st).result = .error e :=
  Progress.fails_of_visit (evalWithin_fails_of_visit rule he depth) (x st) hw

end Monkey
