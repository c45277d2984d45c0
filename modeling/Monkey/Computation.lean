import Monkey.Progress.Drive

/-!
# The monad of computations

Computations as a monad, and the few ways to make one: to fail, to ask for the
value of a tree, to read and to change the store. `Computation.run` drives
a computation to its end, and `Computation.outcome` says what it comes to.

## Main results

* `LawfulMonad Computation`.
* `Computation.run_eq` — a computation runs to its outcome.
* `Computation.outcome_bind` and the other `outcome` lemmas, one for each way to
  make a computation. With them no proof has to look inside `Progress`.
-/

namespace Monkey

namespace Computation

instance : Monad Computation where
  pure a := fun st => .done a st
  bind x f := fun st => (x st).bind f

instance : LawfulMonad Computation := LawfulMonad.mk' Computation
  (fun x => funext fun st => Progress.bind_done (x st))
  (fun _ _ => rfl)
  (fun x f g => funext fun st => Progress.bind_assoc (x st) f g)

/-- Ends the run. -/
def fail {α : Type} (e : Failure) : Computation α := fun st => .failed e st

/-- Asks for the value of a tree in a scope. -/
def eval (n : Node) (sc : Scope) : Computation Value := fun st => .request n sc st .done

/-- Reads from the store. -/
def reading {α : Type} (f : Store → α) : Computation α := fun st => .done (f st) st

/-- Changes the store. -/
def modify (f : Store → Store) : Computation Unit := fun st => .done () (f st)

/-- Changes the store and answers what the change yields. -/
def yielding {α : Type} (f : Store → α × Store) : Computation α := fun st =>
  let r := f st
  .done r.1 r.2

/-- Hands out an identity. -/
def fresh : Computation Identity := yielding Store.freshIdentity

/-- Makes a scope inside another, with some names bound in it. -/
def openScope (parent : Scope) (bindings : Table String Value) : Computation Scope :=
  yielding (Store.child parent bindings)

/-- Takes a note, and does nothing else with it. -/
abbrev takeNote (n : Note) : Computation Unit := modify (Store.note n)

/-- The error value of a fault. -/
def raise (f : Fault) : Computation Value := do
  let i ← fresh
  return .error i f

/-- Runs a computation with requests nested at most `depth` deep. -/
def run (rule : Rule) (depth : Nat) {α : Type} (x : Computation α) (st : Store) : Outcome α :=
  (x st).drive rule depth

/-- What a computation comes to with requests nested at most `depth` deep. -/
def outcome (rule : Rule) (depth : Nat) {α : Type} (x : Computation α) (st : Store) :
    Outcome α :=
  (x st).resolve (evalWithin rule depth)

section Outcomes
variable {α β : Type} (rule : Rule) (depth : Nat) (st : Store)

theorem run_eq (x : Computation α) : x.run rule depth st = x.outcome rule depth st :=
  Progress.drive_eq rule depth (x st)

@[simp] theorem outcome_pure (a : α) :
    (pure a : Computation α).outcome rule depth st = ⟨.ok a, st⟩ := rfl

theorem outcome_bind (x : Computation α) (f : α → Computation β) :
    (x >>= f).outcome rule depth st =
      match x.outcome rule depth st with
      | ⟨.ok a, st'⟩ => (f a).outcome rule depth st'
      | ⟨.error e, st'⟩ => ⟨.error e, st'⟩ := by
  refine (Progress.resolve_bind (evalWithin rule depth) (x st) f).trans ?_
  simp only [outcome]
  generalize (x st).resolve (evalWithin rule depth) = o
  obtain ⟨result, st'⟩ := o
  cases result <;> rfl

@[simp] theorem outcome_fail (e : Failure) :
    (fail e : Computation α).outcome rule depth st = ⟨.error e, st⟩ := rfl

@[simp] theorem outcome_reading (f : Store → α) :
    (reading f).outcome rule depth st = ⟨.ok (f st), st⟩ := rfl

@[simp] theorem outcome_modify (f : Store → Store) :
    (modify f).outcome rule depth st = ⟨.ok (), f st⟩ := rfl

@[simp] theorem outcome_yielding (f : Store → α × Store) :
    (yielding f).outcome rule depth st = ⟨.ok (f st).1, (f st).2⟩ := rfl

@[simp] theorem outcome_fresh :
    fresh.outcome rule depth st =
      ⟨.ok st.nextIdentity, { st with nextIdentity := st.nextIdentity + 1 }⟩ := rfl

@[simp] theorem outcome_openScope (parent : Scope) (bindings : Table String Value) :
    (openScope parent bindings).outcome rule depth st =
      ⟨.ok ⟨st.frames.size⟩, { st with frames := st.frames.push ⟨some parent, bindings⟩ }⟩ := rfl

@[simp] theorem outcome_eval (n : Node) (sc : Scope) :
    (eval n sc).outcome rule depth st = evalWithin rule depth n sc st := by
  simp only [outcome, eval, Progress.resolve]
  generalize evalWithin rule depth n sc st = o
  obtain ⟨result, st'⟩ := o
  cases result <;> rfl

end Outcomes

/-- More depth changes nothing in what was finished without it. -/
theorem outcome_mono {α : Type} (rule : Rule) {depth depth' : Nat} (hle : depth ≤ depth')
    (x : Computation α) (st : Store) (h : (x.outcome rule depth st).Finished) :
    x.outcome rule depth' st = x.outcome rule depth st :=
  Progress.resolve_mono (fun n sc st => evalWithin_mono rule hle n sc st) (x st) h

end Computation
end Monkey
