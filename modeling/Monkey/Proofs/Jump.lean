import Monkey.Proofs.Calls
import Monkey.Proofs.Dialogue

/-!
# Returning by jumping

What `return` is meant to do is to jump: once its value is there, evaluation goes on
at the end of the nearest call, or of the program. The evaluator does not jump. It
puts a marker around the value and has every construct pass markers on. `Jumping`
is the evaluator that does jump, to compare it with.

The two differ in three constructs only. A `return` jumps, and a program and a call
of a function are where jumps land. All else is evaluated by the same rule, with
the same requests, and a jump in one of them is just not caught.

A jump takes an identity, as a marker does. So both evaluators give out the same
identities, and can be compared by equality.

## Main definitions

* `Jumping`, `Jumping.embed` — computations that may jump, and how an ordinary
  computation runs when its requests may.
* `Jumping.rule`, `Jumping.evalWithin` — the meaning of trees, with jumps.
-/

namespace Monkey

open Monkey.Computation Monkey.Attempt

/-- What ends an evaluation before it has a value: a failure, or a jump with a value. -/
inductive Exit where
  | failure (e : Failure)
  | jump (v : Value)

/-- What is left where an evaluation ends, or where it jumps off. -/
structure JumpOutcome (α : Type) where
  result : Except Exit α
  store : Store

/-- A computation that may jump. -/
def Jumping (α : Type) : Type := Store → JumpOutcome α

/-- An outcome without jumps. -/
def Outcome.plain {α : Type} (o : Outcome α) : JumpOutcome α where
  result :=
    match o.result with
    | .ok a => .ok a
    | .error e => .error (.failure e)
  store := o.store

namespace Jumping

instance : Monad Jumping where
  pure a := fun st => ⟨.ok a, st⟩
  bind x f := fun st =>
    match x st with
    | ⟨.ok a, st'⟩ => f a st'
    | ⟨.error e, st'⟩ => ⟨.error e, st'⟩

theorem bind_apply {α β : Type} (x : Jumping α) (f : α → Jumping β) (st : Store) :
    (x >>= f) st =
      match x st with
      | ⟨.ok a, st'⟩ => f a st'
      | ⟨.error e, st'⟩ => ⟨.error e, st'⟩ := rfl

/-- Goes no further. -/
def exit {α : Type} (e : Exit) : Jumping α := fun st => ⟨.error e, st⟩

/-- Where jumps end: the value that one jumped with is the value here. -/
def land (x : Jumping Value) : Jumping Value := fun st =>
  match x st with
  | ⟨.error (.jump v), st'⟩ => ⟨.ok v, st'⟩
  | o => o

section Embedding
variable (evaluate : Node → Scope → Jumping Value)

/-- How far a computation comes when its requests are answered by `evaluate`, and may jump. -/
def follow {α : Type} : Progress α → JumpOutcome α
  | .done a st => ⟨.ok a, st⟩
  | .failed e st => ⟨.error (.failure e), st⟩
  | .request n sc st resume =>
    match evaluate n sc st with
    | ⟨.ok v, st'⟩ => follow (resume v st')
    | ⟨.error e, st'⟩ => ⟨.error e, st'⟩

theorem follow_bind {α β : Type} (p : Progress α) (f : α → Store → Progress β) :
    follow evaluate (p.bind f) =
      match follow evaluate p with
      | ⟨.ok a, st⟩ => follow evaluate (f a st)
      | ⟨.error e, st⟩ => ⟨.error e, st⟩ := by
  induction p with
  | done a st => rfl
  | failed e st => rfl
  | request n sc st resume ih =>
    simp only [Progress.bind, follow]
    obtain ⟨result, st'⟩ := evaluate n sc st
    cases result with
    | ok v => exact ih v st'
    | error e => rfl

/-- An ordinary computation, whose requests may jump. -/
def embed : Translation Computation Jumping where
  apply x := fun st => follow evaluate (x st)
  pure _ := rfl
  bind x f := funext fun st => follow_bind evaluate (x st) f

theorem embed_eval (n : Node) (sc : Scope) : (embed evaluate).apply (eval n sc) = evaluate n sc := by
  funext st
  simp only [embed, eval, follow]
  obtain ⟨result, st'⟩ := evaluate n sc st
  cases result <;> rfl

/-! ## Evaluation -/

/-- Calls a value. A jump out of the body of a function ends here. -/
def call (callee : Value) (args : List Value) : Jumping Value :=
  match callee with
  | .function _ params body sc =>
    if args.length = params.length then do
      let inner ← (embed evaluate).apply (openScope sc (bindParams params args))
      land (evaluate body inner)
    else (embed evaluate).apply (callee.call args)
  | callee => (embed evaluate).apply (callee.call args)

/-- The value of a call that is not a quotation. -/
def evalCall (callee : Node) (args : List Node) (sc : Scope) : Jumping Value := do
  match ← (embed evaluate).apply (evalOperands callee args sc).run with
  | .ok (f, vs) => call evaluate f vs
  | .error e => return e

/-- The value of a tree: as it always is, but for what returns and what is returned from. -/
def rule (n : Node) (sc : Scope) : Jumping Value :=
  match n with
  | .program ss => land ((embed evaluate).apply (evalStatements sc .null ss))
  | .returnStmt e => do
    match ← (embed evaluate).apply (need e sc).run with
    | .ok v =>
      let _ ← (embed evaluate).apply fresh
      exit (.jump v)
    | .error e => return e
  | .call callee args => do
    if callee.isIdent "quote" then
      if ← (embed evaluate).apply (isUnbound "quote" sc) then
        (embed evaluate).apply (settle (evalQuotation args sc))
      else evalCall evaluate callee args sc
    else evalCall evaluate callee args sc
  | n => (embed evaluate).apply (evalRule n sc)

end Embedding

/-- Evaluates a tree with jumps, with requests nested at most `depth` deep. -/
def evalWithin : (depth : Nat) → Node → Scope → Jumping Value
  | 0, _, _ => exit (.failure .depthExceeded)
  | depth + 1, n, sc => rule (evalWithin depth) n sc

end Jumping
end Monkey
