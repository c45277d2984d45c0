import Monkey.Host
import Monkey.Macros
import Monkey.Source

/-!
# Sessions

A session runs one source text after another, each in the light of the earlier
ones. Variables and macros live in two separate scopes. A text is parsed, its
macros are defined and its macro calls replaced, and what is left is evaluated; a
macro call that cannot be replaced makes the whole text an error value.

How deeply evaluation may nest is a parameter of the running of texts, and so is what
is done with the notes that are taken on the way.

## Main definitions

* `Session`, `Session.startingIn`, `Session.new`, `Session.reset`.
* `runProgram` — what is done with a parsed text.
* `Session.run`, `Session.submit` — the two ways of running a text in a session.
-/

namespace Monkey

open Monkey.Computation

/-- Why a text gave no value. -/
inductive Rejection where
  /-- The text is no program. -/
  | source (e : SourceError)
  /-- Running it was broken off. -/
  | failure (e : Failure)

/-- What running a text yields. -/
structure Ran where
  value : Value
  /-- Whether all macro calls could be replaced. -/
  expanded : Bool

/-- Runs a parsed program with its variables in one scope and its macros in another. -/
def runProgram (values macros : Scope) (program : Node)
    (log : Note → Computation Unit := takeNote) : Computation Ran := do
  log (.parsed program.statements.length)
  let kept ← defineMacros macros program.statements log
  match ← (expandMacros macros (.program kept) log).run with
  | .ok expanded =>
    let v ← eval expanded values
    return ⟨v, true⟩
  | .error fault =>
    log (.expansionFailed fault)
    let v ← raise fault
    return ⟨v, false⟩

/-- A store with the two scopes that texts run in. -/
structure Session where
  store : Store
  values : Scope
  macros : Scope

/-- What a text leaves behind. -/
structure Submission (α : Type) where
  result : Except Rejection α
  /-- What was printed. -/
  output : String
  /-- The notes that were taken, in order. -/
  notes : List Note
  session : Session

namespace Session

/-- A session in two new scopes of a store. -/
def startingIn (st : Store) : Session :=
  let (values, store) := st.newRoot
  let (macros, store) := store.newRoot
  ⟨store, values, macros⟩

/-- A session without variables and macros. -/
def new : Session := startingIn .empty

/-- Forgets everything: new scopes take the place of the two that there were. The old frames stay
where they are, and so do all that were made from them. -/
def reset (s : Session) : Session := startingIn s.store

/-- Runs a computation on the store of a session. -/
def perform {α : Type} (x : Computation α) (s : Session) (depth : Nat := depthLimit) :
    Submission α :=
  let o := x.run evalRule depth s.store.quiet
  { result := match o.result with
      | .ok a => .ok a
      | .error e => .error (.failure e)
    output := o.store.output
    notes := o.store.notes.reverse
    session := { s with store := o.store.quiet } }

/-- Parses a text and does something with its program. -/
def withSource {α : Type} (source : String) (f : Node → Computation α) (s : Session)
    (depth : Nat := depthLimit) : Submission α :=
  match Source.parse source with
  | .ok program => s.perform (f program) depth
  | .error e => ⟨.error (.source e), "", [], s⟩

/-- Runs a text. -/
def run (source : String) (s : Session) (depth : Nat := depthLimit)
    (log : Note → Computation Unit := takeNote) : Submission Value :=
  s.withSource source (fun program => do
    let r ← runProgram s.values s.macros program log
    return r.value) depth

/-- Whether the last statement of a program is a `let`. -/
def endsInLet (program : Node) : Bool :=
  (program.statements.getLast?.map Node.isLet).getD false

/-- Runs a text, and says whether it is a text whose value is not worth showing: one that ends
in a `let` and whose macro calls could all be replaced. -/
def submit (source : String) (s : Session) (depth : Nat := depthLimit) :
    Submission (Value × Bool) :=
  s.withSource source (fun program => do
    let r ← runProgram s.values s.macros program
    return (r.value, r.expanded && endsInLet program)) depth

end Session

/-- Runs a text on its own. -/
def run (source : String) (depth : Nat := depthLimit)
    (log : Note → Computation Unit := takeNote) : Submission Value :=
  Session.new.run source depth log

end Monkey
