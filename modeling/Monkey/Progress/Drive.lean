import Monkey.Progress

/-!
# Driving computations in constant room

`evalWithin` is a recursion as deep as the requests of a program nest, which can
be tens of thousands. `Progress.drive` comes to the same outcome in another way:
it keeps what remains to be done at each depth on a list, and takes one step at
a time. Each step ends by answering the innermost request or by opening one
within it; since the number of open requests is bounded and each waiting part is
a well-founded tree, no run goes on for ever.

## Main results

* `Progress.Run.wellFounded` — every run ends.
* `Progress.drive_eq` — driving a computation gives the outcome that `resolve` and
  `evalWithin` give.
-/

namespace Monkey

namespace Progress

/-- What remains to be done with a value once it is known. -/
abbrev Resume := Value → Store → Progress Value

/-- A run in progress: how many requests may still be nested, what waits for the value of the
request in hand (innermost first), and how far that request has come. -/
structure Run where
  room : Nat
  waiting : List Resume
  current : Progress Value

/-- One step of a run, none when it is over. -/
def Run.next (rule : Rule) : Run → Option Run
  | ⟨room, resume :: waiting, .done v st⟩ => some ⟨room + 1, waiting, resume v st⟩
  | ⟨room + 1, waiting, .request n sc st resume⟩ =>
    some ⟨room, resume :: waiting, rule n sc st⟩
  | _ => none

/-- The relation of a run to the run before it. -/
def Run.Follows (rule : Rule) (later earlier : Run) : Prop :=
  earlier.next rule = some later

theorem Run.acc_of_waiting {rule : Rule} : ∀ (room : Nat) (p : Progress Value)
    (waiting : List Resume),
    (∀ resume rest, waiting = resume :: rest → ∀ v st,
      Acc (Run.Follows rule) ⟨room + 1, rest, resume v st⟩) →
    Acc (Run.Follows rule) ⟨room, waiting, p⟩ := by
  intro room
  induction room with
  | zero =>
    intro p waiting h
    refine ⟨_, fun r hr => ?_⟩
    cases p <;> cases waiting <;> simp [Run.Follows, Run.next] at hr
    subst hr; exact h _ _ rfl _ _
  | succ room ihRoom =>
    intro p
    induction p with
    | done v st =>
      intro waiting h
      refine ⟨_, fun r hr => ?_⟩
      cases waiting <;> simp [Run.Follows, Run.next] at hr
      subst hr; exact h _ _ rfl _ _
    | failed e st =>
      intro waiting h
      refine ⟨_, fun r hr => ?_⟩
      simp [Run.Follows, Run.next] at hr
    | request n sc st resume ih =>
      intro waiting h
      refine ⟨_, fun r hr => ?_⟩
      simp [Run.Follows, Run.next] at hr
      subst hr
      refine ihRoom _ _ fun resume' rest hw v st => ?_
      injection hw with h₁ h₂
      subst h₁ h₂
      exact ih v st _ h

theorem Run.acc {rule : Rule} : ∀ (waiting : List Resume) (room : Nat) (p : Progress Value),
    Acc (Run.Follows rule) ⟨room, waiting, p⟩
  | [], room, p => acc_of_waiting room p [] (by simp)
  | resume :: rest, room, p => acc_of_waiting room p _ fun _ _ h v st => by
    injection h with h₁ h₂
    subst h₁ h₂
    exact acc rest _ _

/-- No run goes on for ever. -/
theorem Run.wellFounded (rule : Rule) : WellFounded (Run.Follows rule) :=
  ⟨fun r => Run.acc r.waiting r.room r.current⟩

/-- Drives a run to its end. -/
def Run.drive (rule : Rule) (r : Run) : Outcome Value :=
  match r with
  | ⟨_, [], .done v st⟩ => ⟨.ok v, st⟩
  | ⟨room, resume :: waiting, .done v st⟩ => Run.drive rule ⟨room + 1, waiting, resume v st⟩
  | ⟨_, _, .failed e st⟩ => ⟨.error e, st⟩
  | ⟨0, _, .request _ _ st _⟩ => ⟨.error .depthExceeded, st⟩
  | ⟨room + 1, waiting, .request n sc st resume⟩ =>
    Run.drive rule ⟨room, resume :: waiting, rule n sc st⟩
termination_by (Run.wellFounded rule).wrap r
decreasing_by all_goals simp [WellFounded.wrap, Run.Follows, Run.next]

/-- A run first settles the request in hand, then goes on with what waits for it. -/
theorem Run.drive_eq (rule : Rule) : ∀ (room : Nat) (p : Progress Value) (waiting : List Resume),
    Run.drive rule ⟨room, waiting, p⟩ =
      let o := p.resolve (evalWithin rule room)
      match o.result, waiting with
      | .ok _, [] => o
      | .ok v, resume :: rest => Run.drive rule ⟨room + 1, rest, resume v o.store⟩
      | .error _, _ => o := by
  intro room
  induction room with
  | zero =>
    intro p waiting
    cases p <;> cases waiting <;> rw [Run.drive] <;> simp [resolve, evalWithin]
  | succ room ihRoom =>
    intro p
    induction p with
    | done v st => intro waiting; cases waiting <;> rw [Run.drive] <;> simp [resolve]
    | failed e st => intro waiting; cases waiting <;> rw [Run.drive] <;> simp [resolve]
    | request n sc st resume ih =>
      intro waiting
      rw [Run.drive, ihRoom]
      simp only [resolve, evalWithin_succ]
      generalize (rule n sc st).resolve (evalWithin rule room) = o
      obtain ⟨result, st'⟩ := o
      cases result with
      | ok v => simp [ih]
      | error e => cases waiting <;> rfl

/-- Evaluates a tree by `rule` with requests nested at most `depth` deep, in constant room. -/
def driveRequest (rule : Rule) (depth : Nat) (n : Node) (sc : Scope) (st : Store) :
    Outcome Value :=
  Run.drive rule ⟨depth, [], .request n sc st .done⟩

/-- Driving a request is evaluating the tree. -/
theorem driveRequest_eq (rule : Rule) (depth : Nat) :
    driveRequest rule depth = evalWithin rule depth := by
  funext n sc st
  rw [driveRequest, Run.drive_eq]
  simp only [resolve]
  generalize evalWithin rule depth n sc st = o
  obtain ⟨result, st'⟩ := o
  cases result <;> rfl

/-- Runs a computation by driving each of its requests. -/
def drive (rule : Rule) (depth : Nat) {α : Type} (p : Progress α) : Outcome α :=
  p.resolve (driveRequest rule depth)

theorem drive_eq (rule : Rule) (depth : Nat) {α : Type} (p : Progress α) :
    p.drive rule depth = p.resolve (evalWithin rule depth) := by
  rw [drive, driveRequest_eq]

end Progress

end Monkey
