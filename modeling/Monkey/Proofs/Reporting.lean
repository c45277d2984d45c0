import Monkey.Console
import Monkey.Node.Equality
import Monkey.Proofs.History

/-!
# What the console shows of a text

A text that runs to a value is shown by the text of that value, unless it is to
say nothing: a text that ends in a `let` is not. Whether it ends in a `let` is
read off the text, and not off how it went. So an error is kept quiet as well, be
it the error of that `let` or of a statement before it that the `let` was never
reached from. Only if some macro call cannot be replaced is the error shown
whatever the text ends in.

## Main definitions

* `Session.Hides` — the texts of which nothing is shown.

## Main results

* `Console.evalAndPrint_of_value` — what is written for a text that runs to a value.
* `Console.error_shown_iff` — an error is shown unless its text is hidden.
-/

namespace Monkey

open Monkey.Computation

/-- Whether a text is taken to be expanded is whether the expansion of its program succeeds. -/
theorem expanded_iff_of_runProgram {values macros : Scope} {program : Node} {depth : Nat}
    {st st' : Store} {r : Ran}
    (h : (runProgram values macros program).outcome evalRule depth st = ⟨.ok r, st'⟩) :
    r.expanded = true ↔
      ∃ n st₁, (expandProgram macros program).outcome evalRule depth st = ⟨.ok (.ok n), st₁⟩ := by
  rw [runProgram_eq, outcome_bind] at h
  generalize (expandProgram macros program).outcome evalRule depth st = o at h ⊢
  obtain ⟨result, st₁⟩ := o
  rcases result with e | (fault | n)
  · cases h
  · obtain rfl : ⟨_, false⟩ = r := Except.ok.inj (congrArg Outcome.result h)
    simp
  · dsimp only at h
    rw [outcome_bind] at h
    generalize (eval n values).outcome evalRule depth st₁ = o at h
    obtain ⟨result, st₂⟩ := o
    cases result with
    | error e => cases h
    | ok v =>
      obtain rfl : ⟨v, true⟩ = r := Except.ok.inj (congrArg Outcome.result h)
      simp

namespace Session
variable {s : Session} {source : String}

/-- All macro calls in the text can be replaced, and its last statement is a `let`. -/
def Hides (s : Session) (source : String) : Prop :=
  ∃ program n st, Source.parse source = .ok program ∧ endsInLet program = true ∧
    (expandProgram s.macros program).outcome evalRule depthLimit s.store.quiet = ⟨.ok (.ok n), st⟩

/-- What submitting a text answers and prints, in terms of what its program comes to. -/
theorem submit_of_outcome {program : Node} (h : Source.parse source = .ok program) (depth : Nat) :
    let o := (runProgram s.values s.macros program).outcome evalRule depth s.store.quiet
    (s.submit source depth).result =
        (o.result.map fun r => (r.value, r.expanded && endsInLet program)).mapError .failure ∧
      (s.submit source depth).output = o.store.output := by
  have hsubmit := s.withSource_of_outcome depth source
    fun program r => (r.value, r.expanded && endsInLet program)
  rw [h] at hsubmit
  exact ⟨congrArg Submission.result hsubmit, congrArg Submission.output hsubmit⟩

theorem result_submit {program : Node} (h : Source.parse source = .ok program) {depth : Nat}
    {r : Ran} (hr : ((runProgram s.values s.macros program).outcome evalRule depth
      s.store.quiet).result.toOption = some r) :
    (s.submit source depth).result = .ok (r.value, r.expanded && endsInLet program) := by
  rw [(submit_of_outcome h depth).1]
  revert hr
  generalize ((runProgram s.values s.macros program).outcome evalRule depth
    s.store.quiet).result = result
  intro hr
  cases result with
  | error e => cases hr
  | ok r' =>
    obtain rfl : r' = r := Option.some.inj hr
    rfl

/-- Submitting a text answers that its value is not worth showing exactly if the text is hidden. -/
theorem silent_iff_hides {v : Value} {silent : Bool}
    (h : (s.submit source).result = .ok (v, silent)) : silent = true ↔ s.Hides source := by
  cases hparse : Source.parse source with
  | error e =>
    have hrejected : s.submit source = ⟨.error (.source e), "", [], s⟩ := by
      unfold submit withSource
      rw [hparse]
    rw [hrejected] at h
    cases h
  | ok program =>
    rw [(submit_of_outcome hparse _).1] at h
    generalize ho : (runProgram s.values s.macros program).outcome evalRule depthLimit
      s.store.quiet = o at h
    obtain ⟨result, st⟩ := o
    cases result with
    | error e => cases h
    | ok r =>
      have hexpanded := expanded_iff_of_runProgram ho
      obtain rfl : (r.expanded && endsInLet program) = silent :=
        congrArg Prod.snd (Except.ok.inj h)
      rw [Bool.and_eq_true, hexpanded]
      constructor
      · rintro ⟨⟨n, st₁, hn⟩, hlet⟩
        exact ⟨program, n, st₁, hparse, hlet, hn⟩
      · rintro ⟨program', n, st₁, hparse', hlet, hn⟩
        obtain rfl : program = program' := Except.ok.inj (hparse.symm.trans hparse')
        exact ⟨⟨n, st₁, hn⟩, hlet⟩

end Session

namespace Console
variable {c : Console} {source : String}

/-- For a text that runs to a value that can be shown, the console writes what the run printed and,
unless it is to say nothing, the text of the value as a line. Then it goes on. -/
theorem evalAndPrint_of_value {host : Host} {v : Value} {silent : Bool}
    (h : (c.session.submit source host.depth).result = .ok (v, silent))
    (hv : silent = false → host.display v = .ok v.inspect) :
    let sub := c.session.submit source host.depth
    c.evalAndPrint source host =
      { out := sub.output ++ if silent then "" else v.inspect ++ "\n"
        err := ""
        rejection := none
        console := { c with session := sub.session } } := by
  unfold evalAndPrint
  dsimp only
  rw [h]
  cases silent with
  | true => simp
  | false => simp [hv, String.append_assoc]

/-- So it does for a text that runs to an error, if there is room for any text at all. -/
theorem evalAndPrint_of_error {host : Host} (hroom : 0 < host.shown) {e : Value} {silent : Bool}
    (h : (c.session.submit source host.depth).result = .ok (e, silent)) (he : e.isError = true) :
    let sub := c.session.submit source host.depth
    c.evalAndPrint source host =
      { out := sub.output ++ if silent then "" else e.inspect ++ "\n"
        err := ""
        rejection := none
        console := { c with session := sub.session } } :=
  evalAndPrint_of_value h fun _ => Host.display_of_isError hroom he

/-- There is room for a text by default. -/
theorem shown_pos : 0 < ({} : Host).shown := by decide

/-- An error that a text runs to is shown as the last line of what is written, below what the run
itself printed, exactly if the text is not hidden. Otherwise nothing is written but what the run
printed. -/
theorem error_shown_iff {e : Value} {silent : Bool}
    (h : (c.session.submit source).result = .ok (e, silent)) (he : e.isError = true) :
    ((c.evalAndPrint source).out = (c.session.submit source).output ++ e.inspect ++ "\n" ↔
        ¬ c.session.Hides source) ∧
      (c.session.Hides source → (c.evalAndPrint source).out = (c.session.submit source).output) ∧
      (c.evalAndPrint source).err = "" ∧ (c.evalAndPrint source).rejection = none := by
  rw [evalAndPrint_of_error shown_pos h he, ← Session.silent_iff_hides h]
  refine ⟨?_, ?_, rfl, rfl⟩
  · cases silent with
    | false => simp [String.append_assoc]
    | true =>
      have hlonger : (c.session.submit source).output ≠
          (c.session.submit source).output ++ e.inspect ++ "\n" := by
        intro heq
        have hlength := congrArg String.length heq
        have hline : "\n".length = 1 := rfl
        simp only [String.length_append] at hlength
        omega
      simpa using hlonger
  · rintro rfl
    simp

/-- The error of a macro call that cannot be replaced is shown, though the text ends in a `let`. -/
theorem error_shown_of_unreplaced_call :
    let source := "let m = macro() \x7b 1 \x7d; let y = m();"
    ∃ e, (new.session.submit source).result = .ok (e, false) ∧ e.isError = true ∧
      (new.evalAndPrint source).out = (new.session.submit source).output ++ e.inspect ++ "\n" := by
  intro source
  let program : Node :=
    .program [.letStmt "m" (.macroLit [] [.exprStmt (.int 1)]), .letStmt "y" (.call (.ident "m") [])]
  have hparse : Source.parse source = .ok program := Source.parse_of_toOption (by decide +kernel)
  have hrun : (((runProgram Session.new.values Session.new.macros program).outcome evalRule
      depthLimit Session.new.store.quiet).result.toOption.any fun r =>
        r.value.isError && !r.expanded) = true := by
    decide +kernel
  obtain ⟨r, hr, hkind⟩ := (Option.any_eq_true _ _).1 hrun
  obtain ⟨herror, hkept⟩ : r.value.isError = true ∧ r.expanded = false := by simpa using hkind
  have hsubmit : (new.session.submit source).result = .ok (r.value, false) := by
    rw [show new.session = Session.new from rfl, Session.result_submit hparse hr, hkept]
    rfl
  have hshown : ¬ new.session.Hides source := by
    rw [← Session.silent_iff_hides hsubmit]
    exact Bool.false_ne_true
  exact ⟨r.value, hsubmit, herror, (error_shown_iff hsubmit herror).1.2 hshown⟩

/-- A text that goes wrong before its last statement, which is a `let`, is not reported. -/
theorem error_not_shown_before_let :
    ¬ ∀ (c : Console) (source : String) (e : Value) (silent : Bool),
      (c.session.submit source).result = .ok (e, silent) → e.isError = true →
        ∃ before, (c.evalAndPrint source).out = before ++ e.inspect ++ "\n" := by
  intro h
  let program : Node := .program [.exprStmt (.ident "nope"), .letStmt "b" (.int 2)]
  let outcome : Outcome Ran :=
    (runProgram Session.new.values Session.new.macros program).outcome evalRule depthLimit
      Session.new.store.quiet
  have hparse : Source.parse "nope; let b = 2;" = .ok program :=
    Source.parse_of_toOption (by decide +kernel)
  have hrun : (outcome.result.toOption.any fun r => r.value.isError && r.expanded) = true := by
    decide +kernel
  have hprinted : outcome.store.output = "" := by decide +kernel
  obtain ⟨r, hr, hkind⟩ := (Option.any_eq_true _ _).1 hrun
  obtain ⟨herror, hexpanded⟩ : r.value.isError = true ∧ r.expanded = true := by simpa using hkind
  have hsubmit : (new.session.submit "nope; let b = 2;").result = .ok (r.value, true) := by
    rw [show new.session = Session.new from rfl, Session.result_submit hparse hr, hexpanded]
    rfl
  obtain ⟨before, hout⟩ := h new "nope; let b = 2;" r.value true hsubmit herror
  rw [evalAndPrint_of_error shown_pos hsubmit herror] at hout
  have hempty : (new.session.submit "nope; let b = 2;").output = "" :=
    (Session.submit_of_outcome hparse _).2.trans hprinted
  have hlength := congrArg String.length hout
  have hline : "\n".length = 1 := rfl
  simp only [hempty, if_true, String.length_append, String.length_empty] at hlength
  omega

end Console
end Monkey
