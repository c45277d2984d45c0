import Monkey.Console
import Monkey.Proofs.Reporting
import Monkey.Proofs.SortSafety

/-!
# What breaks the console off

The console is to outlive every text. A text that is no program and a run that nests
too deeply are reported, an error is shown like any other value, and the console takes
the next line. What it does not provide for is a number with too many digits. There
are three places where one is met: in the text itself, in what the run prints, and in
the value that is shown at the end. Each of them breaks the console off. So does a value
to be shown at the end that nests too deeply. It is met after the run, when there is
far less room than during it, and when nothing is reported any more.

There is no fifth: the run of a program never fails for a tree in the wrong place.

## Main definitions

* `Session.Oversteps` — the texts with which a number of too many digits is met, or a
  value that nests too deeply.

## Main results

* `Session.unwritable_submit_iff` — when the run of a text fails for a number.
* `Console.interrupted_iff` — the console is broken off by these texts and no others.
-/

namespace Monkey

open Monkey.Computation

namespace Session

/-- When the text is submitted, something is met that the console does not provide for. -/
inductive Oversteps (host : Host) (s : Session) (source : String) : Prop
  /-- A number with too many digits is in the text. -/
  | literal : Source.parse source = .error .literalTooLong → Oversteps host s source
  /-- The run is to print such a number. -/
  | printed (w : Visit) : w ∈ s.visits host.depth source → w.ShowsUnwritable →
    Oversteps host s source
  /-- Such a number is in the value that is to be shown at the end. -/
  | shown (v : Value) : (s.submit source host.depth).result = .ok (v, false) →
    v.showable = false → Oversteps host s source
  /-- The value that is to be shown at the end nests too deeply. -/
  | nested (v : Value) : (s.submit source host.depth).result = .ok (v, false) →
    host.shown < v.inspectDepth → Oversteps host s source

section Failures
variable {host : Host} {s : Session} {source : String} {depth : Nat}

/-- A text is rejected as such exactly if it is no program. -/
theorem source_submit_iff {e : SourceError} :
    (s.submit source depth).result = .error (.source e) ↔ Source.parse source = .error e := by
  cases hparse : Source.parse source with
  | error e' =>
    have hrejected : (s.submit source depth).result = .error (.source e') := by
      unfold submit withSource
      rw [hparse]
    rw [hrejected]
    simp
  | ok program =>
    rw [(submit_of_outcome hparse depth).1]
    generalize ((runProgram s.values s.macros program).outcome evalRule depth
      s.store.quiet).result = result
    refine iff_of_false (fun h => ?_) (fun h => by cases h)
    cases result with
    | error e => cases h
    | ok r => cases h

/-- A text is broken off exactly if the run of its program is. -/
theorem failure_submit_iff {e : Failure} :
    (s.submit source depth).result = .error (.failure e) ↔
      ∃ program, Source.parse source = .ok program ∧
        ((runProgram s.values s.macros program).outcome evalRule depth
          s.store.quiet).result = .error e := by
  cases hparse : Source.parse source with
  | error e' => simp [source_submit_iff.2 hparse]
  | ok program =>
    rw [(submit_of_outcome hparse depth).1]
    simp only [Except.ok.injEq, exists_eq_left']
    generalize ((runProgram s.values s.macros program).outcome evalRule depth
      s.store.quiet).result = result
    cases result with
    | error e' =>
      show (Except.error (Rejection.failure e') : Except Rejection _) = _ ↔ _
      simp
    | ok r => exact iff_of_false (fun h => by cases h) (fun h => by cases h)

/-- The run of a text fails for a number exactly if it visits a call that is to print one. -/
theorem unwritable_submit_iff :
    (s.submit source depth).result = .error (.failure .unwritableNumber) ↔
      ∃ w ∈ s.visits depth source, w.ShowsUnwritable := by
  rw [failure_submit_iff, visits]
  cases Source.parse source with
  | error e => simp
  | ok program => simp [showsUnwritable_iff]

/-- Whether a text oversteps can be told from the answer to it. -/
theorem oversteps_iff : s.Oversteps host source ↔
    (s.submit source host.depth).result = .error (.source .literalTooLong) ∨
      (s.submit source host.depth).result = .error (.failure .unwritableNumber) ∨
      ∃ v, (s.submit source host.depth).result = .ok (v, false) ∧
        ∀ text, host.display v ≠ .ok text := by
  rw [source_submit_iff, unwritable_submit_iff]
  simp only [ne_eq, Host.display_eq_ok_iff]
  constructor
  · rintro (h | ⟨w, hw, hshows⟩ | ⟨v, hv, hshow⟩ | ⟨v, hv, hdeep⟩)
    · exact .inl h
    · exact .inr (.inl ⟨w, hw, hshows⟩)
    · exact .inr (.inr ⟨v, hv, fun _ h => by simp [hshow] at h⟩)
    · exact .inr (.inr ⟨v, hv, fun _ h => absurd h.1 (by omega)⟩)
  · rintro (h | ⟨w, hw, hshows⟩ | ⟨v, hv, hnone⟩)
    · exact .literal h
    · exact .printed w hw hshows
    · rcases Nat.lt_or_ge host.shown v.inspectDepth with hdeep | hroom
      · exact .nested v hv hdeep
      · exact .shown v hv (by simpa [hroom] using hnone v.inspect)

end Failures

/-- In no session that is reached a text fails for a tree in the wrong place. -/
theorem placed_submit (history : List Entry) (source : String) (depth : Nat) (e : SortError) :
    ((after history).submit source depth).result ≠ .error (.failure (.illSorted e)) := by
  intro h
  obtain ⟨program, hparse, hrun⟩ := failure_submit_iff.1 h
  have hquiet : (after history).store.quiet.Every Value.Sorted :=
    Store.every_of_frames (sorted_after history) rfl
  obtain ⟨-, -, hresult⟩ := Conduct.runProgram_sorted depth (after history).values
    (after history).macros (Source.parse_wellSorted hparse) _ hquiet
  rw [hrun] at hresult
  exact hresult e rfl

end Session

namespace Console
variable (host : Host) (c : Console) (source : String)

/-- What is left of the console when a text has been submitted is a console with the next session,
whatever the text came to. -/
theorem console_evalAndPrint :
    (c.evalAndPrint source host).console =
      { c with session := c.session.next host.depth source } := by
  rw [← Session.session_submit]
  unfold evalAndPrint
  dsimp only
  split
  · rfl
  · split <;> rfl
  · rfl
  · rfl
  · rfl

/-- A run that does not fail for a tree in the wrong place breaks the console off only with
something that the console does not provide for. -/
theorem rejection_evalAndPrint (hplaced : ∀ e,
      (c.session.submit source host.depth).result ≠ .error (.failure (.illSorted e))) :
    (c.evalAndPrint source host).rejection ≠ none ↔ c.session.Oversteps host source := by
  rw [Session.oversteps_iff]
  unfold evalAndPrint
  dsimp only
  generalize (c.session.submit source host.depth).result = result at hplaced ⊢
  rcases result with ((e | _) | (_ | _ | e)) | ⟨v, _ | _⟩
  · simp
  · simp
  · simp
  · simp
  · exact absurd rfl (hplaced e)
  · cases hv : host.display v <;> simp [hv]
  · simp

/-- A console that goes on has shown or hidden a value, or reported what was wrong, below what the
run printed. -/
theorem evalAndPrint_of_not_rejected (h : (c.evalAndPrint source host).rejection = none) :
    (∃ v silent, (c.session.submit source host.depth).result = .ok (v, silent) ∧
        (c.evalAndPrint source host).err = "" ∧ (c.evalAndPrint source host).out =
          (c.session.submit source host.depth).output ++
            if silent then "" else v.inspect ++ "\n") ∨
      ∃ e message, (c.session.submit source host.depth).result = .error e ∧
        (c.evalAndPrint source host).err = errorReport c.traced message ∧
        (c.evalAndPrint source host).out = (c.session.submit source host.depth).output := by
  unfold evalAndPrint at h ⊢
  dsimp only at h ⊢
  generalize (c.session.submit source host.depth).result = result at h ⊢
  rcases result with ((e | _) | (_ | _ | e)) | ⟨v, _ | _⟩
  · exact .inr ⟨_, e.message, rfl, rfl, rfl⟩
  · cases h
  · exact .inr ⟨_, _, rfl, rfl, rfl⟩
  · cases h
  · cases h
  · cases hv : host.display v with
    | error e => simp [hv] at h
    | ok text =>
      obtain ⟨-, -, rfl⟩ := Host.display_eq_ok_iff.1 hv
      exact .inl ⟨v, false, by simp [hv, String.append_assoc]⟩
  · exact .inl ⟨v, true, by simp⟩

/-- In every session that is reached the console is broken off by a text exactly if a number with
too many digits is met, or the value to be shown nests too deeply. By every other text it is not: it
shows a value, or hides it, or reports what was wrong, below what the run printed. And then it is
there for the next line, with a session that is reached again. -/
theorem interrupted_iff (host : Host) (history : List Entry) (traced : Bool) (source : String) :
    let s := Session.after history
    let turn := evalAndPrint ⟨s, traced⟩ source host
    let sub := s.submit source host.depth
    (turn.rejection ≠ none ↔ s.Oversteps host source) ∧
      (¬ s.Oversteps host source →
        (∃ v silent, sub.result = .ok (v, silent) ∧ turn.err = "" ∧
          turn.out = sub.output ++ if silent then "" else v.inspect ++ "\n") ∨
        ∃ e message, sub.result = .error e ∧ turn.err = errorReport traced message ∧
          turn.out = sub.output) ∧
      turn.console = ⟨Session.after (⟨host.depth, source⟩ :: history), traced⟩ := by
  intro s turn sub
  have hrejected : turn.rejection ≠ none ↔ s.Oversteps host source :=
    rejection_evalAndPrint host ⟨s, traced⟩ source
      (Session.placed_submit history source host.depth)
  refine ⟨hrejected, fun h => ?_, console_evalAndPrint host ⟨s, traced⟩ source⟩
  have hgoes : turn.rejection = none := Classical.not_not.1 (mt hrejected.1 h)
  exact evalAndPrint_of_not_rejected host ⟨s, traced⟩ source hgoes

/-- Ten digits that are squared nine times have too many to be shown, and no variable is left that
holds them. -/
theorem interrupted_by_squares :
    ¬ ∀ (history : List Entry) (traced : Bool) (source : String),
      (evalAndPrint ⟨Session.after history, traced⟩ source).rejection = none := by
  intro h
  let square : Node := .letStmt "a" (.infixOp (.ident "a") "*" (.ident "a"))
  let program : Node := .program [.exprStmt (.ifExpr (.bool true)
    (.letStmt "a" (.int 9999999999) :: List.replicate 9 square ++ [.exprStmt (.ident "a")]) none)]
  let source := "if (true) \x7b let a = 9999999999; let a = a * a; let a = a * a; let a = a * a; " ++
    "let a = a * a; let a = a * a; let a = a * a; let a = a * a; let a = a * a; let a = a * a; a \x7d"
  have hparse : Source.parse source = .ok program := Source.parse_of_toOption (by decide +kernel)
  have hrun : (((runProgram Session.new.values Session.new.macros program).outcome evalRule
      depthLimit Session.new.store.quiet).result.toOption.any fun r => !r.value.showable) = true := by
    decide +kernel
  obtain ⟨r, hr, hlong⟩ := (Option.any_eq_true _ _).1 hrun
  have hsubmit : (Session.new.submit source).result = .ok (r.value, false) := by
    rw [Session.result_submit hparse hr, show Session.endsInLet program = false from rfl,
      Bool.and_false]
  have hrejected : (evalAndPrint ⟨Session.new, false⟩ source).rejection ≠ none :=
    (rejection_evalAndPrint {} ⟨Session.new, false⟩ source
      (Session.placed_submit [] source depthLimit)).2 (.shown r.value hsubmit (by simpa using hlong))
  exact hrejected (h [] false source)

end Console
end Monkey
