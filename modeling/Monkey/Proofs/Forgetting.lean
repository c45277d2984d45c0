import Monkey.Console
import Monkey.Proofs.Composition

/-!
# Sessions that are reset

A session that is reset has two new scopes, and goes on with a store that is full of
old frames and of values that were made in them. Nothing leads there: the new scopes
are empty and have nothing around them, and whatever a text makes or looks up is
reached from them. So the session is the same as a new one up to a renaming of scopes
and identities, and two sessions that are the same answer every text alike and are the
same afterwards.

## Main definitions

* `Session.Same` — sessions that are the same up to renaming.
* `Session.thence` — the session after some texts, from any session on.
* `Session.AnswersLike` — a text is answered alike in two sessions.

## Main results

* `Session.same_startingIn` — sessions that start in new scopes are the same, in whatever stores.
* `Session.Same.next` — a text leaves sessions that are the same.
* `Session.forgets_after_reset` — a session that was reset answers every text as a new one does.
-/

namespace Monkey

open Monkey.Computation

/-! ## New scopes in any two stores -/

/-- Nothing corresponds. -/
def Renaming.nothing : Renaming where
  scopes _ _ := False
  identities _ _ := False
  scopes_oneToOne := nofun
  identities_oneToOne := nofun

namespace Store
variable {before before' : String} {ρ : Renaming} {st st' : Store}

theorem renamed_nothing (st st' : Store) : Renamed st.output st'.output .nothing st st' :=
  ⟨⟨nofun, nofun, nofun⟩, "", by simp⟩

/-- New outermost scopes correspond. -/
theorem Renamed.newRoot (h : Renamed before before' ρ st st') :
    ∃ σ, ρ ≤ σ ∧ Renamed before before' σ st.newRoot.2 st'.newRoot.2 ∧
      σ.scopes st.newRoot.1 st'.newRoot.1 := by
  obtain ⟨hfresh, hfresh'⟩ := h.relates.scope_fresh
  have hle : ρ ≤ ρ.join ⟨st.frames.size⟩ ⟨st'.frames.size⟩ hfresh hfresh' :=
    ⟨fun _ _ => .inl, fun _ _ => id⟩
  exact ⟨_, hle, ⟨(h.grow hle).addFrame ⟨.nil, .none⟩, h.output⟩, .inr ⟨rfl, rfl⟩⟩

end Store

namespace Session
variable {s s' : Session}

/-! ## Sessions that are the same -/

/-- Up to a renaming of scopes and identities the two scopes of the one session lead to the same as
those of the other. -/
def Same (s s' : Session) : Prop :=
  ∃ ρ, Store.Renamed "" "" ρ s.store.quiet s'.store.quiet ∧ ρ.scopes s.values s'.values ∧
    ρ.scopes s.macros s'.macros

/-- It does not matter in which store a session starts. -/
theorem same_startingIn (st st' : Store) : Same (startingIn st) (startingIn st') := by
  obtain ⟨ρ, -, h, hvalues⟩ := (Store.renamed_nothing st st').newRoot
  obtain ⟨σ, hle, h', hmacros⟩ := h.newRoot
  exact ⟨σ, h'.quiet, hle.scopes _ _ hvalues, hmacros⟩

/-- In both scopes the same names are bound in the same order, to values that show the same. -/
structure BindsLike (s s' : Session) : Prop where
  values : Table.Alike Value.ShowsLike (s.store.bindings s.values) (s'.store.bindings s'.values)
  macros : Table.Alike Value.ShowsLike (s.store.bindings s.macros) (s'.store.bindings s'.macros)

theorem Same.bindsLike (h : s.Same s') : s.BindsLike s' := by
  obtain ⟨ρ, hρ, hvalues, hmacros⟩ := h
  exact ⟨bindings_alike hρ hvalues, bindings_alike hρ hmacros⟩

end Session

/-- Two runs of a text print the same, and come to values that show the same and say so of the
expansion, or are broken off for the same reason. -/
structure Outcome.RunsLike (o o' : Outcome Ran) : Prop where
  result : Both Eq (fun r r' => r.value.ShowsLike r'.value ∧ r.expanded = r'.expanded)
    o.result o'.result
  output : o.store.output = o'.store.output

/-- Two texts left the same behind: an answer or a refusal, what was printed, and what the names of
the session are bound to. -/
structure Submission.LooksLike {α : Type} (like : α → α → Prop) (sub sub' : Submission α) :
    Prop where
  result : Both Eq like sub.result sub'.result
  output : sub.output = sub'.output
  session : sub.session.BindsLike sub'.session

namespace Session
variable {s s' : Session}

/-! ## Texts in sessions that are the same -/

/-- A program runs alike in sessions that are the same, and leaves such sessions. -/
theorem Same.runProgram (h : s.Same s') (program : Node) (depth : Nat) :
    let o := (Monkey.runProgram s.values s.macros program).outcome evalRule depth s.store.quiet
    let o' := (Monkey.runProgram s'.values s'.macros program).outcome evalRule depth s'.store.quiet
    o.RunsLike o' ∧ Same { s with store := o.store.quiet } { s' with store := o'.store.quiet } := by
  obtain ⟨ρ, hρ, hvalues, hmacros⟩ := h
  obtain ⟨σ, hle, hσ, hresult⟩ := hρ.runProgram hvalues hmacros program depth
  obtain ⟨printed, hout, hout'⟩ := hσ.output
  refine ⟨⟨?_, hout.trans hout'.symm⟩, ?_⟩
  · exact hresult.mono fun r r' hr => ⟨hr.1.showsLike, hr.2⟩
  · exact ⟨σ, hσ.quiet, hle.scopes _ _ hvalues, hle.scopes _ _ hmacros⟩

/-- A text comes to the same in sessions that are the same, or is no program in both. -/
theorem Same.attempt (h : s.Same s') (depth : Nat) (source : String) :
    Option.Rel Outcome.RunsLike (s.attempt depth source) (s'.attempt depth source) := by
  unfold Session.attempt
  cases Source.parse source with
  | ok program => exact .some (h.runProgram program depth).1
  | error _ => exact .none

/-- A text leaves sessions that are the same. -/
theorem Same.next (h : s.Same s') (depth : Nat) (source : String) :
    (s.next depth source).Same (s'.next depth source) := by
  unfold Session.next Session.attempt
  cases Source.parse source with
  | ok program => exact (h.runProgram program depth).2
  | error _ => exact h

/-- However a text is answered, it leaves the same behind in sessions that are the same. -/
theorem Same.withSource (h : s.Same s') (source : String) {α : Type} {like : α → α → Prop}
    (answer : Node → Ran → α)
    (hlike : ∀ program r r', r.value.ShowsLike r'.value → r.expanded = r'.expanded →
      like (answer program r) (answer program r')) :
    Submission.LooksLike like
      (s.withSource source fun program => do
        let r ← Monkey.runProgram s.values s.macros program
        return answer program r)
      (s'.withSource source fun program => do
        let r ← Monkey.runProgram s'.values s'.macros program
        return answer program r) := by
  rw [withSource_of_outcome, withSource_of_outcome]
  cases Source.parse source with
  | error e => exact ⟨.error rfl, rfl, h.bindsLike⟩
  | ok program =>
    obtain ⟨⟨hresult, hout⟩, hnext⟩ := h.runProgram program depthLimit
    exact ⟨(hresult.map fun r r' hr => hlike program r r' hr.1 hr.2).mapError, hout,
      hnext.bindsLike⟩

/-- A text is answered alike in two sessions. In every depth it runs to the same and leaves the
same bindings, or is broken off for the same reason; and so it goes with the two ways of running it,
of which the one also says in both sessions, or in neither, that the value is not worth showing. -/
structure AnswersLike (source : String) (s s' : Session) : Prop where
  attempt : ∀ depth, Option.Rel Outcome.RunsLike (s.attempt depth source) (s'.attempt depth source)
  next : ∀ depth, (s.next depth source).BindsLike (s'.next depth source)
  run : (s.run source).LooksLike Value.ShowsLike (s'.run source)
  submit : (s.submit source).LooksLike
    (fun answer answer' => answer.1.ShowsLike answer'.1 ∧ answer.2 = answer'.2) (s'.submit source)

theorem Same.answersLike (h : s.Same s') (source : String) : s.AnswersLike source s' where
  attempt depth := h.attempt depth source
  next depth := (h.next depth source).bindsLike
  run := h.withSource source (fun _ r => r.value) fun _ _ _ hvalue _ => hvalue
  submit := h.withSource source (fun program r => (r.value, r.expanded && endsInLet program))
    fun _ _ _ hvalue hexpanded => ⟨hvalue, congrArg (· && _) hexpanded⟩

/-! ## Sessions that are reset -/

/-- The session after some texts, the last of which is given first, from some session on. -/
def thence (s : Session) : List Entry → Session
  | [] => s
  | e :: history => (s.thence history).next e.depth e.source

theorem thence_new (history : List Entry) : new.thence history = after history := by
  induction history with
  | nil => rfl
  | cons e history ih => rw [thence, ih, after]

theorem Same.thence (h : s.Same s') (history : List Entry) :
    (s.thence history).Same (s'.thence history) := by
  induction history with
  | nil => exact h
  | cons e history ih => exact ih.next e.depth e.source

/-- Resetting forgets everything. Whatever was run before, in whatever session: after the command
every text of every further sequence is answered as it is in a new session. -/
theorem forgets_after_reset (s : Session) (traced : Bool) (history further : List Entry)
    (source : String) :
    let turn := Console.handleCommand ⟨s.thence history, traced⟩ "/reset"
    turn.1 = true ∧ turn.2.rejection = none ∧
      AnswersLike source (turn.2.console.session.thence further) (after further) := by
  have hcommand : Command.ofLine? "/reset" = some .reset := by decide +kernel
  intro turn
  have hturn : turn = (true, Console.obey ⟨s.thence history, traced⟩ .reset) := by
    show Console.handleCommand _ _ = _
    rw [Console.handleCommand, hcommand]
  rw [hturn, ← thence_new]
  exact ⟨rfl, rfl, ((same_startingIn _ _).thence further).answersLike source⟩

end Session
end Monkey
