import Monkey.Proofs.Expansion

/-!
# What sessions go through

A session is reached from a new one by submitting texts. How deeply evaluation
may nest is chosen anew for each text, so that what is said of sessions depends on no
bound. `Session.run` and `Session.submit` with a bound do what is said here for it.

## Main definitions

* `Session.attempt`, `Session.next` — what a text comes to, and the session that it leaves.
* `Session.after`, `Session.log` — the session after some texts, and all visits on the way.

## Main results

* `Session.session_run`, `Session.session_submit`, `Session.yields_of_run`,
  `Session.yields_of_submit` — the two ways of running a text in these terms.
* `Session.after_induction` — what quieting and running keep is true in every session.
* `Session.invariant_attempt` — a text keeps a stable invariant.
* `Session.after_invariant` — every session that is reached has it.
-/

namespace Monkey

open Monkey.Computation

/-- A text that was submitted, and how deeply its evaluation could nest. -/
structure Entry where
  depth : Nat
  source : String

namespace Session
variable (depth : Nat) (source : String) (s : Session)

/-- What a text comes to in a session; nothing if it is no program. -/
def attempt : Option (Outcome Ran) :=
  match Source.parse source with
  | .ok program => some ((runProgram s.values s.macros program).outcome evalRule depth s.store.quiet)
  | .error _ => none

/-- The session that a text leaves. -/
def next : Session :=
  match s.attempt depth source with
  | some o => { s with store := o.store.quiet }
  | none => s

/-- The text runs to the value `v`. -/
def Yields (v : Value) : Prop :=
  ∃ o r, s.attempt depth source = some o ∧ o.result = .ok r ∧ r.value = v

/-- All evaluations that take place while a text is run. -/
def visits : List Visit :=
  match Source.parse source with
  | .ok program => (runProgram s.values s.macros program).visits evalRule depth s.store.quiet
  | .error _ => []

/-- The session after some texts, the last of which is given first. -/
def after : List Entry → Session
  | [] => new
  | e :: history => (after history).next e.depth e.source

/-- All evaluations that took place while some texts were run one after the other. -/
def log : List Entry → List Visit
  | [] => []
  | e :: history => (after history).visits e.depth e.source ++ log history

/-! ## The two ways of running a text -/

/-- Running a text and answering with something made of what it yields. -/
theorem withSource_eq {α : Type} (answer : Node → Ran → α) :
    (s.withSource source (fun program => do
        let r ← runProgram s.values s.macros program
        return answer program r) depth).session = s.next depth source ∧
      ∀ a, (s.withSource source (fun program => do
        let r ← runProgram s.values s.macros program
        return answer program r) depth).result = .ok a →
        ∃ program r, Source.parse source = .ok program ∧ a = answer program r ∧
          s.Yields depth source r.value := by
  unfold withSource next Yields attempt
  cases hparse : Source.parse source with
  | error e => exact ⟨rfl, fun a h => by cases h⟩
  | ok program =>
    simp only [perform, run_eq, outcome_bind]
    generalize ho : (runProgram s.values s.macros program).outcome evalRule depth
      s.store.quiet = o
    obtain ⟨result, st⟩ := o
    cases result with
    | error e => exact ⟨rfl, fun a h => by cases h⟩
    | ok r =>
      refine ⟨rfl, ?_⟩
      intro a h
      obtain rfl := Except.ok.inj h
      exact ⟨program, r, rfl, rfl, _, r, rfl, rfl, rfl⟩

/-- What a text leaves behind when it is answered with something made of what its program comes
to. -/
theorem withSource_of_outcome {α : Type} (answer : Node → Ran → α)
    (log : Note → Computation Unit := takeNote) :
    s.withSource source (fun program => do
        let r ← runProgram s.values s.macros program log
        return answer program r) depth =
      match Source.parse source with
      | .ok program =>
        let o := (runProgram s.values s.macros program log).outcome evalRule depth s.store.quiet
        { result := (o.result.map (answer program)).mapError .failure
          output := o.store.output
          notes := o.store.notes.reverse
          session := { s with store := o.store.quiet } }
      | .error e => ⟨.error (.source e), "", [], s⟩ := by
  unfold withSource
  cases Source.parse source with
  | error e => rfl
  | ok program =>
    simp only [perform, run_eq, outcome_bind]
    generalize (runProgram s.values s.macros program log).outcome evalRule depth s.store.quiet = o
    obtain ⟨result, st⟩ := o
    cases result <;> rfl

variable {depth} in
/-- A program that runs to an end is answered with what it yields. -/
theorem result_withSource {program : Node} (hparse : Source.parse source = .ok program) {r : Ran}
    (hr : ((runProgram s.values s.macros program).outcome evalRule depth
      s.store.quiet).result = .ok r) {α : Type} (answer : Node → Ran → α) :
    (s.withSource source (fun program => do
      let r ← runProgram s.values s.macros program
      return answer program r) depth).result = .ok (answer program r) := by
  rw [withSource_of_outcome, hparse]
  dsimp only
  rw [hr]
  rfl

theorem session_run : (s.run source depth).session = s.next depth source :=
  (s.withSource_eq depth source fun _ r => r.value).1

/-- A text that lacks no depth comes to the same in any greater depth. -/
theorem attempt_mono {depth depth' : Nat} (hle : depth ≤ depth') {o : Outcome Ran}
    (h : s.attempt depth source = some o) (ho : o.Finished) :
    s.attempt depth' source = some o := by
  unfold attempt at h ⊢
  cases hparse : Source.parse source with
  | error e =>
    rw [hparse] at h
    cases h
  | ok program =>
    rw [hparse] at h
    obtain rfl := Option.some.inj h
    exact congrArg some (outcome_mono evalRule hle _ _ ho)

variable {depth} in
theorem run_of_attempt {o : Outcome Ran} (h : s.attempt depth source = some o) :
    (s.run source depth).result = (o.result.map Ran.value).mapError .failure ∧
      (s.run source depth).output = o.store.output := by
  unfold attempt at h
  rw [run, s.withSource_of_outcome depth source fun _ r => r.value]
  cases hparse : Source.parse source with
  | error e =>
    rw [hparse] at h
    cases h
  | ok program =>
    rw [hparse] at h
    obtain rfl := Option.some.inj h
    exact ⟨rfl, rfl⟩

/-- A text that is seen to come to something has a program that runs to an end. -/
theorem exists_ran_of_attempt {depth : Nat} {p : Ran → Bool}
    (h : ((s.attempt depth source).any fun o => o.result.toOption.any p) = true) :
    ∃ o r, s.attempt depth source = some o ∧ o.result = .ok r ∧ p r = true := by
  obtain ⟨o, hattempt, ho⟩ := (Option.any_eq_true _ _).1 h
  obtain ⟨r, hr, hp⟩ := (Option.any_eq_true _ _).1 ho
  refine ⟨o, r, hattempt, ?_, hp⟩
  cases hresult : o.result with
  | error e => simp [hresult, Except.toOption] at hr
  | ok r' => simpa [hresult, Except.toOption] using hr

theorem session_submit : (s.submit source depth).session = s.next depth source :=
  (s.withSource_eq depth source fun program r => (r.value, r.expanded && endsInLet program)).1

theorem yields_of_run {v : Value} (h : (s.run source depth).result = .ok v) :
    s.Yields depth source v := by
  obtain ⟨program, r, _, rfl, hr⟩ := (s.withSource_eq depth source fun _ r => r.value).2 v h
  exact hr

theorem yields_of_submit {v : Value} {silent : Bool}
    (h : (s.submit source depth).result = .ok (v, silent)) : s.Yields depth source v := by
  obtain ⟨program, r, _, heq, hr⟩ :=
    (s.withSource_eq depth source fun program r => (r.value, r.expanded && endsInLet program)).2 _ h
  obtain rfl := (Prod.mk.inj heq).1
  exact hr

/-! ## Invariants of histories -/

/-- A new session holds no values. -/
theorem every_new (shape : Value → Prop) : new.store.Every shape := by
  have hempty : Store.empty.Every shape := fun sc f hf => by cases hf
  have hroot : Store.empty.newRoot.2.Every shape := Store.every_addFrame hempty (by simp)
  exact Store.every_addFrame hroot (by simp)

theorem visits_closed : ∀ w ∈ s.visits depth source, w.inside evalRule ⊆ s.visits depth source := by
  unfold visits
  split
  · exact Computation.visits_closed evalRule depth _ _
  · simp

theorem values_next : (s.next depth source).values = s.values := by
  unfold next
  split <;> rfl

theorem macros_next : (s.next depth source).macros = s.macros := by
  unfold next
  split <;> rfl

variable {depth source s} {R : Regime} {shape : Value → Prop} {inner : Scope → Prop}
  {good : Node → Prop} (S : R.Stable shape inner good)
include S

/-- A text keeps a stable invariant of the store of its session, if names may be bound in the two
scopes of the session. -/
theorem invariant_attempt (hvalues : inner s.values) (hmacros : inner s.macros)
    (hst : R.invariant s.store) (hknown : ∀ w ∈ s.visits depth source, R.known w) :
    (∀ w ∈ s.visits depth source, R.invariant w.store) ∧
      R.invariant (s.next depth source).store ∧
      ∀ v, s.Yields depth source v → v.Result shape := by
  unfold visits at hknown ⊢
  unfold next Yields attempt
  have hquiet : R.invariant s.store.quiet := S.frames s.store _ rfl (Nat.le_refl _) hst
  cases hparse : Source.parse source with
  | error e =>
    refine ⟨by simp, hst, ?_⟩
    rintro v ⟨o, r, ho, _⟩
    cases ho
  | ok program =>
    rw [hparse] at hknown
    obtain ⟨hv, hend, hpost⟩ := S.runProgram hvalues hmacros program _ hquiet hknown
    refine ⟨hv, S.frames (Outcome.store _) _ rfl (Nat.le_refl _) hend, ?_⟩
    rintro v ⟨o, r, ho, hr, rfl⟩
    obtain rfl := Option.some.inj ho
    exact hpost r hr

omit S in
theorem scopes_after (history : List Entry) :
    (after history).values = new.values ∧ (after history).macros = new.macros := by
  induction history with
  | nil => exact ⟨rfl, rfl⟩
  | cons e history ih => exact ⟨(values_next ..).trans ih.1, (macros_next ..).trans ih.2⟩

omit S in
/-- What is true of the store of a new session, and stays true when the store is made quiet and when
a program is run, is true in every session that is reached. -/
theorem after_induction {P : Store → Prop} (hnew : P new.store) (hquiet : ∀ st, P st → P st.quiet)
    (hrun : ∀ program depth st, P st →
      P ((runProgram new.values new.macros program).outcome evalRule depth st).store)
    (history : List Entry) : P (after history).store := by
  induction history with
  | nil => exact hnew
  | cons e history ih =>
    obtain ⟨hv, hm⟩ := scopes_after history
    unfold after next attempt
    cases Source.parse e.source with
    | error _ => exact ih
    | ok program =>
      rw [hv, hm]
      exact hquiet _ (hrun program e.depth _ (hquiet _ ih))

/-- Every session that is reached has a stable invariant that new sessions have. -/
theorem after_invariant (hvalues : inner new.values) (hmacros : inner new.macros)
    (hnew : R.invariant new.store) (history : List Entry)
    (hknown : ∀ w ∈ log history, R.known w) : R.invariant (after history).store := by
  induction history with
  | nil => exact hnew
  | cons e history ih =>
    have hbefore := ih fun w hw => hknown w (List.mem_append_right _ hw)
    obtain ⟨hv, hm⟩ := scopes_after history
    refine (invariant_attempt S (hv ▸ hvalues) (hm ▸ hmacros) hbefore ?_).2.1
    exact fun w hw => hknown w (List.mem_append_left _ hw)

end Session
end Monkey
