import Monkey.Proofs.Expansion

/-!
# Where numbers cannot be written

A run is broken off when a number of too many digits has to be shown. Only `puts`
shows values during a run, so such a run has visited a call of `puts` with
a value in which there is such a number. The failure is passed on by everything
else, and begins nowhere else.

## Main definitions

* `Visit.ShowsUnwritable` — the visits at which such a value is to be printed.

## Main results

* `Computation.exists_showsUnwritable` — a text whose run fails this way has such
  a visit.
* `Computation.showsUnwritable_iff` — and every run with such a visit fails this way.
-/

namespace Monkey

open Monkey.Computation Monkey.Attempt

/-- At this visit `puts` is given a value that has no text. -/
def Visit.ShowsUnwritable (w : Visit) : Prop :=
  ∃ args st, w.Calls (.builtin .puts) args st ∧ ∃ v ∈ args, v.showable = false

/-- Whether a visit is that of a call expression that is no quotation. -/
def Visit.isCall (w : Visit) : Bool :=
  match w.node with
  | .call callee _ => !callee.isIdent "quote" || (w.store.lookup "quote" w.scope).isSome
  | _ => false

theorem Visit.ShowsUnwritable.isCall {w : Visit} (h : w.ShowsUnwritable) : w.isCall = true := by
  obtain ⟨args, st, ⟨callee, operands, hnode, hquote, -⟩, -⟩ := h
  rw [Visit.isCall, hnode]
  cases hident : callee.isIdent "quote" with
  | true => simp [hident, hquote (Node.isIdent_iff.1 hident)]
  | false => simp [hident]

namespace Computation
variable (depth : Nat)

/-- If a computation fails for a number that cannot be written, it has visited a call that was to
print one. Its answer satisfies `post`. -/
def Traced {α : Type} (x : Computation α) (post : α → Prop) (st : Store) : Prop :=
  ((x.outcome evalRule depth st).result = .error .unwritableNumber →
    ∃ w ∈ x.visits evalRule depth st, w.ShowsUnwritable) ∧
  ∀ a, (x.outcome evalRule depth st).result = .ok a → post a

theorem traced_bind {α β : Type} {x : Computation α} {f : α → Computation β} {mid : α → Prop}
    {post : β → Prop} {st : Store} (hx : x.Traced depth mid st)
    (hf : ∀ a st', x.outcome evalRule depth st = ⟨.ok a, st'⟩ → mid a →
      (f a).Traced depth post st') : (x >>= f).Traced depth post st := by
  obtain ⟨hshows, hmid⟩ := hx
  unfold Traced
  rw [outcome_bind, visits_bind]
  generalize x.outcome evalRule depth st = o at hshows hmid hf ⊢
  obtain ⟨result, st'⟩ := o
  cases result with
  | error e =>
    refine ⟨fun h => ?_, by simp⟩
    obtain rfl : e = .unwritableNumber := Except.error.inj h
    obtain ⟨w, hw, hw'⟩ := hshows rfl
    exact ⟨w, List.mem_append_left _ hw, hw'⟩
  | ok a =>
    obtain ⟨hshows', hpost⟩ := hf a st' rfl (hmid a rfl)
    refine ⟨fun h => ?_, hpost⟩
    obtain ⟨w, hw, hw'⟩ := hshows' h
    exact ⟨w, List.mem_append_right _ hw, hw'⟩

/-- The judgement that computations fail for numbers only where they visit calls that print. -/
def traces : Judgement Computation where
  holds x post := ∀ st, x.Traced depth post st
  pure h := fun st => ⟨by simp, fun a ha => by cases ha; exact h⟩
  bind hx hf := fun st => traced_bind depth (hx st) fun a st' _ ha => hf a ha st'
  mono hx h := fun st => ⟨(hx st).1, fun a ha => h a ((hx st).2 a ha)⟩

/-- Nothing is asked of values. -/
abbrev anyShape : Value → Prop := fun _ => True

theorem every_anyShape (v : Value) : v.Every anyShape := v.every_of_forall fun _ => trivial

variable {depth}

theorem traces_yielding {α : Type} (f : Store → α × Store) :
    (traces depth).holds (yielding f) fun _ => True :=
  fun _ => ⟨by simp, fun _ _ => trivial⟩

theorem traces_modify (f : Store → Store) : (traces depth).holds (modify f) fun _ => True :=
  fun _ => ⟨by simp, fun _ _ => trivial⟩

theorem traces_reading {α : Type} (f : Store → α) {post : α → Prop} (h : ∀ a, post a) :
    (traces depth).holds (reading f) post :=
  fun _ => ⟨by simp, fun a _ => h a⟩

theorem traces_fail {α : Type} {e : Failure} (he : e ≠ .unwritableNumber) (post : α → Prop) :
    (traces depth).holds (fail e : Computation α) post :=
  fun _ => ⟨by simp [he], by simp⟩

theorem traces_quietSteps : QuietSteps (traces depth) anyShape where
  data _ _ := trivial
  fresh := traces_yielding _
  unbound _ _ := traces_reading _ fun _ => trivial

/-- Values that have a text are printed. -/
theorem traces_putLines : ∀ {vs : List Value}, (∀ v ∈ vs, v.showable = true) →
    (traces depth).holds (putLines vs) fun _ => True
  | [], _ => (traces depth).pure trivial
  | v :: vs, h => by
    have hv : v.inspect? = some v.inspect := by
      rw [Value.inspect?, if_pos (h v List.mem_cons_self)]
    rw [putLines, hv]
    refine (traces depth).bind (traces_modify _) fun _ _ => ?_
    exact traces_putLines fun v hv => h v (List.mem_cons_of_mem _ hv)

section Step
variable (ih : ∀ n sc, (traces depth).holds (eval n sc) (Value.Result anyShape))
include ih

/-- A call fails for a number only inside, unless it is itself to print one. -/
theorem traces_call {callee : Value} {args : List Value}
    (h : callee = .builtin .puts → ∀ v ∈ args, v.showable = true) :
    (traces depth).holds (callee.call args) (Value.Result anyShape) := by
  have hprints (hputs : callee = .builtin .puts) :
      (traces depth).holds (putLines args) fun _ => True :=
    traces_putLines (h hputs)
  refine traces_quietSteps.call (fun v _ => every_anyShape v) ?_ hprints
  rintro i params body sc rfl hlength
  rw [Value.call, if_pos hlength]
  refine (traces depth).bind (traces_yielding _) fun inner _ => ?_
  exact (traces depth).bind (ih body inner) fun v hv => (traces depth).pure hv.unwrapped

theorem traces_quotation (args : List Node) (sc : Scope) :
    (traces depth).holds (settle (evalQuotation args sc)) (Value.Result anyShape) := by
  refine Upkeep.settleResult ?_
  unfold evalQuotation
  split
  · next arg =>
    have hfail : ∀ e, (traces depth).holds (fail (.illSorted e) : Computation Value)
        (Value.Result anyShape) := fun e => traces_fail (by simp) _
    have hreplies : ∀ arg : Node, arg.isExpression = true → True →
        (traces depth).holds (eval arg sc) (Value.Result anyShape) := fun arg _ _ => ih arg sc
    exact traces_quietSteps.evalQuote hfail hreplies
      (fun _ _ _ _ => trivial) (fun _ _ _ => trivial) (fun _ _ _ => trivial) arg
  · exact traces_quietSteps.reject _

/-- A call expression fails for a number only where it visits a call that is to print one, if it is
no such call itself. -/
theorem traced_call {callee : Node} {args : List Node} {sc : Scope} {st : Store}
    (hw : ¬ (⟨depth, .call callee args, sc, st⟩ : Visit).ShowsUnwritable) :
    (evalRule (.call callee args) sc).Traced depth (Value.Result anyShape) st := by
  by_cases hquote : callee = .ident "quote" ∧ st.lookup "quote" sc = none
  · obtain ⟨rfl, hunbound⟩ := hquote
    have hsettle := traces_quotation ih args sc st
    unfold Traced outcome visits at hsettle ⊢
    rwa [evalRule_quotation hunbound]
  · have hcall : callee = .ident "quote" → (st.lookup "quote" sc).isSome = true := by
      rintro rfl
      exact Option.isSome_iff_ne_none.2 fun hnone => hquote ⟨rfl, hnone⟩
    have hoperands : (Upkeep.attempts (traces depth)).holds (evalOperands callee args sc)
        fun p => ∀ v ∈ p.1 :: p.2, v.Every anyShape :=
      Upkeep.evalOperands fun m _ => ih m sc
    have hsettle : (settle (evalCall callee args sc)).Traced depth (Value.Result anyShape) st := by
      rw [evalCall_eq, settle_bind]
      refine traced_bind depth (hoperands st) fun r st' hr hpost => ?_
      cases r with
      | error v => exact (traces depth).pure (.inl hpost) st'
      | ok p =>
        dsimp only
        rw [settle_lift]
        refine traces_call ih (fun hputs v hv => ?_) st'
        cases hshow : v.showable with
        | true => rfl
        | false =>
          refine absurd ⟨p.2, st', ⟨callee, args, rfl, hcall, ?_⟩, v, hv, hshow⟩ hw
          rw [← hputs]
          exact hr
    unfold Traced outcome visits at hsettle ⊢
    rwa [evalRule_call hcall]

end Step

/-- The rule of a tree that is no call fails for a number only where its parts do. -/
theorem traces_evalRule (ih : ∀ n sc, (traces depth).holds (eval n sc) (Value.Result anyShape))
    {n : Node} (hn : ∀ callee args, n ≠ .call callee args) (sc : Scope) :
    (traces depth).holds (evalRule n sc) (Value.Result anyShape) := by
  refine traces_quietSteps.evalRule ?_ ?_ ?_ ?_ ?_ ?_ ?_ ?_ ?_
  · exact fun name => traces_reading _ fun _ v _ => every_anyShape v
  · exact fun m _ => ih m sc
  · rintro ss rfl
    refine (traces depth).bind (traces_yielding _) fun inner _ => ?_
    exact traces_quietSteps.evalStatements_null fun s _ => ih s inner
  · exact fun callee args h => absurd h (hn callee args)
  · exact fun _ _ _ _ _ => traces_modify _
  · exact fun _ _ _ _ _ => trivial
  · exact fun _ _ _ _ => trivial
  · exact fun _ _ _ _ => trivial
  · exact fun arg h => absurd h (hn _ _)

/-- An evaluation fails for a number only where it visits a call that is to print one. -/
theorem traces_eval (depth : Nat) (n : Node) (sc : Scope) :
    (traces depth).holds (eval n sc) (Value.Result anyShape) := by
  induction depth generalizing n sc with
  | zero =>
    intro st
    rw [Traced, outcome_eval]
    exact ⟨by simp [evalWithin], fun v _ => .inr (every_anyShape v)⟩
  | succ depth ih =>
    intro st
    refine ⟨fun h => ?_, fun v _ => .inr (every_anyShape v)⟩
    rw [outcome_eval_succ] at h
    rw [visits_eval_succ]
    by_cases hw : (⟨depth, n, sc, st⟩ : Visit).ShowsUnwritable
    · exact ⟨_, List.mem_cons_self, hw⟩
    · have hrule : (evalRule n sc).Traced depth (Value.Result anyShape) st := by
        by_cases hn : ∃ callee args, n = .call callee args
        · obtain ⟨callee, args, rfl⟩ := hn
          exact traced_call ih hw
        · exact traces_evalRule ih (fun callee args h => hn ⟨callee, args, h⟩) sc st
      obtain ⟨w, hmem, hshows⟩ := hrule.1 h
      exact ⟨w, List.mem_cons_of_mem _ hmem, hshows⟩

/-- The same is true of the expansion of a program. -/
theorem traces_expandProgram (macros : Scope) (program : Node) :
    (traces depth).holds (expandProgram macros program)
      (Judgement.Either (fun _ => True) fun _ => True) := by
  have hnote : ∀ n, (traces depth).holds (modify (Store.note n)) fun _ => True :=
    fun n => traces_modify _
  have hopens : ∀ body sc, (traces depth).Opens anyShape body sc := fun body sc _ _ =>
    ⟨fun _ => True, traces_yielding _, fun sc' _ => traces_eval depth body sc'⟩
  have hstep : ∀ n : Node, n.Built (fun _ => True) →
      ((traces depth).except fun _ => True).holds (expandStep macros n) fun _ => True := by
    refine fun n _ => traces_quietSteps.expandStep hnote (fun name args _ => ⟨?_, ?_, ?_⟩) trivial
    · exact fun _ _ _ => trivial
    · exact traces_reading _ fun _ m _ => hopens m.2.1 m.2.2
    · exact fun _ _ _ => trivial
  refine traces_quietSteps.expandProgram hnote (fun _ _ _ _ _ => traces_modify _) fun kept _ => ?_
  refine Judgement.bind _ (Judgement.rebuildM hstep (.program kept)) fun r _ => ?_
  cases r with
  | ok n => exact Judgement.pure _ trivial
  | error e => exact Judgement.lift _ (traces_fail (by simp) _)

/-- The same is true of the run of a program. -/
theorem exists_showsUnwritable {values macros : Scope} {program : Node} {st : Store}
    (h : ((runProgram values macros program).outcome evalRule depth st).result =
      .error .unwritableNumber) :
    ∃ w ∈ (runProgram values macros program).visits evalRule depth st, w.ShowsUnwritable := by
  have hrun : (traces depth).holds (runProgram values macros program)
      fun r => r.value.Result anyShape :=
    traces_quietSteps.runProgram (fun n => traces_modify _) (traces_expandProgram macros program)
      fun n _ => traces_eval depth n values
  exact (hrun st).1 h

/-- Values are printed up to the first that has no text. -/
theorem outcome_putLines_of_unshowable {vs : List Value} (h : ∃ v ∈ vs, v.showable = false)
    (st : Store) : ((putLines vs).outcome evalRule depth st).result = .error .unwritableNumber := by
  induction vs generalizing st with
  | nil => simp at h
  | cons v vs ih =>
    rw [putLines, Value.inspect?]
    cases hv : v.showable with
    | false => rfl
    | true =>
      have hrest : ∃ v ∈ vs, v.showable = false := by simpa [hv] using h
      exact ih hrest _

end Computation

/-- A visit at which a value without a text is to be printed fails. -/
theorem Visit.ShowsUnwritable.fails {w : Visit} (h : w.ShowsUnwritable) :
    (w.outcome evalRule).result = .error .unwritableNumber := by
  obtain ⟨args, st, hcalls, hargs⟩ := h
  rw [hcalls.outcome]
  show ((putLines args >>= fun _ => (pure Value.null : Computation Value)).outcome evalRule
    w.depth st).result = _
  have hlines : ((putLines args).outcome evalRule w.depth st).result = .error .unwritableNumber :=
    outcome_putLines_of_unshowable hargs st
  rw [Computation.outcome_bind]
  generalize (putLines args).outcome evalRule w.depth st = o at hlines ⊢
  obtain ⟨result, st'⟩ := o
  cases result with
  | error e => rw [Except.error.inj hlines]
  | ok _ => cases hlines

/-- The run of a program fails for a number exactly if it visits a call that is to print one. -/
theorem Computation.showsUnwritable_iff {values macros : Scope} {program : Node} {depth : Nat}
    {st : Store} :
    ((runProgram values macros program).outcome evalRule depth st).result =
        .error .unwritableNumber ↔
      ∃ w ∈ (runProgram values macros program).visits evalRule depth st, w.ShowsUnwritable :=
  ⟨exists_showsUnwritable, fun ⟨_, hw, hshows⟩ => fails_of_visit hw hshows.fails⟩

end Monkey
