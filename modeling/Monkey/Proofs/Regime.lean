import Monkey.Proofs.Upkeep
import Monkey.Proofs.Visit

/-!
# Invariants of runs

A `Regime` says what is to hold of the store whenever an evaluation begins, and
at the end of a run. It may take for granted what is `known` of the evaluations
that take place. Its judgement demands of a computation that it keeps the
invariant from every store that has it, and that its answer is as stated.

An evaluation nested one deeper is judged by its rule, so an invariant of all
evaluations is an induction on the depth with `Upkeep.evalRule` as its step.
`Regime.Stable` collects what an invariant of the frames needs for that.

## Main results

* `Regime.eval_zero`, `Regime.eval_succ` — the two cases of the induction.
* `Regime.Stable.eval` — a stable invariant is kept by the evaluation of every
  tree in every scope where names may be bound.
-/

namespace Monkey

open Monkey.Computation

/-- An invariant of the store, kept by all runs in which every evaluation is as is known. -/
structure Regime where
  known : Visit → Prop
  invariant : Store → Prop

namespace Regime
variable (R : Regime) (depth : Nat)

/-- From a store with the invariant, a computation whose evaluations are as is known keeps the
invariant at the start of every evaluation and at its end, and its answer satisfies `post`. -/
def Keeps {α : Type} (x : Computation α) (post : α → Prop) : Prop :=
  ∀ st, R.invariant st → (∀ w ∈ x.visits evalRule depth st, R.known w) →
    (∀ w ∈ x.visits evalRule depth st, R.invariant w.store) ∧
      R.invariant (x.outcome evalRule depth st).store ∧
      ∀ a, (x.outcome evalRule depth st).result = .ok a → post a

theorem keeps_bind {α β : Type} {x : Computation α} {f : α → Computation β} {mid : α → Prop}
    {post : β → Prop} (hx : R.Keeps depth x mid) (hf : ∀ a, mid a → R.Keeps depth (f a) post) :
    R.Keeps depth (x >>= f) post := by
  intro st hst hknown
  rw [visits_bind] at hknown ⊢
  rw [outcome_bind]
  obtain ⟨hv, hend, hmid⟩ := hx st hst fun w hw => hknown w (List.mem_append_left _ hw)
  generalize x.outcome evalRule depth st = o at hknown hend hmid ⊢
  obtain ⟨result, st'⟩ := o
  cases result with
  | error e =>
    refine ⟨by simpa using hv, hend, fun a h => ?_⟩
    cases h
  | ok a =>
    have hrest : ∀ w ∈ (f a).visits evalRule depth st', R.known w :=
      fun w hw => hknown w (List.mem_append_right _ hw)
    obtain ⟨hv', hend', hpost⟩ := hf a (hmid a rfl) st' hend hrest
    refine ⟨?_, hend', hpost⟩
    intro w hw
    exact (List.mem_append.1 hw).elim (hv w) (hv' w)

/-- The judgement of a regime. -/
def judgement : Judgement Computation where
  holds x post := R.Keeps depth x post
  pure h := fun st hst _ => ⟨by simp, hst, fun a ha => by cases ha; exact h⟩
  bind hx hf := R.keeps_bind depth hx hf
  mono hx h := fun st hst hknown =>
    let ⟨hv, hend, hmid⟩ := hx st hst hknown
    ⟨hv, hend, fun a ha => h a (hmid a ha)⟩

theorem fail {α : Type} (e : Failure) (post : α → Prop) :
    (R.judgement depth).holds (Computation.fail e : Computation α) post := by
  intro st hst _
  refine ⟨by simp, hst, ?_⟩
  intro a h
  cases h

theorem reading {α : Type} {f : Store → α} {post : α → Prop}
    (h : ∀ st, R.invariant st → post (f st)) :
    (R.judgement depth).holds (Computation.reading f) post := by
  intro st hst _
  refine ⟨by simp, hst, ?_⟩
  intro a ha
  cases ha
  exact h st hst

theorem yielding {α : Type} {f : Store → α × Store} {post : α → Prop}
    (h : ∀ st, R.invariant st → R.invariant (f st).2 ∧ post (f st).1) :
    (R.judgement depth).holds (Computation.yielding f) post := by
  intro st hst _
  have hf := h st hst
  refine ⟨by simp, hf.1, ?_⟩
  intro a ha
  cases ha
  exact hf.2

theorem modify {f : Store → Store} (h : ∀ st, R.invariant st → R.invariant (f st)) :
    (R.judgement depth).holds (Computation.modify f) fun _ => True := by
  intro st hst _
  exact ⟨by simp, h st hst, fun _ _ => trivial⟩

/-- Without depth an evaluation does nothing. -/
theorem eval_zero (n : Node) (sc : Scope) (post : Value → Prop) :
    (R.judgement 0).holds (Computation.eval n sc) post := by
  intro st hst _
  refine ⟨by simp [visitsWithin], by simpa using hst, ?_⟩
  intro v h
  rw [outcome_eval] at h
  cases h

/-- One level deeper an evaluation is its rule. What is known of the evaluation itself may
sharpen what the rule is judged to yield. -/
theorem eval_succ {n : Node} {sc : Scope} {mid post : Value → Prop}
    (h : (R.judgement depth).holds (evalRule n sc) mid)
    (hpost : ∀ st v, R.known ⟨depth, n, sc, st⟩ →
      ((evalRule n sc).outcome evalRule depth st).result = .ok v → mid v → post v) :
    (R.judgement (depth + 1)).holds (Computation.eval n sc) post := by
  intro st hst hknown
  rw [visits_eval_succ] at hknown ⊢
  rw [outcome_eval_succ]
  have hhead := hknown _ List.mem_cons_self
  obtain ⟨hv, hend, hmid⟩ := h st hst fun w hw => hknown w (List.mem_cons_of_mem _ hw)
  refine ⟨?_, hend, ?_⟩
  · intro w hw
    rcases List.mem_cons.1 hw with rfl | hw
    · exact hst
    · exact hv w hw
  · intro v ha
    exact hpost st v hhead ha (hmid v ha)

end Regime

/-! ## Stable invariants -/

/-- Quoting keeps trees good and values in shape: a tree made of good trees is good, a value of
the shape is good when it is spliced into a tree, and the quotations that have the shape are
those of good trees. -/
structure Quotable (good : Node → Prop) (shape : Value → Prop) : Prop where
  built : ∀ n : Node, n.Built good → good n
  spliced : ∀ (v : Value) (e : Node), v.Every shape → v.toNode = .ok e → good e
  quoted : ∀ i n, shape (.quote i n) ↔ good n

/-- What makes an invariant go through evaluation, when names are bound in `inner` scopes only:
it speaks of the frames, whose values have the shape, and at most of identities having been handed
out, and it withstands new frames and the binding of names; and what evaluation makes itself has the
shape. -/
structure Regime.Stable (R : Regime) (shape : Value → Prop) (inner : Scope → Prop)
    (good : Node → Prop) : Prop extends Quotable good shape where
  data : ∀ v, v.isData = true → shape v
  functions : ∀ i ps body sc, shape (.function i ps body sc)
  macros : ∀ i ps body sc, shape (.macroFn i ps body sc)
  markers : ∀ depth e sc st i v, R.known ⟨depth, .returnStmt e, sc, st⟩ →
    ((evalRule (.returnStmt e) sc).outcome evalRule depth st).result = .ok (.returned i v) →
    shape (.returned i v)
  frames : ∀ st st', st'.frames = st.frames → st.nextIdentity ≤ st'.nextIdentity →
    R.invariant st → R.invariant st'
  lookup : ∀ st name sc v, R.invariant st → st.lookup name sc = some v → v.Every shape
  addFrame : ∀ st frame, R.invariant st → (∀ b ∈ frame.bindings, b.2.Every shape) →
    R.invariant (st.addFrame frame).2 ∧ inner ⟨st.frames.size⟩
  define : ∀ st sc name v, R.invariant st → inner sc → v.Every shape →
    R.invariant (st.define sc name v)

namespace Regime.Stable
variable {R : Regime} {shape : Value → Prop} {inner : Scope → Prop} {good : Node → Prop}
  (S : R.Stable shape inner good)
include S

/-- The steps of evaluation keep a stable invariant, if evaluation inside inner scopes does. -/
theorem upkeep {depth : Nat}
    (inside : ∀ n sc, inner sc →
      (R.judgement depth).holds (Computation.eval n sc) (Value.Result shape)) :
    Upkeep (R.judgement depth) shape inner where
  data := S.data
  fresh := R.yielding depth fun st h => ⟨S.frames st _ rfl (Nat.le_succ _) h, trivial⟩
  printLine _ := R.modify depth fun st h => S.frames st _ rfl (Nat.le_refl _) h
  unwritable := R.fail depth _ _
  unbound _ _ := R.reading depth fun _ _ => trivial
  found sc name := R.reading depth fun st h v hv => S.lookup st name sc v h hv
  opened sc bindings hb := R.yielding depth fun st h => S.addFrame st ⟨some sc, bindings⟩ h hb
  inside := inside

/-- A quotation keeps a stable invariant, if the evaluation of what is unquoted does. -/
theorem evalQuote {depth : Nat} (U : Upkeep (R.judgement depth) shape inner) {sc : Scope}
    (replies : ∀ arg, arg.isExpression = true → good arg →
      (R.judgement depth).holds (Computation.eval arg sc) (Value.Result shape)) (arg : Node) :
    (Upkeep.attempts (R.judgement depth)).holds (Monkey.evalQuote arg sc)
      (Value.Result shape) :=
  U.evalQuote (fun _ => R.fail depth _ _) replies S.spliced (fun n hn _ => S.built n hn)
    (fun i n => (S.quoted i n).2) arg

/-- The rule of a tree that is no `return` keeps a stable invariant, if the evaluation of its
parts does and names may be bound in the scope. -/
theorem evalRule {depth : Nat} (U : Upkeep (R.judgement depth) shape inner) {n : Node}
    {sc : Scope} (hn : ∀ e, n ≠ .returnStmt e)
    (parts : ∀ m ∈ n.parts, (R.judgement depth).holds (Computation.eval m sc) (Value.Result shape))
    (names : ∀ name e, n = .letStmt name e → inner sc)
    (replies : ∀ arg e, n = .call (.ident "quote") [arg] → e.isExpression = true → good e →
      (R.judgement depth).holds (Computation.eval e sc) (Value.Result shape)) :
    (R.judgement depth).holds (Monkey.evalRule n sc) (Value.Result shape) := by
  refine U.evalRule parts ?_ ?_ ?_ ?_ ?_
  · intro name e v hlet hv
    exact R.modify depth fun st h => S.define st sc name v h (names name e hlet) hv
  · intro e i v hret
    exact absurd hret (hn e)
  · intro ps b i _
    exact S.functions i ps _ sc
  · intro ps b i _
    exact S.macros i ps _ sc
  · intro arg hquote
    exact S.evalQuote U (fun e => replies arg e hquote) arg

/-- The evaluation of any tree in an inner scope keeps a stable invariant and yields a result. -/
theorem eval (depth : Nat) (n : Node) (sc : Scope) (hsc : inner sc) :
    (R.judgement depth).holds (Computation.eval n sc) (Value.Result shape) := by
  induction depth generalizing n sc with
  | zero => exact R.eval_zero n sc _
  | succ depth ih =>
    have U : Upkeep (R.judgement depth) shape inner := S.upkeep ih
    by_cases hn : ∃ e, n = .returnStmt e
    · obtain ⟨e, rfl⟩ := hn
      refine R.eval_succ depth (U.returnStmt (ih e sc hsc)) ?_
      intro st v hknown hv hret
      rcases hret with he | ⟨i, w, rfl, hw⟩
      · exact .inl he
      · exact .inr (Value.every_returned.2 ⟨S.markers depth e sc st i w hknown hv, hw⟩)
    · have hrule : (R.judgement depth).holds (Monkey.evalRule n sc) (Value.Result shape) :=
        S.evalRule U (fun e he => hn ⟨e, he⟩) (fun m _ => ih m sc hsc) (fun _ _ _ => hsc)
          fun _ e _ _ _ => ih e sc hsc
      exact R.eval_succ depth hrule fun st v _ _ h => h

/-- What any evaluation comes to is a result, if a stable invariant holds where it begins and all
that it visits is as is known. -/
theorem result_visit {w : Visit} (hsc : inner w.scope) (hst : R.invariant w.store)
    (hw : R.known w) (hinside : ∀ u ∈ w.inside Monkey.evalRule, R.known u) {v : Value}
    (hv : (w.outcome Monkey.evalRule).result = .ok v) : v.Result shape := by
  have hkeeps := S.eval (w.depth + 1) w.node w.scope hsc w.store hst
  rw [visits_eval_succ, outcome_eval_succ] at hkeeps
  refine (hkeeps ?_).2.2 v hv
  intro u hu
  rcases List.mem_cons.1 hu with rfl | hu
  · exact hw
  · exact hinside u hu

end Regime.Stable
end Monkey
