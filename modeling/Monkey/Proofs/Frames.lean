import Monkey.Proofs.Regime
import Monkey.Proofs.Splicing

/-!
# The frames that an evaluation changes

Functions remember scopes and are called from anywhere, blocks and calls open
scopes, and quotations evaluate what is unquoted where they stand. Through all of
that a `let` binds its name in the scope of its own tree and in no other: an
evaluation changes no frame but that of the scope it takes place in, and that
frame only gains names.

An expression does not even change its own frame, because `let` stands in bodies
only, and a body has a scope to itself. Quotation is the one way around this: it
evaluates trees that were put together when the program runs. The trees that
quoted values hold must therefore be well sorted, too.

## Main definitions

* `Frame.Grows` — what may become of the frame of the scope of an evaluation.
* `Store.ChangesOnly` — what may become of all frames.

## Main results

* `Regime.stable_ofFrame` — evaluation keeps what is true of one frame.
* `Node.evaluate_changesOnly` — the frames that an evaluation changes.
-/

namespace Monkey

open Monkey.Computation

/-- Names may have been added behind those that a frame binds, and may mean something else. -/
structure Frame.Grows (f f' : Frame) : Prop where
  parent : f'.parent = f.parent
  keys : f.bindings.keys <+: f'.bindings.keys

theorem Frame.Grows.refl (f : Frame) : f.Grows f := ⟨rfl, List.prefix_rfl⟩

theorem Frame.Grows.bind {f f' : Frame} (h : f.Grows f') (name : String) (v : Value) :
    f.Grows (f'.bind name v) := by
  have hkeys : f'.bindings.keys <+: (f'.bindings.insert name v).keys := by
    rw [Table.keys_insert]
    split
    · exact List.prefix_rfl
    · exact List.prefix_append _ _
  exact ⟨h.parent, h.keys.trans hkeys⟩

/-- All frames are as they were, but for that of one scope, which may have grown. There may be
new frames. -/
structure Store.ChangesOnly (sc : Scope) (st st' : Store) : Prop where
  others : ∀ sc' g, sc' ≠ sc → st.frame? sc' = some g → st'.frame? sc' = some g
  own : ∀ f, st.frame? sc = some f → ∃ f', st'.frame? sc = some f' ∧ f.Grows f'

/-! ## Quoted trees -/

/-- Of trees of which nothing is asked, quoting asks nothing. -/
theorem quotable_any : Quotable (fun _ => True) (Value.Quotes fun _ => True) where
  built _ _ := trivial
  spliced _ _ _ _ := trivial
  quoted _ _ := ⟨fun _ => trivial, fun _ _ _ _ => trivial⟩

theorem quotable_wellSorted : Quotable Node.WellSorted (Value.Quotes Node.WellSorted) where
  built n h := Node.wellSorted_iff.2 h
  spliced v e hv h := (v.wellSorted_toNode e hv h).2
  quoted i n := by
    constructor
    · intro h
      exact h i n rfl
    · rintro h i' n' heq
      cases heq
      exact h

/-! ## One frame -/

namespace Regime

/-- What is true of the frame of a scope, while all quoted trees are good. -/
def ofFrame (sc : Scope) (P : Frame → Prop) (good : Node → Prop) : Regime where
  known _ := True
  invariant st := (∃ f, st.frame? sc = some f ∧ P f) ∧ st.Every (Value.Quotes good)

/-- What is true of the frame of a scope stays true, if names are bound in other scopes only or
binding a name does not matter. -/
theorem stable_ofFrame {sc : Scope} {P : Frame → Prop} {good : Node → Prop}
    {inner : Scope → Prop} (Q : Quotable good (Value.Quotes good))
    (hfresh : ∀ sc' : Scope, sc.index < sc'.index → inner sc')
    (hbind : ∀ f name v, inner sc → P f → P (f.bind name v)) :
    (ofFrame sc P good).Stable (Value.Quotes good) inner good where
  toQuotable := Q
  data _ := Value.quotes_of_isData good
  functions i ps body sc' := by rintro i' n h; cases h
  macros i ps body sc' := by rintro i' n h; cases h
  markers depth e sc' st i v _ _ := by rintro i' n h; cases h
  frames st st' h _ hst := by
    have hsame : st'.frame? sc = st.frame? sc := by
      rw [Store.frame?, h, Store.frame?]
    exact ⟨by rw [hsame]; exact hst.1, Store.every_of_frames hst.2 h⟩
  lookup st name sc' v hst hv := Store.every_lookup hst.2 hv
  addFrame st frame hst hb := by
    obtain ⟨⟨f, hf, hP⟩, hevery⟩ := hst
    have hlt : sc.index < st.frames.size := (Array.getElem?_eq_some_iff.1 hf).1
    have hf' := Store.frame?_addFrame_of_some frame hf
    exact ⟨⟨⟨f, hf', hP⟩, Store.every_addFrame hevery hb⟩, hfresh _ hlt⟩
  define st sc' name v hst hsc hv := by
    obtain ⟨⟨f, hf, hP⟩, hevery⟩ := hst
    refine ⟨?_, Store.every_define hevery hv⟩
    rw [Store.frame?_define]
    by_cases heq : sc' = sc
    · subst heq
      exact ⟨f.bind name v, by simp [hf], hbind f name v hsc hP⟩
    · exact ⟨f, by rw [if_neg heq, hf], hP⟩

/-- An invariant that evaluation keeps whatever is known holds at the end of an evaluation. -/
theorem invariant_evaluate {R : Regime} {depth : Nat} {n : Node} {sc : Scope} {st : Store}
    {post : Value → Prop} (hknown : ∀ w, R.known w)
    (h : (R.judgement depth).holds (eval n sc) post) (hst : R.invariant st) :
    R.invariant (n.evaluate depth sc st).store := by
  rw [Node.evaluate, run_eq]
  exact (h st hst fun w _ => hknown w).2.1

/-- The end of an evaluation finds a frame as it was, if evaluation keeps what it is. -/
theorem frame?_evaluate {sc sc' : Scope} {f : Frame} {good : Node → Prop} {depth : Nat} {n : Node}
    {st : Store} {post : Value → Prop}
    (h : ((ofFrame sc' (· = f) good).judgement depth).holds (eval n sc) post)
    (hf : st.frame? sc' = some f) (hst : st.Every (Value.Quotes good)) :
    (n.evaluate depth sc st).store.frame? sc' = some f := by
  obtain ⟨⟨f', hf', rfl⟩, _⟩ := invariant_evaluate (fun _ => trivial) h ⟨⟨f, hf, rfl⟩, hst⟩
  exact hf'

end Regime

/-! ## The scope of an evaluation -/

/-- The parts of a well-sorted expression or block that are evaluated in its own scope are
well-sorted expressions and blocks again. -/
theorem Node.WellSorted.parts {n : Node} (hn : n.WellSorted)
    (hsort : n.isExpression = true ∨ n.isBlock = true) :
    ∀ m ∈ n.parts, (m.isExpression = true ∨ m.isBlock = true) ∧ m.WellSorted := by
  have hbuilt := Node.wellSorted_iff.1 hn
  intro m hm
  cases n with
  | program ss => cases hsort with
    | inl h => cases h
    | inr h => cases h
  | ifExpr c t e =>
    rcases List.mem_cons.1 hm with rfl | hm
    · obtain ⟨hc, hcs⟩ := hbuilt.operands m (by simp)
      exact ⟨.inl hc, hcs⟩
    · obtain ⟨ss, hss, rfl⟩ := List.mem_map.1 hm
      exact ⟨.inr rfl, hbuilt.bodies ss hss⟩
  | _ =>
    obtain ⟨he, hes⟩ := hbuilt.operands m hm
    exact ⟨.inl he, hes⟩

/-- A well-sorted expression or block leaves the frame of its own scope alone, as long as all
quoted trees are well sorted. -/
theorem Regime.eval_wellSorted {sc : Scope} {f : Frame} (depth : Nat) (n : Node)
    (hsort : n.isExpression = true ∨ n.isBlock = true) (hn : n.WellSorted) :
    ((ofFrame sc (· = f) Node.WellSorted).judgement depth).holds (eval n sc)
      (Value.Result (Value.Quotes Node.WellSorted)) := by
  have S : (ofFrame sc (· = f) Node.WellSorted).Stable (Value.Quotes Node.WellSorted) (· ≠ sc)
      Node.WellSorted := by
    refine stable_ofFrame quotable_wellSorted ?_ fun f' name v h => absurd rfl h
    rintro sc' hlt rfl
    omega
  induction depth generalizing n with
  | zero => exact Regime.eval_zero _ n sc _
  | succ depth ih =>
    have hrule : ((ofFrame sc (· = f) Node.WellSorted).judgement depth).holds (evalRule n sc)
        (Value.Result (Value.Quotes Node.WellSorted)) := by
      refine S.evalRule (S.upkeep (S.eval depth)) ?_ ?_ ?_ ?_
      · rintro e rfl
        cases hsort with
        | inl h => cases h
        | inr h => cases h
      · intro m hm
        obtain ⟨hm, hms⟩ := hn.parts hsort m hm
        exact ih m hm hms
      · rintro name e rfl
        cases hsort with
        | inl h => cases h
        | inr h => cases h
      · intro arg e _ he hes
        exact ih e (.inl he) hes
    exact Regime.eval_succ _ depth hrule fun st v _ _ h => h

/-- No quoted tree need be of any kind. -/
theorem Store.every_quotes_any (st : Store) : st.Every (Value.Quotes fun _ => True) :=
  fun _ _ _ b _ => Value.every_of_forall (fun _ _ _ _ => trivial) b.2

/-- Evaluation in other scopes keeps what a frame is. -/
theorem Regime.stable_frame (sc : Scope) (f : Frame) :
    (ofFrame sc (· = f) fun _ => True).Stable (Value.Quotes fun _ => True) (· ≠ sc)
      fun _ => True := by
  refine stable_ofFrame quotable_any ?_ fun f' name v h => absurd rfl h
  rintro sc' hlt rfl
  omega

/-- An evaluation leaves the frames of all other scopes as they are. -/
theorem Store.frame?_evaluate_of_ne {sc sc' : Scope} {f : Frame} {st : Store}
    (hf : st.frame? sc' = some f) (hne : sc' ≠ sc) (n : Node) (depth : Nat) :
    (n.evaluate depth sc st).store.frame? sc' = some f :=
  Regime.frame?_evaluate ((Regime.stable_frame sc' f).eval depth n sc hne.symm) hf
    st.every_quotes_any

/-- An evaluation changes no frame but that of its own scope, which keeps its parent and its
names; and an expression changes no frame at all, if it and all quoted trees are well sorted. -/
theorem Node.evaluate_changesOnly (depth : Nat) (n : Node) (sc : Scope) (st : Store) :
    st.ChangesOnly sc (n.evaluate depth sc st).store ∧
      (n.isExpression = true → n.WellSorted → st.Every (Value.Quotes Node.WellSorted) →
        ∀ f, st.frame? sc = some f → (n.evaluate depth sc st).store.frame? sc = some f) := by
  refine ⟨⟨?_, ?_⟩, ?_⟩
  · intro sc' g hne hg
    exact Store.frame?_evaluate_of_ne hg hne n depth
  · intro f hf
    have S : (Regime.ofFrame sc f.Grows fun _ => True).Stable (Value.Quotes fun _ => True)
        (fun _ => True) fun _ => True :=
      Regime.stable_ofFrame quotable_any (fun _ _ => trivial) fun f' name v _ h => h.bind name v
    have hstart : (Regime.ofFrame sc f.Grows fun _ => True).invariant st :=
      ⟨⟨f, hf, .refl f⟩, st.every_quotes_any⟩
    exact (Regime.invariant_evaluate (fun _ => trivial) (S.eval depth n sc trivial) hstart).1
  · intro he hn hquotes f hf
    exact Regime.frame?_evaluate (Regime.eval_wellSorted depth n (.inl he) hn) hf hquotes

/-- Quoting and unquoting a sum leaves an empty frame empty. -/
theorem Node.evaluate_quoted_sum :
    let n : Node :=
      .call (.ident "quote") [.call (.ident "unquote") [.infixOp (.int 1) "+" (.int 2)]]
    (n.evaluate 9 ⟨0⟩ Store.empty.newRoot.2).store.frame? ⟨0⟩ = some ⟨none, []⟩ := by
  have hquotes : Store.empty.newRoot.2.Every (Value.Quotes Node.WellSorted) := by
    intro sc f hf
    rw [Store.newRoot, Store.frame?_addFrame] at hf
    split at hf
    · obtain rfl := Option.some.inj hf
      simp
    · cases hf
  exact (Node.evaluate_changesOnly 9 _ ⟨0⟩ Store.empty.newRoot.2).2 rfl (by decide) hquotes _ rfl

/-- A store in which `q` is a quoted tree that no program text has: a `let` in the place of an
operand. -/
def Store.quotingLet : Store :=
  Store.empty.newRoot.2.define ⟨0⟩ "q" (.quote 0 (.prefixOp "!" (.letStmt "x" (.int 1))))

/-- That the expression is well sorted is not enough. A quoted `let` in the place of an operand
binds its name in the scope of the quotation when it is unquoted twice. -/
theorem Node.evaluate_binds_unquoted_let :
    ¬ ∀ (depth : Nat) (n : Node) (sc : Scope) (st : Store) (f : Frame) (v : Value),
      n.isExpression = true → n.WellSorted → st.frame? sc = some f →
        (n.evaluate depth sc st).result = .ok v →
        (n.evaluate depth sc st).store.frame? sc = some f := by
  intro h
  have hok : (Node.evaluate 9 (.call (.ident "quote") [.call (.ident "unquote")
      [.call (.ident "unquote") [.ident "q"]]]) ⟨0⟩ .quotingLet).result.isOk = true := by
    rw [Node.evaluate, run_eq, outcome_eval]
    decide +kernel
  have hkeys : ((Node.evaluate 9 (.call (.ident "quote") [.call (.ident "unquote")
      [.call (.ident "unquote") [.ident "q"]]]) ⟨0⟩ .quotingLet).store.bindings ⟨0⟩).keys =
        ["q", "x"] := by
    rw [Node.evaluate, run_eq, outcome_eval]
    decide +kernel
  cases hvalue : (Node.evaluate 9 (.call (.ident "quote") [.call (.ident "unquote")
      [.call (.ident "unquote") [.ident "q"]]]) ⟨0⟩ .quotingLet).result with
  | error f =>
    rw [hvalue] at hok
    cases hok
  | ok v =>
    have hframe := h 9 _ ⟨0⟩ .quotingLet _ v rfl (by decide) rfl hvalue
    rw [Store.bindings, hframe] at hkeys
    cases hkeys

end Monkey
