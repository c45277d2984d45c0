import Monkey.Node.Equality
import Monkey.Proofs.Discipline
import Monkey.Proofs.Jump
import Monkey.Proofs.ParserSound
import Monkey.Proofs.Upkeep

/-!
# Passing markers on is jumping

In a program in which every `if` with a `return` in it is a statement of its own,
a marker is never seen but by what passes it on: the statements around, up to the
end of the call or program. There it is taken off. So evaluation with markers
and evaluation with jumps agree step by step: one comes to a marker where the other
jumps, and they come to the same in all else, and leave the same store.

The evaluations that can come to a marker are those of trees with a `return` of
their own. All others agree outright, and what is computed from their values does
too, which is a judgement like any other.

## Main definitions

* `Value.Unmarked` — values in which no marker is, and no tree that could make one.
* `Jumping.Agrees`, `Jumping.agreement` — the agreement of evaluations that may
  come to a marker, and of computations that may not.

## Main results

* `Jumping.agrees_rule` — one construct agrees when its parts do.
* `Node.evaluate_eq_jumping` — whole programs.
-/

namespace Monkey

open Monkey.Computation Monkey.Attempt

/-- Values in which no marker is. The bodies of functions in them are orderly, and quoted trees are
calm. -/
def Value.Unmarked : Value → Prop
  | .returned _ _ => False
  | .quote _ n => n.Calm
  | .function _ _ body _ => body.Orderly
  | _ => True

/-- The outcome with jumps that is meant by an outcome with markers: a marker is a jump. -/
def Outcome.jumps : Outcome Value → JumpOutcome Value
  | ⟨.ok (.returned _ v), st⟩ => ⟨.error (.jump v), st⟩
  | o => o.plain

/-- A result of unmarked values is no marker. -/
theorem Value.Result.jumps {v : Value} (h : v.Result Unmarked) (st : Store) :
    (⟨.ok v, st⟩ : Outcome Value).jumps = ⟨.ok v, st⟩ := by
  cases v with
  | returned i w =>
    rcases h with he | hv
    · cases he
    · exact (every_iff.1 hv).1.elim
  | _ => rfl

theorem Value.Result.unwrapped_eq {v : Value} (h : v.Result Unmarked) : v.unwrapped = v := by
  cases v with
  | returned i w =>
    rcases h with he | hv
    · cases he
    · exact (every_iff.1 hv).1.elim
  | _ => rfl

namespace Jumping

/-- With jumps, a computation does what it does with markers, from every store without markers: it
leaves such a store, and its answer satisfies `post`. -/
def Same (depth : Nat) {α : Type} (x : Computation α) (post : α → Prop) : Prop :=
  ∀ st, st.Every Value.Unmarked →
    (embed (evalWithin depth)).apply x st = (x.outcome evalRule depth st).plain ∧
      (x.outcome evalRule depth st).store.Every Value.Unmarked ∧
      ∀ a, (x.outcome evalRule depth st).result = .ok a → post a

theorem same_bind {depth : Nat} {α β : Type} {x : Computation α} {f : α → Computation β}
    {mid : α → Prop} {post : β → Prop} (hx : Same depth x mid)
    (hf : ∀ a, mid a → Same depth (f a) post) : Same depth (x >>= f) post := by
  intro st hst
  obtain ⟨heq, hend, hmid⟩ := hx st hst
  rw [Translation.bind, bind_apply, Computation.outcome_bind, heq]
  generalize x.outcome evalRule depth st = o at hend hmid ⊢
  obtain ⟨result, st'⟩ := o
  cases result with
  | error e => exact ⟨rfl, hend, by simp⟩
  | ok a => exact hf a (hmid a rfl) st' hend

/-- The judgement that computations are the same with jumps as they are with markers. -/
def agreement (depth : Nat) : Judgement Computation where
  holds := Same depth
  pure h := fun st hst => ⟨rfl, hst, fun a ha => by cases ha; exact h⟩
  bind := same_bind
  mono hx h := fun st hst =>
    let ⟨heq, hend, hmid⟩ := hx st hst
    ⟨heq, hend, fun a ha => h a (hmid a ha)⟩

/-- From every store without markers, `y` jumps where `x` comes to a marker, which it only does if
`marks` holds, and otherwise comes to what `x` comes to. Both leave the same store, in which
there is no marker. -/
def Agrees (depth : Nat) (marks : Prop) (y : Jumping Value) (x : Computation Value) : Prop :=
  ∀ st, st.Every Value.Unmarked →
    y st = (x.outcome evalRule depth st).jumps ∧
      (x.outcome evalRule depth st).store.Every Value.Unmarked ∧
      ∀ v, (x.outcome evalRule depth st).result = .ok v → v.Result Value.Unmarked ∨
        marks ∧ ∃ i w, v = .returned i w ∧ w.Every Value.Unmarked

namespace Agrees
variable {depth : Nat} {marks : Prop} {x : Computation Value} {y : Jumping Value}

theorem mono {marks' : Prop} (h : Agrees depth marks y x) (himp : marks → marks') :
    Agrees depth marks' y x := by
  intro st hst
  obtain ⟨heq, hend, hpost⟩ := h st hst
  exact ⟨heq, hend, fun v hv => (hpost v hv).imp_right fun hm => ⟨himp hm.1, hm.2⟩⟩

/-- What is the same with jumps, and comes to a result, agrees. -/
theorem of_same (h : (agreement depth).holds x (Value.Result Value.Unmarked)) :
    Agrees depth marks ((embed (evalWithin depth)).apply x) x := by
  intro st hst
  obtain ⟨heq, hend, hpost⟩ := h st hst
  refine ⟨heq.trans ?_, hend, fun v hv => .inl (hpost v hv)⟩
  generalize x.outcome evalRule depth st = o at hpost ⊢
  obtain ⟨result, st'⟩ := o
  cases result with
  | error e => rfl
  | ok v => exact ((hpost v rfl).jumps st').symm

/-- What agrees and comes to no marker does not jump. -/
theorem plain (h : Agrees depth marks y x) (hno : ¬ marks) {st : Store}
    (hst : st.Every Value.Unmarked) :
    y st = (x.outcome evalRule depth st).plain ∧
      ∀ v, (x.outcome evalRule depth st).result = .ok v → v.Result Value.Unmarked := by
  obtain ⟨heq, -, hpost⟩ := h st hst
  have hresult : ∀ v, (x.outcome evalRule depth st).result = .ok v → v.Result Value.Unmarked :=
    fun v hv => (hpost v hv).resolve_right fun hm => hno hm.1
  refine ⟨heq.trans ?_, hresult⟩
  generalize x.outcome evalRule depth st = o at hresult ⊢
  obtain ⟨result, st'⟩ := o
  cases result with
  | error e => rfl
  | ok v => exact (hresult v rfl).jumps st'

/-- What agrees and comes to no marker is the same with jumps. -/
theorem same (h : Agrees depth marks ((embed (evalWithin depth)).apply x) x) (hno : ¬ marks) :
    (agreement depth).holds x (Value.Result Value.Unmarked) :=
  fun st hst => ⟨(h.plain hno hst).1, (h st hst).2.1, (h.plain hno hst).2⟩

/-- Behind what is the same, evaluation agrees if what follows does. -/
theorem after {α : Type} {x : Computation α} {f : α → Computation Value} {g : α → Jumping Value}
    {mid : α → Prop} (hx : (agreement depth).holds x mid)
    (hf : ∀ a, mid a → Agrees depth marks (g a) (f a)) :
    Agrees depth marks ((embed (evalWithin depth)).apply x >>= g) (x >>= f) := by
  intro st hst
  obtain ⟨heq, hend, hmid⟩ := hx st hst
  rw [bind_apply, Computation.outcome_bind, heq]
  generalize x.outcome evalRule depth st = o at hend hmid ⊢
  obtain ⟨result, st'⟩ := o
  cases result with
  | error e => exact ⟨rfl, hend, by simp⟩
  | ok a => exact hf a (hmid a rfl) st' hend

/-- What passes markers on agrees behind what agrees: there, a jump is not caught. -/
theorem passing {f : Value → Computation Value} {g : Value → Jumping Value}
    (hx : Agrees depth marks y x)
    (hf : ∀ v, v.Result Value.Unmarked → Agrees depth marks (g v) (f v))
    (hpass : ∀ i w, f (.returned i w) = pure (.returned i w)) :
    Agrees depth marks (y >>= g) (x >>= f) := by
  intro st hst
  obtain ⟨heq, hend, hpost⟩ := hx st hst
  rw [bind_apply, Computation.outcome_bind, heq]
  generalize x.outcome evalRule depth st = o at hend hpost ⊢
  obtain ⟨result, st'⟩ := o
  cases result with
  | error e => exact ⟨rfl, hend, by simp⟩
  | ok v =>
    rcases hpost v rfl with hv | ⟨hmarks, i, w, rfl, hw⟩
    · rw [hv.jumps]
      exact hf v hv st' hend
    · simp only [hpass]
      refine ⟨rfl, hend, fun v hv => ?_⟩
      cases hv
      exact .inr ⟨hmarks, i, w, rfl, hw⟩

/-- Where a marker is taken off, a jump lands. -/
theorem landing {marks' : Prop} (h : Agrees depth marks y x) :
    Agrees depth marks' (land y) (x >>= fun v => return v.unwrapped) := by
  intro st hst
  obtain ⟨heq, hend, hpost⟩ := h st hst
  rw [Computation.outcome_bind, land, heq]
  generalize x.outcome evalRule depth st = o at hend hpost ⊢
  obtain ⟨result, st'⟩ := o
  cases result with
  | error e => exact ⟨rfl, hend, by simp⟩
  | ok v =>
    rcases hpost v rfl with hv | ⟨-, i, w, rfl, hw⟩
    · rw [hv.jumps]
      simp only [Computation.outcome_pure, hv.unwrapped_eq, hv.jumps]
      refine ⟨trivial, hend, fun u hu => ?_⟩
      cases hu
      exact .inl hv
    · have hres : w.Result Value.Unmarked := .inr hw
      simp only [Computation.outcome_pure, Value.unwrapped, hres.jumps]
      refine ⟨rfl, hend, fun u hu => ?_⟩
      cases hu
      exact .inl hres

end Agrees
/-! ## The steps of evaluation -/

section Same
variable {depth : Nat} {α : Type}

theorem same_fail (e : Failure) (post : α → Prop) :
    (agreement depth).holds (fail e : Computation α) post :=
  fun st hst => ⟨rfl, hst, by simp⟩

theorem same_reading {f : Store → α} {post : α → Prop}
    (h : ∀ st, st.Every Value.Unmarked → post (f st)) :
    (agreement depth).holds (reading f) post := by
  refine fun st hst => ⟨rfl, hst, fun a ha => ?_⟩
  cases ha
  exact h st hst

theorem same_yielding {f : Store → α × Store} {post : α → Prop}
    (h : ∀ st, st.Every Value.Unmarked → (f st).2.Every Value.Unmarked ∧ post (f st).1) :
    (agreement depth).holds (yielding f) post := by
  refine fun st hst => ⟨rfl, (h st hst).1, fun a ha => ?_⟩
  cases ha
  exact (h st hst).2

theorem same_modify {f : Store → Store}
    (h : ∀ st, st.Every Value.Unmarked → (f st).Every Value.Unmarked) :
    (agreement depth).holds (modify f) fun _ => True :=
  fun st hst => ⟨rfl, h st hst, fun _ _ => trivial⟩

theorem same_openScope (sc : Scope) {bindings : Table String Value}
    (hb : ∀ b ∈ bindings, b.2.Every Value.Unmarked) :
    (agreement depth).holds (openScope sc bindings) fun _ => True :=
  same_yielding fun _ hst => ⟨Store.every_addFrame hst hb, trivial⟩

end Same

theorem unmarked_of_isData {v : Value} (h : v.isData = true) : v.Unmarked := by
  cases v <;> first | exact trivial | cases h

/-- The steps of evaluation are the same with jumps. -/
theorem steps (depth : Nat) : Steps (agreement depth) Value.Unmarked where
  data _ := unmarked_of_isData
  fresh := same_yielding fun _ hst => ⟨Store.every_of_frames hst rfl, trivial⟩
  printLine _ := same_modify fun _ hst => Store.every_of_frames hst rfl
  unwritable := same_fail _ _
  unbound _ _ := same_reading fun _ _ => trivial

/-- Names mean the same with jumps. -/
theorem finds (depth : Nat) (sc : Scope) : Finds (agreement depth) Value.Unmarked sc :=
  fun _ => same_reading fun _ hst _ hv => Store.every_lookup hst hv

/-! ## The constructs -/

section Rule
variable {depth : Nat}
  (ih : ∀ n sc, n.Orderly → Agrees depth n.Returns (evalWithin depth n sc) (eval n sc))
include ih

/-- Trees without a `return` are evaluated the same. -/
theorem same_calm {n : Node} (hn : n.Calm) (sc : Scope) :
    (agreement depth).holds (eval n sc) (Value.Result Value.Unmarked) := by
  have h := ih n sc hn.1
  rw [← embed_eval (evalWithin depth) n sc] at h
  exact h.same hn.2

/-- So are the operands of an orderly tree, but for a statement's expression. -/
theorem same_operands {n : Node} (hn : n.Orderly) (hstmt : ∀ e, n ≠ .exprStmt e) (sc : Scope) :
    ∀ m ∈ n.operands, (agreement depth).holds (eval m sc) (Value.Result Value.Unmarked) :=
  fun m hm => same_calm ih (hn.operand hm (hstmt m)).2 sc

/-- Statements agree up to the first that ends in a marker or jumps. -/
theorem agrees_statements {marks : Prop} {sc : Scope} : ∀ {ss : List Node} {otherwise : Value},
    (∀ s ∈ ss, s.Orderly ∧ (s.Returns → marks)) → otherwise.Result Value.Unmarked →
    Agrees depth marks ((embed (evalWithin depth)).apply (evalStatements sc otherwise ss))
      (evalStatements sc otherwise ss)
  | [], _, _, ho => .of_same ((agreement depth).pure ho)
  | s :: ss, otherwise, hss, _ => by
    obtain ⟨hs, hmarks⟩ := hss s List.mem_cons_self
    rw [evalStatements, Translation.bind, embed_eval]
    refine ((ih s sc hs).mono hmarks).passing (fun v hv => ?_) fun _ _ => rfl
    split
    · exact .of_same ((agreement depth).pure hv)
    · exact agrees_statements (fun s h => hss s (List.mem_cons_of_mem _ h)) hv

/-- The statements of an orderly program or block agree. -/
theorem agrees_listed {n : Node} (hn : n.Orderly) (hbody : ∀ ps body, n ≠ .fnLit ps body ∧
    n ≠ .macroLit ps body) (sc : Scope) :
    Agrees depth n.Returns ((embed (evalWithin depth)).apply (evalStatements sc .null n.listed))
      (evalStatements sc .null n.listed) := by
  refine agrees_statements ih (fun s hs => ?_) (.inr (.intro trivial (by simp)))
  have hchild : s ∈ n.children := Node.mem_children.2 (.inr (.inl hs))
  exact ⟨hn.child hchild, .inside hbody hchild⟩

/-- An `if` agrees: its condition is an operand, and it passes on what its branch comes to. -/
theorem agrees_ifExpr {c : Node} {t : List Node} {e : Option (List Node)}
    (hn : (Node.ifExpr c t e).Orderly) (sc : Scope) :
    Agrees depth (Node.ifExpr c t e).Returns
      ((embed (evalWithin depth)).apply (evalRule (.ifExpr c t e) sc))
      (evalRule (.ifExpr c t e) sc) := by
  have hcond := same_operands ih hn (by simp) sc c (by simp)
  have hbranch : ∀ ss ∈ t :: e.toList, Agrees depth (Node.ifExpr c t e).Returns
      ((embed (evalWithin depth)).apply (eval (.block ss) sc)) (eval (.block ss) sc) := by
    intro ss hss
    have hchild : Node.block ss ∈ (Node.ifExpr c t e).children :=
      Node.mem_children.2 (.inr (.inr ⟨ss, hss, rfl⟩))
    rw [embed_eval]
    exact (ih (.block ss) sc (hn.child hchild)).mono (.inside (by simp) hchild)
  have hnull : Value.null.Result Value.Unmarked := .inr (.intro trivial (by simp))
  unfold evalRule
  dsimp only
  rw [settle_need_bind, Translation.bind]
  refine .after hcond fun v hv => ?_
  split
  · exact .of_same ((agreement depth).pure hv)
  · split
    · rw [settle_lift]
      exact hbranch t List.mem_cons_self
    · cases e with
      | some ss =>
        rw [settle_lift]
        exact hbranch ss (by simp)
      | none => exact .of_same ((agreement depth).pure hnull)

/-- A `return` jumps with the value that it would mark. -/
theorem agrees_returnStmt {e : Node} (hn : (Node.returnStmt e).Orderly) (sc : Scope) :
    Agrees depth (Node.returnStmt e).Returns (rule (evalWithin depth) (.returnStmt e) sc)
      (evalRule (.returnStmt e) sc) := by
  have hoperand := same_operands ih hn (by simp) sc e (by simp)
  have hrule : evalRule (.returnStmt e) sc = settle (need e sc >>= fun v => do
      let i ← fresh
      return .returned i v) := rfl
  rw [hrule, settle_bind]
  refine .after (Upkeep.need hoperand) fun r hr => ?_
  cases r with
  | error e => exact .of_same ((agreement depth).pure (.inl hr))
  | ok v =>
    intro st hst
    refine ⟨rfl, Store.every_of_frames hst rfl, fun u hu => ?_⟩
    cases hu
    exact .inr ⟨.here, _, v, rfl, hr⟩

/-- A call agrees: what is called and what it is given are the same, and the body of a function
jumps to its end where it would come to a marker, which is taken off there. -/
theorem agrees_call {marks : Prop} {callee : Value} {args : List Value}
    (hcallee : callee.Every Value.Unmarked) (hargs : ∀ v ∈ args, v.Every Value.Unmarked) :
    Agrees depth marks (call (evalWithin depth) callee args) (callee.call args) := by
  by_cases hfunction : ∃ i params body sc, callee = .function i params body sc ∧
      args.length = params.length
  · obtain ⟨i, params, body, sc, rfl, hlength⟩ := hfunction
    rw [call, if_pos hlength, Value.call, if_pos hlength]
    refine .after (same_openScope sc (Upkeep.bindParams hargs)) fun inner _ => ?_
    exact (ih body inner (Value.every_iff.1 hcallee).1).landing
  · have hsame : (agreement depth).holds (callee.call args) (Value.Result Value.Unmarked) := by
      refine (steps depth).call hargs fun i params body sc hcallee hlength => ?_
      exact absurd ⟨i, params, body, sc, hcallee, hlength⟩ hfunction
    have hcall : call (evalWithin depth) callee args =
        (embed (evalWithin depth)).apply (callee.call args) := by
      unfold call
      split
      · next i params body sc =>
        rw [if_neg fun hlength => hfunction ⟨i, params, body, sc, rfl, hlength⟩]
      · rfl
    rw [hcall]
    exact .of_same hsame

/-- What is quoted is the same: what `unquote` evaluates are operands. -/
theorem same_quotation {args : List Node}
    (hn : (Node.call (.ident "quote") args).Orderly) (sc : Scope) :
    (Upkeep.attempts (agreement depth)).holds (evalQuotation args sc)
      (Value.Result Value.Unmarked) := by
  unfold evalQuotation
  split
  · next arg =>
    have harg : arg.Calm := (hn.operand (by simp) (by simp)).2
    have hrewriting : (Upkeep.attempts (agreement depth)).Rewriting (unquoteStep sc) Node.Orderly
        Node.Keeps fun _ => True :=
      { below n h c hc := h.child hc
        answers n n' h hlift := by
          have hkeeps := h.of_lifts hlift
          refine (steps depth).unquoteStep (fun arg' harg' => ?_) (fun _ v e _ hv he => ?_) fun _ => hkeeps
          · subst harg'
            exact same_calm ih (hkeeps.1.operand (by simp) (by simp)).2 sc
          · have hcalm : e.Calm := Value.calm_toNode (fun _ _ hq => hq) hv he
            exact ⟨hcalm.1, fun hret => absurd hret hcalm.2⟩
        expression _ _ _ _ _ _ := .inr trivial
        statement _ _ _ _ _ _ := .inr trivial
        block _ _ _ _ := .inr trivial }
    refine (steps depth).quotation (fun _ _ => same_fail _ _) hrewriting harg.1 fun i n hkeeps => ?_
    exact ⟨hkeeps.1, fun hret => harg.2 (hkeeps.2 hret)⟩
  · exact (steps depth).reject _

/-- A call expression that is no quotation agrees. -/
theorem agrees_evalCall {marks : Prop} {callee : Node} {args : List Node}
    (hn : (Node.call callee args).Orderly) (sc : Scope) :
    Agrees depth marks (evalCall (evalWithin depth) callee args sc)
      (settle (Monkey.evalCall callee args sc)) := by
  have hoperands := same_operands ih hn (by simp) sc
  rw [evalCall_eq, settle_bind]
  refine .after (Upkeep.evalOperands hoperands) fun r hr => ?_
  cases r with
  | error e => exact .of_same ((agreement depth).pure (.inl hr))
  | ok p =>
    show Agrees depth marks (call (evalWithin depth) p.1 p.2) (settle (liftM (p.1.call p.2)))
    rw [settle_lift]
    exact agrees_call ih (hr p.1 List.mem_cons_self) fun v hv => hr v (List.mem_cons_of_mem _ hv)

/-- A call expression agrees. -/
theorem agrees_callExpression {callee : Node} {args : List Node}
    (hn : (Node.call callee args).Orderly) (sc : Scope) :
    Agrees depth (Node.call callee args).Returns (rule (evalWithin depth) (.call callee args) sc)
      (evalRule (.call callee args) sc) := by
  have hcall : Agrees depth (Node.call callee args).Returns
      (evalCall (evalWithin depth) callee args sc) (settle (Monkey.evalCall callee args sc)) :=
    agrees_evalCall ih hn sc
  unfold rule evalRule
  dsimp only
  split
  · next hq =>
    obtain rfl := Node.isIdent_iff.1 hq
    rw [evalQuoteCall_eq, settle_lift_bind]
    refine .after ((steps depth).unbound "quote" sc) fun unbound _ => ?_
    split
    · exact .of_same (Upkeep.settleResult (same_quotation ih hn sc))
    · exact hcall
  · exact hcall

/-- One level deeper evaluation agrees, as every construct does. -/
theorem agrees_rule (n : Node) (sc : Scope) (hn : n.Orderly) :
    Agrees depth n.Returns (rule (evalWithin depth) n sc) (evalRule n sc) := by
  have hsame : (∀ ss, n ≠ .program ss) → (∀ ss, n ≠ .block ss) → (∀ e, n ≠ .exprStmt e) →
      (∀ e, n ≠ .returnStmt e) → (∀ c t e, n ≠ .ifExpr c t e) → (∀ f args, n ≠ .call f args) →
      (agreement depth).holds (evalRule n sc) (Value.Result Value.Unmarked) := by
    intro hprogram hblock hexpr hreturn hif hcall
    have hparts : n.parts = n.operands := by
      cases n with
      | program ss => exact absurd rfl (hprogram ss)
      | ifExpr c t e => exact absurd rfl (hif c t e)
      | _ => rfl
    have hbody : ∀ ps b, n = .fnLit ps b → (Node.block b).Orderly := by
      rintro ps b rfl
      exact hn.child (by simp [Node.children])
    refine (steps depth).evalRule (finds depth sc) ?_ ?_ ?_ ?_ ?_ ?_ ?_ ?_
    · rw [hparts]
      exact same_operands ih hn hexpr sc
    · exact fun ss h => absurd h (hblock ss)
    · exact fun f args h => absurd h (hcall f args)
    · exact fun name e v _ hv => same_modify fun st hst => Store.every_define hst hv
    · exact fun e i v h => absurd h (hreturn e)
    · exact fun ps b i h => hbody ps b h
    · exact fun ps b i _ => trivial
    · exact fun arg h => absurd h (hcall _ _)
  cases n with
  | program ss => exact (agrees_listed ih hn (by simp) sc).landing
  | block ss =>
    show Agrees depth _ ((embed (evalWithin depth)).apply (openScope sc [] >>= fun inner => _)) _
    rw [Translation.bind]
    refine .after (same_openScope sc (by simp)) fun inner _ => ?_
    exact agrees_listed ih hn (by simp) inner
  | exprStmt e =>
    have hchild : e ∈ (Node.exprStmt e).children := by simp [Node.children]
    show Agrees depth _ ((embed (evalWithin depth)).apply (eval e sc)) (eval e sc)
    rw [embed_eval]
    exact (ih e sc (hn.child hchild)).mono (.inside (by simp) hchild)
  | returnStmt e => exact agrees_returnStmt ih hn sc
  | ifExpr c t e => exact agrees_ifExpr ih hn sc
  | call callee args => exact agrees_callExpression ih hn sc
  | _ => exact .of_same (hsame (by simp) (by simp) (by simp) (by simp) (by simp) (by simp))

end Rule

/-- Evaluation with jumps and evaluation with markers agree, however deep. -/
theorem agrees (depth : Nat) : ∀ n sc, n.Orderly →
    Agrees depth n.Returns (evalWithin depth n sc) (eval n sc) := by
  induction depth with
  | zero =>
    intro n sc _ st hst
    rw [outcome_eval]
    exact ⟨rfl, hst, by simp⟩
  | succ depth ih =>
    intro n sc hn st hst
    rw [outcome_eval_succ]
    exact agrees_rule ih n sc hn st hst

end Jumping

/-- Passing markers on is jumping. A program that the parser built, in which every `if` with
a `return` in it is the whole expression of a statement, evaluates from an empty frame to the same
with markers and with jumps, and leaves the same store: the same bindings and the same output.
That is so however deep evaluation may nest, so if one of the two never ends, neither does the
other. -/
theorem Node.evaluate_eq_jumping {source : String} {p : Node} (hparse : Source.parse source = .ok p)
    (hp : p.Disciplined) (depth : Nat) :
    Jumping.evalWithin depth p ⟨0⟩ Store.empty.newRoot.2 =
      (p.evaluate depth ⟨0⟩ Store.empty.newRoot.2).plain := by
  have hstore : Store.empty.newRoot.2.Every Value.Unmarked :=
    Store.every_addFrame (by simp [Store.Every, Store.empty, Store.frame?]) (by simp)
  have hn : p.Orderly := ⟨Source.parse_wellSorted hparse, hp⟩
  obtain ⟨ws, -, hderives⟩ := Source.parse_sound hparse
  rw [Node.evaluate, Computation.run_eq]
  cases depth with
  | zero => rw [outcome_eval]; rfl
  | succ depth =>
    cases hderives with
    | @program ss =>
    rw [outcome_eval_succ]
    have hagrees : Jumping.Agrees depth False
        (Jumping.rule (Jumping.evalWithin depth) (.program ss) ⟨0⟩) (evalRule (.program ss) ⟨0⟩) :=
      (Jumping.agrees_listed (Jumping.agrees depth) hn (by simp) ⟨0⟩).landing
    exact (hagrees.plain id hstore).1

/-- A function that returns early, out of an `if`. -/
theorem Node.evaluate_eq_jumping_early_return :
    let source := "fn(x) \x7b if (!x) \x7b return 1; \x7d 2; \x7d(false);"
    let p : Node := .program [.exprStmt (.call
      (.fnLit ["x"] [.exprStmt (.ifExpr (.prefixOp "!" (.ident "x")) [.returnStmt (.int 1)] none),
        .exprStmt (.int 2)]) [.bool false])]
    Source.parse source = .ok p ∧ p.Disciplined ∧
      Jumping.evalWithin 9 p ⟨0⟩ Store.empty.newRoot.2 =
        (p.evaluate 9 ⟨0⟩ Store.empty.newRoot.2).plain := by
  intro source p
  have hoption : (Source.parse source).toOption = some p := by decide +kernel
  have hparse : Source.parse source = .ok p := by
    cases hresult : Source.parse source with
    | error e =>
      rw [hresult] at hoption
      cases hoption
    | ok q =>
      rw [hresult] at hoption
      rw [Option.some.inj hoption]
  have hwhole : ∀ t ∈ p.subtrees, ∀ c ∈ t.operands, c.isIf = true → t = .exprStmt c := by
    decide +kernel
  have hp : p.Disciplined := fun t ht c hc hif _ => hwhole t ht c hc hif
  exact ⟨hparse, hp, Node.evaluate_eq_jumping hparse hp 9⟩

end Monkey
