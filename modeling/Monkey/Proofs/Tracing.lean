import Monkey.Proofs.Calls

/-!
# Runs that are followed step by step

Some programs are known and call others that are not. Of a run of such a program it can
be told what it comes to, and which evaluations take place in it: those of the known
trees, and between them evaluations of one tree that is not looked into, in which anything
may go on.

`Traces` says both at once. It goes through sequences and through the ways to make an
attempt, so a run is followed by going through the rules of evaluation.

## Main definitions

* `Visit.Interleaved` — visits of known trees, and between them those of one tree with
  all that is inside them.
* `Traces` — what a computation comes to, and the visits of it.

## Main results

* `Traces.bind`, `Traces.goOn`, `Traces.stop` — sequences.
* `Traces.call`, `Traces.ifExpr`, `Traces.block` and others, one for each construct.
-/

namespace Monkey

open Monkey.Computation Monkey.Attempt

/-- Visits of trees that are `own`, and between them, in order, visits of the tree `other`, each
followed by all that is visited inside it. -/
inductive Visit.Interleaved (own : Node → Prop) (other : Node) : List Visit → List Visit → Prop
  | nil : Interleaved own other [] []
  | own {w : Visit} {vs ws : List Visit} : own w.node → Interleaved own other vs ws →
    Interleaved own other (w :: vs) ws
  | other {w : Visit} {vs ws : List Visit} : w.node = other → Interleaved own other vs ws →
    Interleaved own other (w :: (w.inside evalRule ++ vs)) (w :: ws)

theorem Visit.Interleaved.append {own : Node → Prop} {other : Node} {vs vs' ws ws' : List Visit}
    (h : Interleaved own other vs ws) (h' : Interleaved own other vs' ws') :
    Interleaved own other (vs ++ vs') (ws ++ ws') := by
  induction h with
  | nil => exact h'
  | own hown _ ih => exact .own hown ih
  | other hother _ ih =>
    rw [List.cons_append, List.append_assoc]
    exact .other hother ih

/-- The computation answers `a` and takes the one store to the other. It visits `own` trees and, in
the visits `ws`, the other one. -/
structure Traces (own : Node → Prop) (other : Node) (depth : Nat) {α : Type} (x : Computation α)
    (st : Store) (a : α) (st' : Store) (ws : List Visit) : Prop where
  outcome : x.outcome evalRule depth st = ⟨.ok a, st'⟩
  visits : Visit.Interleaved own other (x.visits evalRule depth st) ws

namespace Traces
variable {α β : Type} {own : Node → Prop} {other : Node} {depth : Nat} {st st₁ st₂ st' : Store}
  {ws ws' : List Visit}

/-! ## Computations -/

/-- What a computation comes to depends on how it goes from its store only. -/
theorem of_eq {x y : Computation α} {a : α} (hxy : x st = y st)
    (h : Traces own other depth y st a st' ws) : Traces own other depth x st a st' ws where
  outcome := (congrArg (Progress.resolve (evalWithin evalRule depth)) hxy).trans h.outcome
  visits := by
    have hvisits : x.visits evalRule depth st = y.visits evalRule depth st :=
      congrArg (Progress.visits (visitsWithin evalRule depth) (evalWithin evalRule depth)) hxy
    rw [hvisits]
    exact h.visits

theorem pure (a : α) : Traces own other depth (Pure.pure a) st a st [] := ⟨rfl, .nil⟩

theorem reading (f : Store → α) : Traces own other depth (reading f) st (f st) st [] := ⟨rfl, .nil⟩

theorem modify (f : Store → Store) : Traces own other depth (modify f) st () (f st) [] :=
  ⟨rfl, .nil⟩

theorem yielding (f : Store → α × Store) :
    Traces own other depth (yielding f) st (f st).1 (f st).2 [] := ⟨rfl, .nil⟩

theorem bind {x : Computation α} {f : α → Computation β} {a : α} {b : β}
    (hx : Traces own other depth x st a st₁ ws) (hf : Traces own other depth (f a) st₁ b st' ws') :
    Traces own other depth (x >>= f) st b st' (ws ++ ws') where
  outcome := by
    rw [Computation.outcome_bind, hx.outcome]
    exact hf.outcome
  visits := by
    rw [Computation.visits_bind, hx.outcome]
    exact hx.visits.append hf.visits

/-- What follows may visit nothing that is not looked into. -/
theorem through {x : Computation α} {f : α → Computation β} {a : α} {b : β}
    (hx : Traces own other depth x st a st₁ ws) (hf : Traces own other depth (f a) st₁ b st' []) :
    Traces own other depth (x >>= f) st b st' ws := by
  have h := hx.bind hf
  rwa [List.append_nil] at h

/-- An own tree is evaluated by its rule. -/
theorem eval {n : Node} {sc : Scope} {v : Value} (hown : own n)
    (h : Traces own other depth (evalRule n sc) st v st' ws) :
    Traces own other (depth + 1) (Computation.eval n sc) st v st' ws where
  outcome := (outcome_eval_succ evalRule depth st n sc).trans h.outcome
  visits := by
    rw [visits_eval_succ]
    exact .own hown h.visits

/-- What goes on in the other tree is not looked into. -/
theorem evalOther {w : Visit} {v : Value} (hother : w.node = other)
    (h : w.outcome evalRule = ⟨.ok v, st'⟩) :
    Traces own other (w.depth + 1) (Computation.eval w.node w.scope) w.store v st' [w] where
  outcome := (outcome_eval_succ evalRule w.depth w.store w.node w.scope).trans h
  visits := by
    rw [visits_eval_succ]
    have hvisits : Visit.Interleaved own other (w :: (w.inside evalRule ++ [])) [w] :=
      .other hother .nil
    rwa [List.append_nil] at hvisits

/-! ## Attempts -/

/-- Behind what has succeeded, an attempt goes on. -/
theorem goOn {x : Attempt α} {f : α → Attempt β} {a : α} {r : Except Value β}
    (hx : Traces own other depth x.run st (.ok a) st₁ ws)
    (hf : Traces own other depth (f a).run st₁ r st' ws') :
    Traces own other depth (x >>= f).run st r st' (ws ++ ws') :=
  hx.bind hf

theorem goOnThrough {x : Attempt α} {f : α → Attempt β} {a : α} {r : Except Value β}
    (hx : Traces own other depth x.run st (.ok a) st₁ ws)
    (hf : Traces own other depth (f a).run st₁ r st' []) :
    Traces own other depth (x >>= f).run st r st' ws :=
  hx.through hf

/-- An attempt whose first part is given up is given up. -/
theorem stop {x : Attempt α} {f : α → Attempt β} {e : Value}
    (hx : Traces own other depth x.run st (.error e) st' ws) :
    Traces own other depth (x >>= f).run st (.error e) st' ws :=
  hx.through (.pure _)

theorem lift {x : Computation α} {a : α} (hx : Traces own other depth x st a st' ws) :
    Traces own other depth (liftM x : Attempt α).run st (.ok a) st' ws :=
  hx.through (.pure _)

/-- The value of an attempt is its answer, or the error that it was given up with. -/
theorem settle {x : Attempt Value} {r : Except Value Value} {v : Value} (hr : r = .ok v ∨ r = .error v)
    (hx : Traces own other depth x.run st r st' ws) :
    Traces own other depth (settle x) st v st' ws := by
  refine hx.through ?_
  rcases hr with rfl | rfl <;> exact .pure v

theorem need {n : Node} {sc : Scope} {v : Value}
    (h : Traces own other depth (Computation.eval n sc) st v st' ws) :
    Traces own other depth (need n sc).run st (if v.isError then .error v else .ok v) st' ws := by
  refine h.lift.goOnThrough ?_
  split <;> exact .pure _

theorem need_ok {n : Node} {sc : Scope} {v : Value}
    (h : Traces own other depth (Computation.eval n sc) st v st' ws) (hv : v.isError = false) :
    Traces own other depth (Attempt.need n sc).run st (.ok v) st' ws := by
  have hneed := h.need
  rwa [hv] at hneed

theorem need_error {n : Node} {sc : Scope} {v : Value}
    (h : Traces own other depth (Computation.eval n sc) st v st' ws) (hv : v.isError = true) :
    Traces own other depth (Attempt.need n sc).run st (.error v) st' ws := by
  have hneed := h.need
  rwa [hv] at hneed

theorem needAll_nil {sc : Scope} : Traces own other depth (needAll sc []).run st (.ok []) st [] :=
  .pure _

theorem needAll_cons {n : Node} {ns : List Node} {sc : Scope} {v : Value} {vs : List Value}
    (hn : Traces own other depth (Computation.eval n sc) st v st₁ ws) (hv : v.isError = false)
    (hns : Traces own other depth (needAll sc ns).run st₁ (.ok vs) st' ws') :
    Traces own other depth (needAll sc (n :: ns)).run st (.ok (v :: vs)) st' (ws ++ ws') :=
  (hn.need_ok hv).goOn (hns.goOnThrough (.pure _))

theorem needAll_stop {n : Node} {ns : List Node} {sc : Scope} {v : Value}
    (hn : Traces own other depth (Computation.eval n sc) st v st' ws) (hv : v.isError = true) :
    Traces own other depth (needAll sc (n :: ns)).run st (.error v) st' ws :=
  (hn.need_error hv).stop

theorem needAll_behind {n : Node} {ns : List Node} {sc : Scope} {v e : Value}
    (hn : Traces own other depth (Computation.eval n sc) st v st₁ ws) (hv : v.isError = false)
    (hns : Traces own other depth (needAll sc ns).run st₁ (.error e) st' ws') :
    Traces own other depth (needAll sc (n :: ns)).run st (.error e) st' (ws ++ ws') :=
  (hn.need_ok hv).goOn hns.stop

/-! ## Statements -/

/-- The last statement of a list gives the value of the list, whatever that is. -/
theorem statement_last {s : Node} {sc : Scope} {v otherwise : Value}
    (h : Traces own other depth (Computation.eval s sc) st v st' ws) :
    Traces own other depth (evalStatements sc otherwise [s]) st v st' ws := by
  refine h.through ?_
  split <;> exact .pure v

/-- Behind a statement that does not stop the list comes the next. -/
theorem statement_next {s : Node} {ss : List Node} {sc : Scope} {u v otherwise : Value}
    (h : Traces own other depth (Computation.eval s sc) st u st₁ ws) (hu : u.stopsBlock = false)
    (hss : Traces own other depth (evalStatements sc u ss) st₁ v st' ws') :
    Traces own other depth (evalStatements sc otherwise (s :: ss)) st v st' (ws ++ ws') := by
  refine h.bind ?_
  rwa [hu]

/-! ## Constructs -/

section Constructs
variable {sc : Scope} {v : Value}

/-- A block runs its statements in a new scope. -/
theorem block {ss : List Node} (hown : own (.block ss))
    (h : Traces own other depth (evalStatements ⟨st.frames.size⟩ .null ss) (st.child sc []).2 v st'
      ws) : Traces own other (depth + 1) (Computation.eval (.block ss) sc) st v st' ws :=
  .eval hown ((yielding (Store.child sc [])).bind h)

theorem exprStmt {e : Node} (hown : own (.exprStmt e))
    (h : Traces own other depth (Computation.eval e sc) st v st' ws) :
    Traces own other (depth + 1) (Computation.eval (.exprStmt e) sc) st v st' ws :=
  .eval hown h

theorem letStmt {name : String} {e : Node} (hown : own (.letStmt name e))
    (h : Traces own other depth (Computation.eval e sc) st v st₁ ws) (hv : v.isError = false) :
    Traces own other (depth + 1) (Computation.eval (.letStmt name e) sc) st .null
      (st₁.define sc name v) ws := by
  have hdefine : Traces own other depth
      (liftM (Computation.modify (Store.define sc name v)) : Attempt Unit).run st₁ (.ok ())
      (st₁.define sc name v) [] := (modify _).lift
  exact .eval hown (settle (r := .ok .null) (.inl rfl)
    ((h.need_ok hv).goOnThrough (hdefine.goOnThrough (.pure _))))

/-- A name that is bound means what it is bound to. -/
theorem ident {name : String} (hown : own (.ident name)) (h : st.lookup name sc = some v) :
    Traces own other (depth + 1) (Computation.eval (.ident name) sc) st v st [] := by
  refine .eval hown ((reading (·.lookup name sc)).bind ?_)
  rw [h]
  exact .pure v

/-- A name that is not bound means the builtin of that name. -/
theorem ident_builtin {b : Builtin} (hown : own (.ident b.name))
    (h : st.lookup b.name sc = none) :
    Traces own other (depth + 1) (Computation.eval (.ident b.name) sc) st (.builtin b) st [] := by
  have hname : Builtin.ofName? b.name = some b := by cases b <;> rfl
  refine .eval hown ((reading (·.lookup b.name sc)).bind ?_)
  rw [h]
  dsimp only
  rw [hname]
  exact .pure _

theorem int (n : Int) (hown : own (.int n)) :
    Traces own other (depth + 1) (Computation.eval (.int n) sc) st (.int n) st [] :=
  .eval hown (.pure _)

theorem fnLit {params : List String} {body : List Node} (hown : own (.fnLit params body)) :
    Traces own other (depth + 1) (Computation.eval (.fnLit params body) sc) st
      (.function st.nextIdentity params (.block body) sc) st.freshIdentity.2 [] :=
  .eval hown ((yielding Store.freshIdentity).bind (.pure _))

theorem newArray (items : List Value) :
    Traces own other depth (Monkey.newArray items) st (.array st.nextIdentity items)
      st.freshIdentity.2 [] :=
  (yielding Store.freshIdentity).bind (.pure _)

theorem array {es : List Node} {vs : List Value} (hown : own (.array es))
    (h : Traces own other depth (needAll sc es).run st (.ok vs) st₁ ws) :
    Traces own other (depth + 1) (Computation.eval (.array es) sc) st
      (.array st₁.nextIdentity vs) st₁.freshIdentity.2 ws := by
  exact .eval hown (settle (r := .ok _) (.inl rfl) (h.goOnThrough (newArray vs).lift))

/-- An operator is applied to the values of its operands. -/
theorem infixOp {l r : Node} {op : String} {u w : Value} (hown : own (.infixOp l op r))
    (hl : Traces own other depth (Computation.eval l sc) st u st₁ ws) (hu : u.isError = false)
    (hr : Traces own other depth (Computation.eval r sc) st₁ w st' ws') (hw : w.isError = false)
    (happly : Value.applyInfix op u w = .ok v) :
    Traces own other (depth + 1) (Computation.eval (.infixOp l op r) sc) st v st' (ws ++ ws') := by
  have hcheck : Traces own other depth (check (Value.applyInfix op u w)).run st' (.ok v) st' [] := by
    rw [happly]
    exact .pure _
  exact .eval hown (settle (r := .ok v) (.inl rfl)
    ((hl.need_ok hu).goOn ((hr.need_ok hw).goOnThrough hcheck)))

/-- An `if` is the branch that its condition chooses. -/
theorem ifExpr {c : Node} {t e : List Node} {u : Value} (hown : own (.ifExpr c t (some e)))
    (hc : Traces own other depth (Computation.eval c sc) st u st₁ ws) (hu : u.isError = false)
    (h : Traces own other depth (Computation.eval (.block (if u.isTruthy then t else e)) sc) st₁ v
      st' ws') :
    Traces own other (depth + 1) (Computation.eval (.ifExpr c t (some e)) sc) st v st'
      (ws ++ ws') := by
  refine .eval hown (((hc.need_ok hu).goOn ?_).settle (r := .ok v) (.inl rfl))
  cases htrue : u.isTruthy <;> rw [htrue] at h <;> exact h.lift

/-- The callee and the arguments of a call are evaluated in order. -/
theorem operands {callee : Node} {args : List Node} {f : Value} {vs : List Value}
    (hf : Traces own other depth (Computation.eval callee sc) st f st₁ ws) (hok : f.isError = false)
    (hargs : Traces own other depth (needAll sc args).run st₁ (.ok vs) st' ws') :
    Traces own other depth (evalOperands callee args sc).run st (.ok (f, vs)) st' (ws ++ ws') :=
  (hf.need_ok hok).goOn (hargs.goOnThrough (.pure _))

theorem operands_stop {callee : Node} {args : List Node} {f e : Value}
    (hf : Traces own other depth (Computation.eval callee sc) st f st₁ ws) (hok : f.isError = false)
    (hargs : Traces own other depth (needAll sc args).run st₁ (.error e) st' ws') :
    Traces own other depth (evalOperands callee args sc).run st (.error e) st' (ws ++ ws') :=
  (hf.need_ok hok).goOn hargs.stop

/-- A call is what calling the value of its callee comes to. -/
theorem call {callee : Node} {args : List Node} {f : Value} {vs : List Value}
    (hown : own (.call callee args)) (hquote : callee ≠ .ident "quote")
    (hoperands : Traces own other depth (evalOperands callee args sc).run st (.ok (f, vs)) st₁ ws)
    (h : Traces own other depth (f.call vs) st₁ v st' ws') :
    Traces own other (depth + 1) (Computation.eval (.call callee args) sc) st v st' (ws ++ ws') := by
  have hcall : Traces own other depth (Attempt.settle (evalCall callee args sc)) st v st'
      (ws ++ ws') := by
    rw [evalCall_eq]
    exact (hoperands.goOn h.lift).settle (.inl rfl)
  exact .eval hown (.of_eq (evalRule_call fun hname => absurd hname hquote) hcall)

/-- An error among the operands of a call is what the call comes to. -/
theorem call_stop {callee : Node} {args : List Node} {e : Value}
    (hown : own (.call callee args)) (hquote : callee ≠ .ident "quote")
    (hoperands : Traces own other depth (evalOperands callee args sc).run st (.error e) st' ws) :
    Traces own other (depth + 1) (Computation.eval (.call callee args) sc) st e st' ws := by
  have hcall : Traces own other depth (Attempt.settle (evalCall callee args sc)) st e st' ws := by
    rw [evalCall_eq]
    exact hoperands.stop.settle (.inr rfl)
  exact .eval hown (.of_eq (evalRule_call fun hname => absurd hname hquote) hcall)

end Constructs

/-- A function runs its body in a new scope that binds its parameters. -/
theorem callFunction {i : Identity} {params : List String} {body : Node} {sc : Scope}
    {args : List Value} {v : Value} (hlength : args.length = params.length)
    (h : Traces own other depth (Computation.eval body ⟨st.frames.size⟩)
      (st.child sc (bindParams params args)).2 v st' ws) :
    Traces own other depth ((Value.function i params body sc).call args) st v.unwrapped st' ws := by
  rw [Value.call, if_pos hlength]
  exact (yielding (Store.child sc (bindParams params args))).bind (h.through (.pure _))

end Traces
end Monkey
