import Monkey.Eval
import Monkey.Proofs.Visit

/-!
# Calls in a run

A visit of a call expression evaluates the callee and the arguments, and then
calls the value that the callee has, unless the call is the construct `quote`.
`Visit.Calls` says with what and from which store. What the visit comes to
is what the call comes to, and all that goes on in the call goes on in the visit.

## Main results

* `evalRule_call`, `evalRule_quotation` — what a call expression is, in a store.
* `Visit.Calls.outcome`, `Visit.Calls.visits_subset` — a visit and its call.
* `Value.outcome_call_function` — a function returns what its body comes to,
  with one `return` taken off.
-/

namespace Monkey

open Monkey.Computation Monkey.Attempt

namespace Attempt

section Settling
variable {α : Type}

theorem settle_lift (x : Computation Value) : settle (liftM x) = x := by
  show ((Except.ok <$> x : Computation (Except Value Value)) >>= _) = x
  rw [map_eq_pure_bind, bind_assoc]
  exact bind_pure x

theorem settle_lift_bind (x : Computation α) (f : α → Attempt Value) :
    settle (liftM x >>= f) = x >>= fun a => settle (f a) := by
  show (((Except.ok <$> x : Computation (Except Value α)) >>= _) >>= _) = _
  rw [map_eq_pure_bind, bind_assoc, bind_assoc]
  rfl

/-- What comes before goes on with its result, unless it stops. -/
theorem settle_bind (x : Attempt α) (f : α → Attempt Value) :
    settle (x >>= f) = x.run >>= fun r =>
      match r with
      | .ok a => settle (f a)
      | .error e => return e := by
  rw [settle, ExceptT.run_bind, bind_assoc]
  refine bind_congr fun r => ?_
  cases r <;> rfl

/-- What needs the value of a tree goes on with it, unless it is an error. -/
theorem settle_need_bind (n : Node) (sc : Scope) (f : Value → Attempt Value) :
    settle (need n sc >>= f) =
      eval n sc >>= fun v => if v.isError then return v else settle (f v) := by
  rw [need, bind_assoc, settle_lift_bind]
  refine bind_congr fun v => ?_
  split <;> rfl

/-- What is needed for nothing but to be passed on is just evaluated. -/
theorem settle_need (n : Node) (sc : Scope) : settle (need n sc) = eval n sc := by
  have hpass : ∀ v : Value, (if v.isError then return v else settle (pure v)) =
      (pure v : Computation Value) := by
    intro v
    split <;> rfl
  rw [← bind_pure (need n sc), settle_need_bind]
  simp only [hpass, bind_pure]

end Settling

variable {α β : Type} (rule : Rule) (depth : Nat) (st : Store)

theorem visits_settle (x : Attempt Value) :
    (settle x).visits rule depth st = x.run.visits rule depth st := by
  rw [settle, Computation.visits_bind]
  generalize x.run.outcome rule depth st = o
  obtain ⟨result, st'⟩ := o
  rcases result with e | (v | v) <;> simp

/-- What follows a finished attempt is visited behind it. -/
theorem visits_bind_subset {x : Attempt α} {f : α → Attempt β} {a : α} {st' : Store}
    (h : x.run.outcome rule depth st = ⟨.ok (.ok a), st'⟩) :
    (f a).run.visits rule depth st' ⊆ (x >>= f).run.visits rule depth st := by
  rw [ExceptT.run_bind, Computation.visits_bind, h]
  exact List.subset_append_right _ _

theorem visits_lift (x : Computation α) :
    (liftM x : Attempt α).run.visits rule depth st = x.visits rule depth st := by
  show (x >>= fun a => pure (Except.ok a : Except Value α)).visits rule depth st = _
  rw [Computation.visits_bind]
  generalize x.outcome rule depth st = o
  obtain ⟨result, st'⟩ := o
  cases result <;> simp

end Attempt

/-- The values of the callee and the arguments of a call. -/
def evalOperands (callee : Node) (args : List Node) (sc : Scope) : Attempt (Value × List Value) := do
  let f ← need callee sc
  let vs ← needAll sc args
  return (f, vs)

theorem evalCall_eq (callee : Node) (args : List Node) (sc : Scope) :
    evalCall callee args sc = evalOperands callee args sc >>= fun p => p.1.call p.2 := by
  simp only [evalCall, evalOperands, bind_assoc, pure_bind]

/-- The value of a quotation of what `quote` is given. -/
def evalQuotation (args : List Node) (sc : Scope) : Attempt Value :=
  match args with
  | [arg] => evalQuote arg sc
  | args => reject (.quoteArity args.length)

theorem evalQuoteCall_eq (callee : Node) (args : List Node) (sc : Scope) :
    evalQuoteCall callee args sc = liftM (isUnbound "quote" sc) >>= fun unbound =>
      if unbound then evalQuotation args sc else evalCall callee args sc := rfl

/-- Where `quote` is bound, a call of it is a call like any other. -/
theorem evalQuoteCall_bound {callee : Node} {args : List Node} {sc : Scope} {st : Store}
    (h : (st.lookup "quote" sc).isSome = true) :
    (evalQuoteCall callee args sc).run st = (evalCall callee args sc).run st := by
  have hbound : (st.lookup "quote" sc).isNone = false := by
    rw [Option.isNone_eq_false_iff, h]
  show ExceptT.run (if (st.lookup "quote" sc).isNone then _ else evalCall callee args sc) st = _
  rw [hbound]
  rfl

/-- A call that is not the construct `quote` has the value of the call of its callee. -/
theorem evalRule_call {callee : Node} {args : List Node} {sc : Scope} {st : Store}
    (h : callee = .ident "quote" → (st.lookup "quote" sc).isSome = true) :
    evalRule (.call callee args) sc st = settle (evalCall callee args sc) st := by
  unfold evalRule
  dsimp only
  by_cases hq : callee.isIdent "quote" = true
  · have hbound : (evalQuoteCall callee args sc).run st = (evalCall callee args sc).run st :=
      evalQuoteCall_bound (h (Node.isIdent_iff.1 hq))
    rw [if_pos hq]
    show ((evalQuoteCall callee args sc).run st).bind _ = ((evalCall callee args sc).run st).bind _
    rw [hbound]
  · rw [if_neg hq]

/-- Where `quote` is unbound, a call of it is a quotation. -/
theorem evalRule_quotation {args : List Node} {sc : Scope} {st : Store}
    (h : st.lookup "quote" sc = none) :
    evalRule (.call (.ident "quote") args) sc st = settle (evalQuotation args sc) st := by
  have hunbound : (st.lookup "quote" sc).isNone = true := by rw [h]; rfl
  have hrun : (evalQuoteCall (.ident "quote") args sc).run st = (evalQuotation args sc).run st := by
    rw [evalQuoteCall_eq]
    show ExceptT.run (if (st.lookup "quote" sc).isNone then evalQuotation args sc
      else evalCall (.ident "quote") args sc) st = _
    rw [hunbound]
    rfl
  show ((evalQuoteCall (.ident "quote") args sc).run st).bind _ =
    ((evalQuotation args sc).run st).bind _
  rw [hrun]

theorem evalRule_quote {arg : Node} {sc : Scope} {st : Store} (h : st.lookup "quote" sc = none) :
    evalRule (.call (.ident "quote") [arg]) sc st = settle (evalQuote arg sc) st :=
  evalRule_quotation h

namespace Visit

/-- At this visit the value `f` is called with the arguments `args`, when the store is `st`. -/
def Calls (w : Visit) (f : Value) (args : List Value) (st : Store) : Prop :=
  ∃ callee operands, w.node = .call callee operands ∧
    (callee = .ident "quote" → (w.store.lookup "quote" w.scope).isSome = true) ∧
    (evalOperands callee operands w.scope).run.outcome evalRule w.depth w.store =
      ⟨.ok (.ok (f, args)), st⟩

variable {w : Visit} {f : Value} {args : List Value} {st : Store}

/-- A visit at which a value is called comes to what the call comes to. -/
theorem Calls.outcome (h : w.Calls f args st) :
    w.outcome evalRule = (f.call args).outcome evalRule w.depth st := by
  obtain ⟨depth, node, sc, st₀⟩ := w
  obtain ⟨callee, operands, rfl, hquote, hoperands⟩ := h
  have hrule : evalRule (.call callee operands) sc st₀ =
      settle (evalCall callee operands sc) st₀ := evalRule_call hquote
  show (evalRule (.call callee operands) sc st₀).resolve (evalWithin evalRule depth) = _
  rw [hrule]
  show (settle (evalCall callee operands sc)).outcome evalRule depth st₀ = _
  rw [evalCall_eq, outcome_settle, Attempt.outcome_bind, hoperands]
  simp only [outcome_lift]
  generalize (f.call args).outcome evalRule depth st = o
  obtain ⟨result, st'⟩ := o
  cases result <;> rfl

/-- All that a call visits is visited inside the visit of the call. -/
theorem Calls.visits_subset (h : w.Calls f args st) :
    (f.call args).visits evalRule w.depth st ⊆ w.inside evalRule := by
  obtain ⟨depth, node, sc, st₀⟩ := w
  obtain ⟨callee, operands, rfl, hquote, hoperands⟩ := h
  have hrule : evalRule (.call callee operands) sc st₀ =
      settle (evalCall callee operands sc) st₀ := evalRule_call hquote
  show _ ⊆ (evalRule (.call callee operands) sc st₀).visits _ (evalWithin evalRule depth)
  rw [hrule]
  show _ ⊆ (settle (evalCall callee operands sc)).visits evalRule depth st₀
  rw [visits_settle, evalCall_eq]
  refine List.Subset.trans ?_ (visits_bind_subset evalRule depth st₀ hoperands)
  rw [visits_lift]
  exact List.Subset.refl _

end Visit

/-! ## Calls of functions -/

namespace Value
variable {i : Identity} {params : List String} {body : Node} {sc : Scope} {args : List Value}
  (h : args.length = params.length) (depth : Nat) (st : Store)
include h

/-- A function returns what its body comes to in a new scope that binds its parameters, with one
`return` taken off. -/
theorem outcome_call_function :
    ((function i params body sc).call args).outcome evalRule depth st =
      match (eval body ⟨st.frames.size⟩).outcome evalRule depth
        (st.child sc (bindParams params args)).2 with
      | ⟨.ok v, st'⟩ => ⟨.ok v.unwrapped, st'⟩
      | ⟨.error e, st'⟩ => ⟨.error e, st'⟩ := by
  have hopen : (openScope sc (bindParams params args)).outcome evalRule depth st =
      ⟨.ok ⟨st.frames.size⟩, (st.child sc (bindParams params args)).2⟩ := rfl
  rw [call, if_pos h, Computation.outcome_bind, hopen]
  show ((eval body ⟨st.frames.size⟩) >>= _).outcome evalRule depth _ = _
  rw [Computation.outcome_bind]
  generalize (eval body ⟨st.frames.size⟩).outcome evalRule depth _ = o
  obtain ⟨result, st'⟩ := o
  cases result <;> rfl

/-- What a call of a function visits is what the evaluation of its body visits. -/
theorem visits_call_function :
    ((function i params body sc).call args).visits evalRule depth st =
      (eval body ⟨st.frames.size⟩).visits evalRule depth
        (st.child sc (bindParams params args)).2 := by
  have hopen : (openScope sc (bindParams params args)).outcome evalRule depth st =
      ⟨.ok ⟨st.frames.size⟩, (st.child sc (bindParams params args)).2⟩ := rfl
  rw [call, if_pos h, Computation.visits_bind, hopen]
  show [] ++ ((eval body ⟨st.frames.size⟩) >>= _).visits evalRule depth _ = _
  rw [List.nil_append, Computation.visits_bind]
  generalize (eval body ⟨st.frames.size⟩).outcome evalRule depth _ = o
  obtain ⟨result, st'⟩ := o
  cases result <;> simp

end Value
end Monkey
