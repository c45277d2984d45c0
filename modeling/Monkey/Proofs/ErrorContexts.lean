import Mathlib.Logic.Relation
import Monkey.Proofs.Dialogue
import Monkey.Proofs.Markers
import Monkey.Proofs.Subtrees

/-!
# Errors short-circuit

Whatever evaluates one of its parts and gets an error comes to that very error,
and does nothing more: nothing else is evaluated, nothing printed, nothing bound.

Every construct has the parts that its value is made of, in an order, and looks
at each before it turns to the next. An evaluation *awaits* another when it has
got that far: it has evaluated the parts before, and has found nothing in their
values to stop at. For a chain of evaluations, each of which awaits the next, the
error at its end is what all of them come to. Calls belong to such chains, as
a call awaits the body of the function that is called.

## Main definitions

* `Visit.Awaits` — an evaluation that has come to one of its parts.
* `Node.unquotes` — the parts of a quotation, in the order in which they are
  evaluated. What an outer `unquote` evaluates depends on what the inner came to.

## Main results

* `Visit.Awaits.endsWith` — one part: an error in it ends the evaluation.
* `Visit.error_shortCircuits` — any chain of them.
-/

namespace Monkey

open Monkey.Computation Monkey.Attempt

/-! ## The parts of an evaluation -/

/-- The trees evaluate in order in a scope, none of them to an error, from the first store to the
last. -/
inductive Evaluates (depth : Nat) (sc : Scope) : List Node → Store → List Value → Store → Prop
  | nil {st : Store} : Evaluates depth sc [] st [] st
  | cons {n : Node} {ns : List Node} {v : Value} {vs : List Value} {st st₁ st₂ : Store} :
    evalWithin evalRule depth n sc st = ⟨.ok v, st₁⟩ → v.isError = false →
    Evaluates depth sc ns st₁ vs st₂ → Evaluates depth sc (n :: ns) st (v :: vs) st₂

/-- Among values that are keys and what they stand for by turns, every key can be one. -/
def Value.KeysUsable : List Value → Prop
  | k :: _ :: vs => (∃ key, k.key? = .ok key) ∧ KeysUsable vs
  | [k] => ∃ key, k.key? = .ok key
  | [] => True

/-- Asks for the replacement of `unquote(x)` by asking about `x`. -/
def askUnquote : Node → Dialogue Node
  | .call (.ident "unquote") [arg] => .question arg
  | n => return n

/-- What a quotation asks: the arguments of its `unquote` calls, inner ones first and from left to
right, each with the answers to those inside it put in. -/
def Node.unquotes (n : Node) : Dialogue (Except SortError Node) :=
  (n.rebuildM askUnquote).run

/-- Answers what a quotation asks: the value of the tree, as syntax. -/
def unquoted (sc : Scope) (arg : Node) : Attempt Node := do
  let v ← need arg sc
  check v.toNode

/-- A dialogue comes to a question when those before it evaluate, without errors, to values that
can be syntax. -/
inductive Dialogue.Reaches {α : Type} (depth : Nat) (sc : Scope) :
    Dialogue α → Store → Node → Store → Prop
  | here {n : Node} {resume : Node → Dialogue α} {st : Store} :
    Reaches depth sc (.ask n resume) st n st
  | later {n m : Node} {resume : Node → Dialogue α} {v : Value} {n' : Node} {st st₁ st₂ : Store} :
    evalWithin evalRule depth n sc st = ⟨.ok v, st₁⟩ → v.isError = false → v.toNode = .ok n' →
    Reaches depth sc (resume n') st₁ m st₂ → Reaches depth sc (.ask n resume) st m st₂

/-- An evaluation has come to one of its parts: those before are evaluated, to values that do not
stop it. -/
inductive Visit.Awaits : Visit → Visit → Prop
  /-- An operand, behind the operands before it. The construct is not a quotation. -/
  | operand {depth : Nat} {n m : Node} {before after : List Node} {vs : List Value} {sc : Scope}
    {st st' : Store} :
    n.operands = before ++ m :: after →
    (∀ args, n = .call (.ident "quote") args → (st.lookup "quote" sc).isSome = true) →
    Evaluates (depth + 1) sc before st vs st' → (∀ ps, n = .hash ps → Value.KeysUsable vs) →
    Awaits ⟨depth + 1, n, sc, st⟩ ⟨depth, m, sc, st'⟩
  /-- A statement of a program, behind those before it. -/
  | statement {depth : Nat} {s : Node} {before after : List Node} {vs : List Value} {sc : Scope}
    {st st' : Store} :
    Evaluates (depth + 1) sc before st vs st' → (∀ v ∈ vs, v.isReturned = false) →
    Awaits ⟨depth + 1, .program (before ++ s :: after), sc, st⟩ ⟨depth, s, sc, st'⟩
  /-- A statement of a block, behind those before it, in the scope that the block makes. -/
  | inner {depth : Nat} {s : Node} {before after : List Node} {vs : List Value} {sc : Scope}
    {st st' : Store} :
    Evaluates (depth + 1) ⟨st.frames.size⟩ before (st.child sc []).2 vs st' →
    (∀ v ∈ vs, v.isReturned = false) →
    Awaits ⟨depth + 1, .block (before ++ s :: after), sc, st⟩ ⟨depth, s, ⟨st.frames.size⟩, st'⟩
  /-- The branch that the condition of an `if` chooses. -/
  | branch {depth : Nat} {c : Node} {t : List Node} {e : Option (List Node)} {ss : List Node}
    {v : Value} {sc : Scope} {st st' : Store} :
    evalWithin evalRule (depth + 1) c sc st = ⟨.ok v, st'⟩ → v.isError = false →
    (if v.isTruthy then some t else e) = some ss →
    Awaits ⟨depth + 1, .ifExpr c t e, sc, st⟩ ⟨depth, .block ss, sc, st'⟩
  /-- The argument of an `unquote` in a quotation. -/
  | unquoted {depth : Nat} {arg m : Node} {sc : Scope} {st st' : Store} :
    st.lookup "quote" sc = none → arg.unquotes.Reaches (depth + 1) sc st m st' →
    Awaits ⟨depth + 1, .call (.ident "quote") [arg], sc, st⟩ ⟨depth, m, sc, st'⟩
  /-- The body of the function that is called. -/
  | body {depth : Nat} {w : Visit} {i : Identity} {params : List String} {body : Node}
    {sc : Scope} {args : List Value} {st : Store} :
    w.depth = depth + 1 → w.Calls (.function i params body sc) args st →
    args.length = params.length →
    Awaits w ⟨depth, body, ⟨st.frames.size⟩, (st.child sc (bindParams params args)).2⟩

/-! ## Ending with an evaluation -/

/-- A computation ends with an answer, and the last that goes on in it is the evaluation `u`. -/
structure EndsWith (depth : Nat) {α : Type} (x : Computation α) (st : Store) (u : Visit) (a : α)
    (st' : Store) : Prop where
  outcome : x.outcome evalRule depth st = ⟨.ok a, st'⟩
  visits : u :: u.inside evalRule <:+ x.visits evalRule depth st

namespace EndsWith
variable {α β : Type} {depth : Nat} {st st₁ st' : Store} {u : Visit} {e : Value}

/-- What a computation ends with depends on how it goes from its store only. -/
theorem of_eq {x y : Computation α} {a : α} (hxy : x st = y st)
    (h : EndsWith depth y st u a st') : EndsWith depth x st u a st' where
  outcome := (congrArg (Progress.resolve (evalWithin evalRule depth)) hxy).trans h.outcome
  visits := by
    have hvisits : x.visits evalRule depth st = y.visits evalRule depth st :=
      congrArg (Progress.visits (visitsWithin evalRule depth) (evalWithin evalRule depth)) hxy
    rw [hvisits]
    exact h.visits

theorem eval (h : u.outcome evalRule = ⟨.ok e, st'⟩) :
    EndsWith (u.depth + 1) (eval u.node u.scope) u.store u e st' where
  outcome := (outcome_eval_succ evalRule u.depth u.store u.node u.scope).trans h
  visits := by
    rw [visits_eval_succ]
    exact List.suffix_refl _

/-- Behind what is finished, a computation goes on to its end. -/
theorem after {x : Computation α} {f : α → Computation β} {a : α} {b : β}
    (hx : x.outcome evalRule depth st = ⟨.ok a, st₁⟩) (hf : EndsWith depth (f a) st₁ u b st') :
    EndsWith depth (x >>= f) st u b st' where
  outcome := by
    rw [Computation.outcome_bind, hx]
    exact hf.outcome
  visits := by
    rw [Computation.visits_bind, hx]
    exact hf.visits.trans (List.suffix_append _ _)

/-- What only passes the answer on adds nothing. -/
theorem through {x : Computation α} {f : α → Computation β} {a : α} {b : β}
    (hx : EndsWith depth x st u a st') (hf : f a = pure b) :
    EndsWith depth (x >>= f) st u b st' where
  outcome := by
    rw [Computation.outcome_bind, hx.outcome]
    simp only [hf, Computation.outcome_pure]
  visits := by
    rw [Computation.visits_bind, hx.outcome]
    simp only [hf, visits_pure, List.append_nil]
    exact hx.visits

/-- An attempt whose first part is given up is given up. -/
theorem stop {x : Attempt α} {f : α → Attempt β} (hx : EndsWith depth x.run st u (.error e) st') :
    EndsWith depth (x >>= f).run st u (.error e) st' :=
  hx.through rfl

/-- Behind what has succeeded, an attempt goes on. -/
theorem goOn {x : Attempt α} {f : α → Attempt β} {a : α} {r : Except Value β}
    (hx : x.run.outcome evalRule depth st = ⟨.ok (.ok a), st₁⟩)
    (hf : EndsWith depth (f a).run st₁ u r st') : EndsWith depth (x >>= f).run st u r st' :=
  after hx hf

theorem lift {x : Computation α} {a : α} (hx : EndsWith depth x st u a st') :
    EndsWith depth (liftM x : Attempt α).run st u (.ok a) st' :=
  hx.through rfl

theorem settle_error {x : Attempt Value} (hx : EndsWith depth x.run st u (.error e) st') :
    EndsWith depth (settle x) st u e st' :=
  hx.through rfl

theorem settle_ok {x : Attempt Value} (hx : EndsWith depth x.run st u (.ok e) st') :
    EndsWith depth (settle x) st u e st' :=
  hx.through rfl

variable (h : u.outcome evalRule = ⟨.ok e, st'⟩) (he : e.isError = true)
include h he

/-- What is needed is not had. -/
theorem need : EndsWith (u.depth + 1) (need u.node u.scope).run u.store u (.error e) st' := by
  refine (eval h).lift.through ?_
  show (if e.isError then throw e else pure e : Attempt Value).run = _
  rw [if_pos he]
  rfl

end EndsWith

section Operands
variable {depth : Nat} {sc : Scope} {st st₁ st' : Store} {e : Value}

theorem outcome_need_of_ok {n : Node} {v : Value}
    (h : evalWithin evalRule depth n sc st = ⟨.ok v, st₁⟩) (hv : v.isError = false) :
    (need n sc).run.outcome evalRule depth st = ⟨.ok (.ok v), st₁⟩ := by
  rw [outcome_need, h]
  simp [hv]

/-- Trees that evaluate without errors have all their values. -/
theorem Evaluates.outcome_needAll {ns : List Node} {vs : List Value}
    (h : Evaluates depth sc ns st vs st') :
    (needAll sc ns).run.outcome evalRule depth st = ⟨.ok (.ok vs), st'⟩ := by
  induction h with
  | nil => rfl
  | cons hv hok _ ih =>
    rw [needAll, Attempt.outcome_bind, outcome_need_of_ok hv hok]
    show (needAll sc _ >>= _ : Attempt _).run.outcome evalRule depth _ = _
    rw [Attempt.outcome_bind, ih]
    rfl

/-- What needs the values of two trees goes on with them. -/
theorem Evaluates.outcome_both {l r : Node} {u v : Value} {α : Type}
    (h : Evaluates depth sc [l, r] st [u, v] st') (f : Value → Value → Attempt α) :
    (need l sc >>= fun a => need r sc >>= fun b => f a b).run.outcome evalRule depth st =
      (f u v).run.outcome evalRule depth st' := by
  obtain _ | ⟨hl, hlOk, hrest⟩ := h
  obtain _ | ⟨hr, hrOk, hdone⟩ := hrest
  cases hdone
  rw [Attempt.outcome_bind, outcome_need_of_ok hl hlOk]
  dsimp only
  rw [Attempt.outcome_bind, outcome_need_of_ok hr hrOk]

/-- A call is made when the callee and the arguments evaluate without errors. -/
theorem Evaluates.calls {callee : Node} {operands : List Node} {f : Value} {vs : List Value}
    (h : Evaluates depth sc (callee :: operands) st (f :: vs) st')
    (hquote : callee = .ident "quote" → (st.lookup "quote" sc).isSome = true) :
    (⟨depth, .call callee operands, sc, st⟩ : Visit).Calls f vs st' := by
  cases h with
  | cons hv hok hvs =>
    refine ⟨callee, operands, rfl, hquote, ?_⟩
    rw [evalOperands, Attempt.outcome_bind, outcome_need_of_ok hv hok]
    show (needAll sc operands >>= _ : Attempt _).run.outcome evalRule depth _ = _
    rw [Attempt.outcome_bind, hvs.outcome_needAll]
    rfl

variable {m : Node} (h : (Visit.mk depth m sc st').outcome evalRule = ⟨.ok e, st₁⟩)
  (he : e.isError = true)
include h he

/-- A list of trees is not evaluated past an error. -/
theorem Evaluates.needAll {before after : List Node} {vs : List Value}
    (hbefore : Evaluates (depth + 1) sc before st vs st') :
    EndsWith (depth + 1) (needAll sc (before ++ m :: after)).run st ⟨depth, m, sc, st'⟩
      (.error e) st₁ := by
  induction hbefore with
  | nil => exact (EndsWith.need h he).stop
  | cons hv hok _ ih => exact EndsWith.goOn (outcome_need_of_ok hv hok) (ih h).stop

/-- The entries of a hash are not evaluated past an error. -/
theorem Evaluates.evalEntries : ∀ {ps : List (Node × Node)} {before after : List Node}
    {vs : List Value} {st : Store} {entries : Table Key Value},
    (Node.hash ps).operands = before ++ m :: after → Evaluates (depth + 1) sc before st vs st' →
    Value.KeysUsable vs →
    EndsWith (depth + 1) (evalEntries sc entries ps).run st ⟨depth, m, sc, st'⟩ (.error e) st₁
  | [], before, _, _, _, _, hsplit, _, _ => by simp at hsplit
  | (k, v) :: ps, before, after, vs, st, entries, hsplit, hbefore, hkeys => by
    change k :: v :: (Node.hash ps).operands = before ++ m :: after at hsplit
    cases hbefore with
    | nil =>
      obtain ⟨rfl, -⟩ := List.cons.inj hsplit
      exact (EndsWith.need h he).stop
    | cons hk hkok hrest =>
      obtain ⟨rfl, htail⟩ := List.cons.inj hsplit
      refine EndsWith.goOn (outcome_need_of_ok hk hkok) ?_
      cases hrest with
      | nil =>
        obtain ⟨key, hkey⟩ := hkeys
        obtain ⟨rfl, -⟩ := List.cons.inj htail
        rw [hkey]
        exact EndsWith.goOn (outcome_pure evalRule _ _ key) (EndsWith.need h he).stop
      | cons hv hvok hrest =>
        obtain ⟨⟨key, hkey⟩, hkeys⟩ := hkeys
        obtain ⟨rfl, hrestsplit⟩ := List.cons.inj htail
        rw [hkey]
        refine EndsWith.goOn (outcome_pure evalRule _ _ key) ?_
        exact EndsWith.goOn (outcome_need_of_ok hv hvok) (evalEntries hrestsplit hrest hkeys)

/-- Statements are not evaluated past an error. -/
theorem Evaluates.evalStatements {before after : List Node} {vs : List Value} {otherwise : Value}
    (hbefore : Evaluates (depth + 1) sc before st vs st') (hvs : ∀ v ∈ vs, v.isReturned = false) :
    EndsWith (depth + 1) (evalStatements sc otherwise (before ++ m :: after)) st
      ⟨depth, m, sc, st'⟩ e st₁ := by
  have hstop : e.stopsBlock = true := by rw [Value.stopsBlock_eq_or, he, Bool.true_or]
  induction hbefore generalizing otherwise with
  | nil =>
    refine (EndsWith.eval h).through ?_
    rw [if_pos hstop]
  | @cons n ns v vs st st₁ st₂ hv hok _ ih =>
    refine EndsWith.after ((outcome_eval evalRule _ _ n sc).trans hv) ?_
    rw [Value.stopsBlock_eq_or, hok, hvs v List.mem_cons_self]
    exact ih h fun v hv => hvs v (List.mem_cons_of_mem _ hv)

/-- A quotation is not searched past an error. -/
theorem Dialogue.Reaches.lead {α : Type} {x : Dialogue α} (hx : x.Reaches (depth + 1) sc st m st') :
    EndsWith (depth + 1) (x.lead (unquoted sc)).run st ⟨depth, m, sc, st'⟩ (.error e) st₁ := by
  induction hx with
  | here => exact (EndsWith.need h he).stop.stop
  | later hv hok hn' _ ih =>
    refine EndsWith.goOn ?_ (ih h)
    rw [unquoted, Attempt.outcome_bind, outcome_need_of_ok hv hok]
    dsimp only
    rw [hn']
    rfl

end Operands

/-! ## Operands -/

theorem need_bind_eq (n : Node) (sc : Scope) (f : Value → Attempt Value) :
    ∃ finish, need n sc >>= f = needAll sc [n] >>= finish :=
  ⟨fun vs => f (vs.headD .null), by simp [needAll]⟩

theorem need_need_bind_eq (l r : Node) (sc : Scope) (f : Value → Value → Attempt Value) :
    ∃ finish, (need l sc >>= fun a => need r sc >>= f a) = needAll sc [l, r] >>= finish :=
  ⟨fun vs => f (vs.headD .null) (vs.tail.headD .null), by simp [needAll]⟩

/-- A construct with operands gets all their values, in order, before anything else. Hashes are the
exception, as they look at each key, and quotations, as they evaluate other trees. -/
theorem evalRule_operands {n : Node} {sc : Scope} {st : Store} (hsome : n.operands ≠ [])
    (hplain : ∀ args, n = .call (.ident "quote") args → (st.lookup "quote" sc).isSome = true)
    (hhash : ∀ ps, n ≠ .hash ps) :
    ∃ finish, evalRule n sc st = settle (needAll sc n.operands >>= finish) st := by
  have hsettle : ∀ {x y : Attempt Value}, x = y → settle x st = settle y st := by
    rintro x _ rfl
    rfl
  cases n with
  | letStmt _ e | returnStmt e | prefixOp _ e | ifExpr e _ _ =>
    obtain ⟨finish, hfinish⟩ := need_bind_eq e sc _
    exact ⟨finish, hsettle hfinish⟩
  | exprStmt e =>
    obtain ⟨finish, hfinish⟩ := need_bind_eq e sc pure
    exact ⟨finish, (congrFun (settle_need e sc) st).symm.trans (hsettle (by simpa using hfinish))⟩
  | array es => exact ⟨fun vs => newArray vs, rfl⟩
  | hash ps => exact absurd rfl (hhash ps)
  | index l r | infixOp l _ r =>
    obtain ⟨finish, hfinish⟩ := need_need_bind_eq l r sc _
    exact ⟨finish, hsettle hfinish⟩
  | call callee args =>
    refine ⟨fun vs => (vs.headD .null).call vs.tail, (evalRule_call fun hq => ?_).trans ?_⟩
    · exact hplain args (by rw [hq])
    · exact hsettle (by simp [evalCall, needAll])
  | _ => exact absurd rfl hsome

/-- A quotation is what it asks, with the answers, and then the quoted tree. -/
theorem evalQuote_eq (arg : Node) (sc : Scope) :
    evalQuote arg sc = arg.unquotes.lead (unquoted sc) >>= fun r =>
      match r with
      | .ok n => newQuote n
      | .error e => fail (.illSorted e) := by
  have hstep : unquoteStep sc = fun n => (askUnquote n).lead (unquoted sc) := by
    funext n
    by_cases hn : ∃ arg, n = .call (.ident "unquote") [arg]
    · obtain ⟨arg, rfl⟩ := hn
      exact (Dialogue.lead_question (unquoted sc) arg).symm
    · have hplain : unquoteStep sc n = pure n := by
        unfold unquoteStep
        split
        · exact absurd ⟨_, rfl⟩ hn
        · rfl
      have hask : askUnquote n = pure n := by
        unfold askUnquote
        split
        · exact absurd ⟨_, rfl⟩ hn
        · rfl
      rw [hplain, hask]
      rfl
  have hunquotes : arg.unquotes.lead (unquoted sc) = (arg.rebuildM (unquoteStep sc)).run := by
    rw [hstep, Node.unquotes, Dialogue.lead_rebuildM]
  rw [hunquotes]
  rfl

/-! ## Short-circuiting -/

namespace Visit
variable {w u : Visit} {e : Value} {st : Store}

/-- An error in the part that an evaluation has come to ends the evaluation, which comes to that
error and goes no further. -/
theorem Awaits.endsWith (h : w.Awaits u) (hu : u.outcome evalRule = ⟨.ok e, st⟩)
    (he : e.isError = true) :
    EndsWith w.depth (evalRule w.node w.scope) w.store u e st := by
  cases h with
  | @operand depth n m before after vs sc st₀ st' hsplit hplain hbefore hkeys =>
    by_cases hhash : ∃ ps, n = .hash ps
    · obtain ⟨ps, rfl⟩ := hhash
      exact (EndsWith.stop (hbefore.evalEntries hu he hsplit (hkeys ps rfl))).settle_error
    · have hsome : n.operands ≠ [] := by
        rw [hsplit]
        simp
      obtain ⟨finish, hrule⟩ := evalRule_operands hsome hplain fun ps hps => hhash ⟨ps, hps⟩
      refine EndsWith.of_eq hrule (EndsWith.stop ?_).settle_error
      rw [hsplit]
      exact hbefore.needAll hu he
  | statement hbefore hvs =>
    refine (hbefore.evalStatements hu he hvs).through ?_
    cases e <;> first | rfl | cases he
  | inner hbefore hvs =>
    exact EndsWith.after (outcome_openScope evalRule _ _ _ _) (hbefore.evalStatements hu he hvs)
  | @branch depth c t e' ss v sc st₀ st' hv hok hchosen =>
    refine (EndsWith.goOn (outcome_need_of_ok hv hok) ?_).settle_ok
    have heval : EndsWith (depth + 1) (liftM (eval (.block ss) sc) : Attempt Value).run st'
        ⟨depth, .block ss, sc, st'⟩ (.ok e) st := (EndsWith.eval hu).lift
    split at hchosen
    · next htruthy =>
      obtain rfl := Option.some.inj hchosen
      rw [if_pos htruthy]
      exact heval
    · next htruthy =>
      rw [if_neg htruthy, hchosen]
      exact heval
  | @unquoted depth arg m sc st₀ st' hquote hreaches =>
    refine EndsWith.of_eq (evalRule_quote hquote) ?_
    rw [evalQuote_eq]
    exact (EndsWith.stop (hreaches.lead hu he)).settle_error
  | @body depth w i params b sc args st₁ hdepth hcalls hlength =>
    obtain ⟨d, n, wsc, st₀⟩ := w
    obtain ⟨callee, operands, rfl, hquote, hoperands⟩ := hcalls
    obtain rfl := hdepth
    refine EndsWith.of_eq (evalRule_call hquote) ?_
    rw [evalCall_eq]
    refine (EndsWith.goOn hoperands (EndsWith.lift ?_)).settle_ok
    rw [Value.call, if_pos hlength]
    refine EndsWith.after (outcome_openScope evalRule _ _ _ _) ((EndsWith.eval hu).through ?_)
    cases e <;> first | rfl | cases he

/-- Errors short-circuit. When every evaluation of a chain awaits the next and the last comes to an
error, they all come to that very error and leave the very store that the last one left, and the
evaluations inside the last one are the last of all that are made. -/
theorem error_shortCircuits (h : Relation.ReflTransGen Awaits w u)
    (hu : u.outcome evalRule = ⟨.ok e, st⟩) (he : e.isError = true) :
    w.outcome evalRule = ⟨.ok e, st⟩ ∧ u :: u.inside evalRule <:+ w :: w.inside evalRule := by
  induction h using Relation.ReflTransGen.head_induction_on with
  | refl => exact ⟨hu, List.suffix_refl _⟩
  | @head w w₁ hawaits _ ih =>
    obtain ⟨houtcome, hsuffix⟩ := ih
    have hends := hawaits.endsWith houtcome he
    exact ⟨hends.outcome, hsuffix.trans (hends.visits.trans (List.suffix_cons _ _))⟩

/-- The program `1 + fn() { 2(3) }(); puts("after");`. The error is that of `2(3)` in the body of the
function, and nothing is printed. -/
theorem error_shortCircuits_in_body :
    let global : Store := Store.empty.newRoot.2
    let store : Store := ⟨#[⟨none, []⟩, ⟨some ⟨0⟩, []⟩, ⟨some ⟨1⟩, []⟩], 1, "", []⟩
    let call : Node := .call (.int 2) [.int 3]
    let function : Node := .fnLit [] [.exprStmt call]
    let program : Node := .program [
      .exprStmt (.infixOp (.int 1) "+" (.call function [])),
      .exprStmt (.call (.ident "puts") [.str "after"])]
    Relation.ReflTransGen Awaits ⟨7, program, ⟨0⟩, global⟩ ⟨1, call, ⟨2⟩, store⟩ ∧
      (⟨7, program, ⟨0⟩, global⟩ : Visit).outcome evalRule =
        ⟨.ok (.error 1 (.notCallable .integer)), { store with nextIdentity := 2 }⟩ := by
  intro global store call function program
  have hcalls : (⟨4, .call function [], ⟨0⟩, global⟩ : Visit).Calls
      (.function 0 [] (.block [.exprStmt call]) ⟨0⟩) [] { global with nextIdentity := 1 } :=
    Evaluates.calls (.cons rfl rfl .nil) (by simp [function])
  have hchain : Relation.ReflTransGen Awaits ⟨7, program, ⟨0⟩, global⟩ ⟨1, call, ⟨2⟩, store⟩ := by
    refine .head (@Awaits.statement 6 _ [] _ _ _ _ _ .nil (by simp)) ?_
    refine .head (@Awaits.operand 5 _ _ [] _ _ _ _ _ rfl (by simp) .nil (by simp)) ?_
    refine .head (@Awaits.operand 4 _ _ [.int 1] _ _ _ _ _ rfl (by simp) (.cons rfl rfl .nil)
      (by simp)) ?_
    refine .head (.body rfl hcalls rfl) ?_
    refine .head (@Awaits.inner 2 _ [] _ _ _ _ _ .nil (by simp)) ?_
    exact .single (@Awaits.operand 1 _ _ [] _ _ _ _ _ rfl (by simp) .nil (by simp))
  have hrefused : (⟨1, call, ⟨2⟩, store⟩ : Visit).Calls (.int 2) [.int 3] store :=
    Evaluates.calls (.cons rfl rfl (.cons rfl rfl .nil)) (by simp)
  exact ⟨hchain, (error_shortCircuits hchain hrefused.outcome rfl).1⟩

end Visit
end Monkey
