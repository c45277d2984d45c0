import Monkey.Node.Equality
import Monkey.Proofs.TwinScopes
import Monkey.Proofs.VeiledRuns

/-!
# A call is a block of bindings

To call a function where it is written is to bind its parameters to the arguments in
a block, and to go on in that block with its body. Both come to an end or neither does,
and nothing that is shown tells which of the two it was.

## Main definitions

* `Store.Region` — scopes from which nothing leads out, with what is held in them.
* `Node.letBlock` — the block.

## Main results

* `Node.evaluate_call_as_block` — a call of a function literal is such a block.
-/

namespace Monkey

open Monkey.Computation

/-! ## Where the runs begin -/

/-- At the top, the value has been made before the identity `next` was handed out and is not being
returned; and if it is a function or macro, it leads to a scope of `E` and holds no `return`, and if
it is a quotation, its tree is good. -/
structure Value.Settled (E : Scope → Prop) (next : Identity) (good : Node → Prop) (v : Value) :
    Prop where
  handedOut : ∀ i, v.identity? = some i → i < next
  unreturned : v.isReturned = false
  functions : ∀ i ps body sc, v = .function i ps body sc ∨ v = .macroFn i ps body sc →
    E sc ∧ body.ReturnFree
  quotes : v.Quotes good

/-- The scopes `E` have been made, each after the one around it, and nothing leads from them out of
`E`. Nothing that they hold is being returned or holds a `return`, and all trees that are quoted in
them are good. -/
structure Store.Region (E : Scope → Prop) (good : Node → Prop) (st : Store) : Prop where
  made : ∀ sc, E sc → sc.index < st.frames.size
  parents : ∀ sc f p, E sc → st.frame? sc = some f → f.parent = some p →
    E p ∧ p.index < sc.index
  values : ∀ sc f, E sc → st.frame? sc = some f →
    ∀ b ∈ f.bindings, b.2.Every (Value.Settled E st.nextIdentity good)

/-- A scope that nothing is around is a region, if what it holds leads to nothing else. -/
theorem Store.region_of_root {st : Store} {sc : Scope} {f : Frame} {good : Node → Prop}
    (hf : st.frame? sc = some f) (hroot : f.parent = none)
    (h : ∀ b ∈ f.bindings, b.2.Every (Value.Settled (· = sc) st.nextIdentity good)) :
    st.Region (· = sc) good := by
  refine ⟨?_, ?_, ?_⟩
  · rintro _ rfl
    exact (Array.getElem?_eq_some_iff.1 hf).1
  · rintro _ g p rfl hg hp
    obtain rfl := Option.some.inj (hf.symm.trans hg)
    rw [hroot] at hp
    cases hp
  · rintro _ g rfl hg
    obtain rfl := Option.some.inj (hf.symm.trans hg)
    exact h

/-- At first the scopes of a region correspond to themselves, and nothing is veiled. -/
def Veiling.same (E : Scope → Prop) (next : Identity) : Veiling where
  scopes sc sc' := sc = sc' ∧ E sc
  identities i i' := i = i' ∧ i < next
  scopes_oneToOne := by
    rintro a _ b _ ⟨rfl, -⟩ ⟨rfl, -⟩
    exact Iff.rfl
  identities_oneToOne := by
    rintro a _ b _ ⟨rfl, -⟩ ⟨rfl, -⟩
    exact Iff.rfl
  veiled _ := false

/-- What is held in a region looks like itself. -/
theorem Value.like_of_settled {X : Site} {s : Stage} {E : Scope → Prop} {next : Identity}
    {v : Value} (hv : v.Every (Settled E next Node.Quotable)) : v.Like (.veiling X s (.same E next)) v := by
  have hcloses : ∀ {sc body}, E sc ∧ body.ReturnFree →
      (Veiling.same E next).Closes X s sc sc body :=
    fun h => ⟨false, ⟨h.2, by simp, by simp⟩, .inl ⟨⟨rfl, h.1⟩, rfl⟩⟩
  refine .of_every (hv.imp fun u hu => ⟨?_, ?_, hu.unreturned, hu.unreturned⟩)
  · cases u with
    | function i ps body sc => exact .function (hcloses (hu.functions i ps body sc (.inl rfl)))
    | macroFn i ps body sc => exact .macroFn (hcloses (hu.functions i ps body sc (.inr rfl)))
    | quote i n => exact .quote (hu.quotes i n rfl)
    | hash => exact .hash rfl
    | _ => constructor
  · show Option.Rel _ u.identity? u.identity?
    cases hi : u.identity? with
    | none => exact .none
    | some i => exact .some ⟨rfl, hu.handedOut i hi⟩

/-- Where the function is about to be called, and where the block has been entered. -/
theorem Store.Region.runs {E : Scope → Prop} {st : Store} (h : st.Region E Node.Quotable)
    {F : Scope} (hF : E F) (hidden : List String) :
    (Veiling.same E st.nextIdentity).Runs ⟨st, F, hidden, h.made F hF⟩ (.binding [])
      st.freshIdentity.2 (st.child F []).2 := by
  have hkept : ∀ {u f}, st.frame? u = some f → (st.child F []).2.frame? u = some f :=
    fun hf => frame?_addFrame_of_some _ hf
  refine ⟨⟨?_, ?_, ?_⟩, ⟨fun u f hf => ⟨hf, hkept hf⟩, ?_, by rintro _ _ ⟨⟩⟩, rfl, Nat.le_refl _,
    ⟨⟨rfl, hF⟩, rfl⟩, ?_⟩
  · rintro sc _ ⟨rfl, hsc⟩
    have hmade := h.made sc hsc
    rw [size_child]
    exact ⟨hmade, Nat.lt_succ_of_lt hmade⟩
  · rintro i _ ⟨rfl, hi⟩
    exact ⟨Nat.lt_succ_of_lt hi, hi⟩
  · rintro sc _ ⟨rfl, hsc⟩
    obtain ⟨f, hf⟩ : ∃ f, st.frame? sc = some f :=
      ⟨_, Array.getElem?_eq_getElem (h.made sc hsc)⟩
    have hf' : st.freshIdentity.2.frame? sc = some f := hf
    rw [hf', hkept hf]
    refine .some ⟨.refl fun b hb => ⟨rfl, Value.like_of_settled (h.values sc f hsc hf b hb)⟩, ?_⟩
    cases hp : f.parent with
    | none => exact .none
    | some p =>
      obtain ⟨hE, hlt⟩ := h.parents sc _ p hsc hf hp
      exact .some ⟨.inl ⟨⟨rfl, hE⟩, rfl⟩, hlt, hlt⟩
  · refine ⟨⟨some F, []⟩, ?_, rfl, fun name => ⟨.none, fun _ => rfl⟩⟩
    rw [Site.block, child, frame?_addFrame, if_pos rfl]
  · rintro sc _ ⟨rfl, hsc⟩
    refine ⟨?_, by rintro _ _ ⟨⟩⟩
    rintro rfl
    exact Nat.lt_irrefl _ (h.made _ hsc)

/-! ## The two forms -/

/-- Goes on with an answer, unless there is none. -/
def Outcome.andThen {α β : Type} (o : Outcome α) (f : α → Store → Outcome β) : Outcome β :=
  match o with
  | ⟨.ok a, st⟩ => f a st
  | ⟨.error e, st⟩ => ⟨.error e, st⟩

theorem Computation.outcome_bind_andThen {α β : Type} (rule : Rule) (depth : Nat)
    (x : Computation α) (f : α → Computation β) (st : Store) :
    (x >>= f).outcome rule depth st =
      (x.outcome rule depth st).andThen fun a => (f a).outcome rule depth := by
  rw [outcome_bind]
  generalize x.outcome rule depth st = o
  obtain ⟨result, st'⟩ := o
  cases result <;> rfl

/-- More depth for the one part and for the other changes nothing in what was finished without. -/
theorem Outcome.andThen_mono {α β : Type} {o o' : Outcome α} {f f' : α → Store → Outcome β}
    (ho : o.Finished → o' = o) (hf : ∀ a st, (f a st).Finished → f' a st = f a st)
    (h : (o.andThen f).Finished) : o'.andThen f' = o.andThen f := by
  obtain ⟨result, st⟩ := o
  cases result with
  | error e =>
    have herror : (⟨.error e, st⟩ : Outcome α).Finished := fun he => h (by cases he; rfl)
    rw [ho herror]
    rfl
  | ok a =>
    have hok : (⟨.ok a, st⟩ : Outcome α).Finished := fun he => by cases he
    rw [ho hok]
    exact hf a st h

namespace Node

/-- The block that binds the parameters to the arguments and goes on with the body. -/
def letBlock (params : List String) (args body : List Node) : Node :=
  .ifExpr (.bool true) (List.zipWith .letStmt params args ++ body) none

/-- The names that the statements bind themselves. -/
def letNames (ss : List Node) : List String :=
  ss.filterMap fun
    | .letStmt name _ => some name
    | _ => none

end Node

section Forms
variable (F : Scope) (params : List String) (args body : List Node)

/-- A call of the function literal, with the arguments evaluated in one depth and the body in
another. -/
def callOutcome (depth bodyDepth : Nat) (i : Identity) (st : Store) : Outcome Value :=
  ((Attempt.needAll F args).run.outcome evalRule depth st).andThen fun
    | .ok vs => ((Value.function i params (.block body) F).call vs).outcome evalRule bodyDepth
    | .error v => fun st => ⟨.ok v, st⟩

/-- The statements of the block, with the bindings evaluated in one depth and the body in
another. -/
def blockOutcome (inner : Scope) (depth bodyDepth : Nat) (st : Store) : Outcome Value :=
  ((evalStatements inner .null (List.zipWith .letStmt params args)).outcome evalRule
    depth st).andThen fun v => if v.stopsBlock then fun st => ⟨.ok v, st⟩
      else (evalStatements inner v body).outcome evalRule bodyDepth

theorem Node.evaluate_call_literal (depth : Nat) (st : Store) :
    (Node.call (.fnLit params body) args).evaluate (depth + 2) F st =
      callOutcome F params args body (depth + 1) (depth + 1) st.nextIdentity
        st.freshIdentity.2 := by
  have hliteral : evalWithin evalRule (depth + 1) (.fnLit params body) F st =
      ⟨.ok (.function st.nextIdentity params (.block body) F), st.freshIdentity.2⟩ := rfl
  rw [evaluate, run_eq, outcome_eval_succ]
  show (evalRule (.call (.fnLit params body) args) F st).resolve _ = _
  rw [evalRule_call (by simp)]
  show (Attempt.settle (evalCall (.fnLit params body) args F)).outcome evalRule (depth + 1) st = _
  rw [evalCall, Attempt.settle_need_bind, outcome_bind, outcome_eval, hliteral]
  show (Attempt.settle (Attempt.needAll F args >>= fun vs => liftM (Value.call _ vs))).outcome
    evalRule (depth + 1) st.freshIdentity.2 = _
  simp only [Attempt.settle_bind, Attempt.settle_lift]
  rw [outcome_bind_andThen, callOutcome]
  refine congrArg _ (funext fun r => ?_)
  cases r <;> rfl

theorem Node.evaluate_letBlock (depth : Nat) (st : Store) :
    (Node.letBlock params args body).evaluate (depth + 2) F st =
      blockOutcome params args body ⟨st.frames.size⟩ depth depth (st.child F []).2 := by
  have hcondition :
      evalWithin evalRule (depth + 1) (.bool true) F st = ⟨.ok (.bool true), st⟩ := rfl
  rw [evaluate, run_eq, outcome_eval_succ, letBlock, evalRule, Attempt.settle_need_bind,
    outcome_bind, outcome_eval, hcondition]
  show (Attempt.settle (liftM (eval (.block (List.zipWith .letStmt params args ++ body))
    F))).outcome evalRule (depth + 1) st = _
  rw [Attempt.settle_lift, outcome_eval_succ]
  show (evalStatements ⟨st.frames.size⟩ .null (List.zipWith .letStmt params args ++ body)).outcome
    evalRule depth (st.child F []).2 = _
  rw [evalStatements_append _ _ _ rfl, outcome_bind_andThen, blockOutcome]
  refine congrArg _ (funext fun v => ?_)
  split <;> rfl

variable {depth depth' bodyDepth bodyDepth' : Nat} (hle : depth ≤ depth')
  (hle' : bodyDepth ≤ bodyDepth') {st : Store}
include hle hle'

theorem callOutcome_mono {i : Identity}
    (h : (callOutcome F params args body depth bodyDepth i st).Finished) :
    callOutcome F params args body depth' bodyDepth' i st =
      callOutcome F params args body depth bodyDepth i st := by
  refine Outcome.andThen_mono (outcome_mono evalRule hle _ st) (fun r st' => ?_) h
  cases r with
  | ok vs => exact outcome_mono evalRule hle' _ st'
  | error v => exact fun _ => rfl

theorem blockOutcome_mono {inner : Scope}
    (h : (blockOutcome params args body inner depth bodyDepth st).Finished) :
    blockOutcome params args body inner depth' bodyDepth' st =
      blockOutcome params args body inner depth bodyDepth st := by
  refine Outcome.andThen_mono (outcome_mono evalRule hle _ st) (fun v st' => ?_) h
  split
  · exact fun _ => rfl
  · exact outcome_mono evalRule hle' _ st'

end Forms

/-! ## The arguments -/

/-- A `let` binds its name to the value of its operand, unless that is an error. -/
theorem Computation.outcome_letStmt (name : String) (e : Node) (sc : Scope) (depth : Nat)
    (st : Store) :
    (eval (.letStmt name e) sc).outcome evalRule (depth + 1) st =
      ((eval e sc).outcome evalRule depth st).andThen fun v st =>
        if v.isError then ⟨.ok v, st⟩ else ⟨.ok .null, st.define sc name v⟩ := by
  rw [outcome_eval_succ, evalRule, Attempt.settle_need_bind, outcome_bind_andThen]
  refine congrArg _ (funext fun v => ?_)
  split <;> rfl

/-- What has come of the arguments, and what of binding the parameters to them: either all are
given, or the first error is what the block comes to. -/
def Site.Given (X : Site) (κ : Veiling) (params : List String) (given given' : Table String Value) :
    Except Value (List Value) → Value → Prop
  | .ok vs, v => v = .null ∧ vs.length = params.length ∧
    given' = Table.insertAll (params.zip vs) given
  | .error e, v => e.isError = true ∧ e.Like (.veiling X (.binding given') κ) v

/-- The arguments of the call are evaluated as the block binds its parameters to them. -/
theorem Veiling.Runs.giveAll {X : Site} (depth : Nat) {params : List String} {args : List Node}
    (hlength : args.length = params.length) (hparams : ∀ name ∈ params, name ∈ X.hidden)
    (hargs : ∀ e ∈ args, e.Discreet X.hidden true ∧ X.Takes true e) {κ : Veiling}
    {given : Table String Value} {st st' : Store} (h : κ.Runs X (.binding given) st st') :
    ∃ given' μ, μ.Runs X (.binding given')
        ((Attempt.needAll X.outer args).run.outcome evalRule depth st).store
        ((evalStatements X.block .null (List.zipWith .letStmt params args)).outcome evalRule
          (depth + 1) st').store ∧
      Both Eq (X.Given μ params given given')
        ((Attempt.needAll X.outer args).run.outcome evalRule depth st).result
        ((evalStatements X.block .null (List.zipWith .letStmt params args)).outcome evalRule
          (depth + 1) st').result := by
  induction args generalizing params κ given st st' with
  | nil =>
    obtain rfl := List.eq_nil_of_length_eq_zero hlength.symm
    exact ⟨given, κ, h, .ok ⟨rfl, rfl, rfl⟩⟩
  | cons e args ih =>
    cases params with
    | nil => cases hlength
    | cons name params =>
    obtain ⟨hdiscreet, htakes⟩ := hargs e List.mem_cons_self
    have hadmits : (Matching.veiling X (.binding given) κ).admits X.outer X.block e :=
      ⟨true, hdiscreet, .inr ⟨⟨rfl, rfl⟩, htakes⟩⟩
    obtain ⟨-, M, -, ⟨μ, rfl, hμ⟩, hresult⟩ :=
      (X.laws_runs _).eval depth hadmits _ st st' (Matching.le_refl _) ⟨κ, rfl, h⟩
    rw [Attempt.needAll, Attempt.outcome_bind, Attempt.outcome_need, List.zipWith_cons_cons,
      evalStatements, outcome_bind, outcome_letStmt]
    rw [outcome_eval] at hμ hresult ⊢
    rw [outcome_eval] at hμ hresult
    generalize evalWithin evalRule depth e X.outer st = o at hμ hresult ⊢
    generalize evalWithin evalRule depth e X.block st' = o' at hμ hresult ⊢
    obtain ⟨result, st₁⟩ := o
    obtain ⟨result', st₁'⟩ := o'
    cases hresult with
    | error he => exact ⟨given, μ, hμ, .error he⟩
    | @ok v v' hv =>
      dsimp only [Outcome.andThen]
      rw [← hv.isError_eq]
      cases he : v.isError with
      | true =>
        -- the call gives the error up, and the block stops at it
        have hstops : v'.stopsBlock = true := by
          rw [← hv.stopsBlock_eq, Value.stopsBlock_eq_or, he, Bool.true_or]
        simp only [if_true, hstops, outcome_pure]
        exact ⟨given, μ, hμ, .ok ⟨he, hv⟩⟩
      | false =>
        -- the call keeps the argument for later, the block binds it at once
        have hbound := hμ.give (hparams name List.mem_cons_self) hv
        obtain ⟨given', ν, hν, hrest⟩ := ih (Nat.succ.inj hlength)
          (fun name hname => hparams name (List.mem_cons_of_mem _ hname))
          (fun e he => hargs e (List.mem_cons_of_mem _ he)) hbound
        have hgoes : Value.null.stopsBlock = false := rfl
        simp only [Bool.false_eq_true, if_false, hgoes, Attempt.outcome_bind]
        generalize (Attempt.needAll X.outer args).run.outcome evalRule depth st₁ = o at hν hrest ⊢
        obtain ⟨result, st₂⟩ := o
        refine ⟨given', ν, ?_, ?_⟩
        · rcases result with e | (v | vs) <;> exact hν
        · generalize ((evalStatements X.block .null (List.zipWith .letStmt params args)).outcome
            evalRule (depth + 1) (st₁'.define X.block name v')).result = result' at hrest ⊢
          cases hrest with
          | error he => exact .error he
          | @ok r w hgiven =>
            cases r with
            | error e => exact .ok hgiven
            | ok vs =>
              obtain ⟨hnull, hall, hgiven⟩ := hgiven
              exact .ok ⟨hnull, congrArg (· + 1) hall, hgiven⟩

/-! ## The call and the block -/

theorem Value.unwrapped_eq_self {v : Value} (h : v.isReturned = false) : v.unwrapped = v := by
  cases v with
  | returned => cases h
  | _ => rfl

/-- A function whose body is a block runs its statements in a scope inside that of the call. -/
theorem Value.outcome_call_block {i : Identity} {params : List String} {body : List Node}
    {sc : Scope} {vs : List Value} (h : vs.length = params.length) (depth : Nat) (st : Store) :
    ((function i params (.block body) sc).call vs).outcome evalRule (depth + 1) st =
      ((evalStatements ⟨st.frames.size + 1⟩ .null body).outcome evalRule depth
        ((st.child sc (bindParams params vs)).2.child ⟨st.frames.size⟩ []).2).andThen
        fun v st => ⟨.ok v.unwrapped, st⟩ := by
  rw [call, if_pos h, outcome_bind_andThen]
  show (eval (.block body) ⟨st.frames.size⟩ >>= fun v => pure v.unwrapped).outcome evalRule
    (depth + 1) (st.child sc (bindParams params vs)).2 = _
  rw [outcome_bind_andThen, outcome_eval_succ]
  show ((evalStatements ⟨(st.child sc (bindParams params vs)).2.frames.size⟩ .null body).outcome
    evalRule depth _).andThen _ = _
  rw [Store.size_child]
  rfl

/-- In one and the same depth of arguments and of bodies, the call and the block come to the
same. -/
theorem Veiling.Runs.call_as_block {X : Site} {κ : Veiling} {st st' : Store}
    (h : κ.Runs X (.binding []) st st') {params : List String} {args body : List Node}
    (hlength : args.length = params.length) (hparams : ∀ name ∈ params, name ∈ X.hidden)
    (hargs : ∀ e ∈ args, e.Discreet X.hidden true ∧ X.Takes true e)
    (hbody : ∀ n ∈ body, n.Discreet X.hidden false ∧ X.Takes false n) (depth bodyDepth : Nat)
    (i : Identity) :
    ∃ s μ, μ.Runs X s (callOutcome X.outer params args body depth (bodyDepth + 1) i st).store
        (blockOutcome params args body X.block (depth + 1) bodyDepth st').store ∧
      Both Eq (Matching.veiling X s μ).Alike
        (callOutcome X.outer params args body depth (bodyDepth + 1) i st).result
        (blockOutcome params args body X.block (depth + 1) bodyDepth st').result := by
  obtain ⟨given, μ, hμ, hgiven⟩ := h.giveAll depth hlength hparams hargs
  unfold callOutcome blockOutcome
  generalize (Attempt.needAll X.outer args).run.outcome evalRule depth st = o at hμ hgiven ⊢
  generalize (evalStatements X.block .null (List.zipWith .letStmt params args)).outcome evalRule
    (depth + 1) st' = o' at hμ hgiven ⊢
  obtain ⟨result, st₁⟩ := o
  obtain ⟨result', st₁'⟩ := o'
  cases hgiven with
  | error he => exact ⟨_, μ, hμ, .error he⟩
  | @ok r v hgiven =>
  cases r with
  | error e =>
    obtain ⟨he, hlike⟩ := hgiven
    have hstops : v.stopsBlock = true := by
      rw [← hlike.stopsBlock_eq, Value.stopsBlock_eq_or, he, Bool.true_or]
    simp only [Outcome.andThen, hstops, if_true]
    exact ⟨_, μ, hμ, .ok hlike⟩
  | ok vs =>
    obtain ⟨rfl, hall, rfl⟩ := hgiven
    -- the call makes its two scopes only now, and the body begins in the inner one
    have hnull : Value.null.Like
        (.veiling X (.running ⟨st₁.frames.size⟩ ⟨st₁.frames.size + 1⟩) μ) .null := .of_isAtom rfl
    obtain ⟨-, M, -, ⟨ν, rfl, hν⟩, hresult⟩ :=
      Pairing.evalStatements (P := (X.runs _).pairing bodyDepth) hnull
        (fun n hn => (X.laws_runs _).eval bodyDepth
          ⟨false, (hbody n hn).1, .inr ⟨⟨rfl, rfl⟩, (hbody n hn).2⟩⟩)
        _ _ st₁' (Matching.le_refl _) ⟨μ, rfl, hμ.enter⟩
    refine ⟨.running ⟨st₁.frames.size⟩ ⟨st₁.frames.size + 1⟩, ν, ?_⟩
    show ν.Runs X _ (((Value.function i params (.block body) X.outer).call vs).outcome evalRule
        (bodyDepth + 1) st₁).store
        ((evalStatements X.block .null body).outcome evalRule bodyDepth st₁').store ∧
      Both Eq _ (((Value.function i params (.block body) X.outer).call vs).outcome evalRule
        (bodyDepth + 1) st₁).result
        ((evalStatements X.block .null body).outcome evalRule bodyDepth st₁').result
    rw [Value.outcome_call_block hall]
    dsimp only [bindParams] at hν hresult ⊢
    generalize (evalStatements _ .null body).outcome evalRule bodyDepth (Store.child _ _ _).2 = o
      at hν hresult ⊢
    generalize (evalStatements X.block .null body).outcome evalRule bodyDepth st₁' = o'
      at hν hresult ⊢
    obtain ⟨result, st₂⟩ := o
    obtain ⟨result', st₂'⟩ := o'
    cases hresult with
    | error he => exact ⟨hν, .error he⟩
    | @ok v v' hv =>
      refine ⟨hν, .ok ?_⟩
      rw [Value.unwrapped_eq_self hv.marks.2.1]
      exact hv

theorem Node.evaluate_mono {depth depth' : Nat} (hle : depth ≤ depth') (n : Node) (sc : Scope)
    (st : Store) (h : (n.evaluate depth sc st).Finished) :
    n.evaluate depth' sc st = n.evaluate depth sc st := by
  rw [evaluate, run_eq] at h
  rw [evaluate, evaluate, run_eq, run_eq]
  exact outcome_mono evalRule hle _ st h

theorem Outcome.ShowsLike.finished_iff {o o' : Outcome Value} (h : o.ShowsLike o') :
    o.Finished ↔ o'.Finished := by
  obtain ⟨result, st⟩ := o
  obtain ⟨result', st'⟩ := o'
  have hresult : Both Eq _ result result' := h.result
  cases hresult with
  | error he =>
    subst he
    exact Iff.rfl
  | ok => exact iff_of_true (by rintro ⟨⟩) (by rintro ⟨⟩)

/-- Nobody can tell from what is shown to which of the two it comes from the store, and both leave
the frame of the scope as it was. -/
structure Store.Agree (st : Store) (sc : Scope) (o o' : Outcome Value) : Prop where
  shows : o.ShowsLike o'
  frame : o.store.frame? sc = st.frame? sc
  frame' : o'.store.frame? sc = st.frame? sc

section CallAsBlock
variable {st : Store} {E : Scope → Prop} (hregion : st.Region E Node.Quotable)
  {F : Scope} (hF : E F) {params : List String} {args body : List Node} (hlength : args.length = params.length)
  (hsorted : (Node.call (.fnLit params body) args).WellSorted)
  (hreturns : (Node.call (.fnLit params body) args).ReturnFree)
  (hunquotes : ∀ e ∈ args, e.UnquoteFree)
  (hnames : ∀ e ∈ args, e.Avoids (params ++ Node.letNames body))
include hregion hF hlength hsorted hreturns hunquotes hnames

theorem agree_call_letBlock (depth bodyDepth : Nat) : st.Agree F
    (callOutcome F params args body depth (bodyDepth + 1) st.nextIdentity st.freshIdentity.2)
    (blockOutcome params args body ⟨st.frames.size⟩ (depth + 1) bodyDepth (st.child F []).2) := by
  let X : Site := ⟨st, F, params ++ Node.letNames body, hregion.made F hF⟩
  have hcall := (Node.quotable_iff.1 ⟨hsorted, hreturns⟩).1
  have hargs : ∀ e ∈ args, e.Discreet X.hidden true ∧ X.Takes true e := by
    intro e he
    obtain ⟨hexpression, hes, hfree⟩ := hcall.operands e (List.mem_cons_of_mem _ he)
    refine ⟨⟨hfree, fun _ => hnames e he, fun _ => hunquotes e he⟩, hes, .inl hexpression, ?_⟩
    rintro name value rfl
    cases hexpression
  have hbody : ∀ n ∈ body, n.Discreet X.hidden false ∧ X.Takes false n := by
    intro n hn
    have hliteral := (Node.quotable_iff.1 (hcall.operands _ List.mem_cons_self).2).1
    have hblock := (Node.quotable_iff.1 (hliteral.bodies body (by simp))).1
    obtain ⟨hstatement, hns, hfree⟩ := hblock.listed n hn
    refine ⟨⟨hfree, by simp, by simp⟩, hns, .inr (.inr ⟨rfl, hstatement⟩), ?_⟩
    rintro name value rfl
    exact List.mem_append_right _ (List.mem_filterMap.2 ⟨_, hn, rfl⟩)
  obtain ⟨s, μ, hμ, hresult⟩ := (hregion.runs hF X.hidden).call_as_block hlength
    (fun name hname => List.mem_append_left _ hname) hargs hbody depth bodyDepth st.nextIdentity
  obtain ⟨f, hf⟩ : ∃ f, st.frame? F = some f :=
    ⟨_, Array.getElem?_eq_getElem (hregion.made F hF)⟩
  obtain ⟨hkept, hkept'⟩ := hμ.here.old F f hf
  refine ⟨⟨hμ.output, hresult.mono fun v v' hv => ?_⟩, hkept.trans hf.symm, hkept'.trans hf.symm⟩
  exact ⟨hv.kind_eq, hv.inspect_eq, hv.showable_eq⟩

/-- A call of a function literal is a block that binds the parameters to the arguments and goes on
with the body of the function: if the one comes to an end then so does the other, and they show the
same and leave the frame of their scope as it was. There must be no `return` in them or in what can
be reached, and the arguments must not unquote anything or use names that the block binds. All trees
must be well sorted, also those that are quoted in what can be reached. -/
theorem Node.evaluate_call_as_block :
    ((∃ depth, ((Node.call (.fnLit params body) args).evaluate depth F st).Finished) ↔
      ∃ depth, ((Node.letBlock params args body).evaluate depth F st).Finished) ∧
    ∀ depth depth', ((Node.call (.fnLit params body) args).evaluate depth F st).Finished →
      ((Node.letBlock params args body).evaluate depth' F st).Finished →
      st.Agree F ((Node.call (.fnLit params body) args).evaluate depth F st)
        ((Node.letBlock params args body).evaluate depth' F st) := by
  have hagree := agree_call_letBlock hregion hF hlength hsorted hreturns hunquotes hnames
  -- what is finished in some depth is finished in any that is greater
  have hcall : ∀ depth m, depth ≤ m →
      ((Node.call (.fnLit params body) args).evaluate depth F st).Finished →
      (Node.call (.fnLit params body) args).evaluate depth F st =
        callOutcome F params args body (m + 1) (m + 1) st.nextIdentity st.freshIdentity.2 := by
    intro depth m hle h
    rw [← evaluate_call_literal]
    exact (evaluate_mono (by omega) _ F st h).symm
  have hblock : ∀ depth m, depth ≤ m →
      ((Node.letBlock params args body).evaluate depth F st).Finished →
      (Node.letBlock params args body).evaluate depth F st =
        blockOutcome params args body ⟨st.frames.size⟩ (m + 2) m (st.child F []).2 := by
    intro depth m hle h
    have heq := evaluate_mono (show depth ≤ m + 2 by omega) _ F st h
    rw [evaluate_letBlock] at heq
    rw [← heq] at h ⊢
    exact (blockOutcome_mono params args body (by omega) (Nat.le_refl m) h).symm
  refine ⟨⟨?_, ?_⟩, ?_⟩
  · rintro ⟨depth, h⟩
    refine ⟨depth + 2 + 2, ?_⟩
    rw [hcall depth depth (Nat.le_refl _) h] at h
    rw [evaluate_letBlock, ← (hagree (depth + 1) (depth + 2)).shows.finished_iff,
      callOutcome_mono F params args body (Nat.le_refl _) (by omega) h]
    exact h
  · rintro ⟨depth, h⟩
    refine ⟨depth + 2, ?_⟩
    rw [hblock depth depth (Nat.le_refl _) h] at h
    rw [evaluate_call_literal]
    exact (hagree (depth + 1) depth).shows.finished_iff.2 h
  · intro depth depth' h h'
    rw [hcall depth (depth + depth') (by omega) h, hblock depth' (depth + depth') (by omega) h']
    exact hagree (depth + depth' + 1) (depth + depth')

end CallAsBlock

/-- A store in which `z` is one, `f` adds it to a number, and `q` is the tree of a sum. -/
def Store.adding : Store :=
  let root := Store.empty.newRoot.2.define ⟨0⟩ "z" (.int 1)
    |>.define ⟨0⟩ "f" (.function 0 ["y"]
      (.block [.exprStmt (.infixOp (.ident "y") "+" (.ident "z"))]) ⟨0⟩)
    |>.define ⟨0⟩ "q" (.quote 1 (.infixOp (.int 1) "+" (.int 2)))
  { root with nextIdentity := 2 }

/-- A function of a number and of a function that uses what is around the call. -/
theorem Node.evaluate_call_as_block_adding :
    let params := ["x", "g"]
    let args : List Node := [.call (.ident "f") [.int 2],
      .fnLit ["k"] [.exprStmt (.infixOp (.ident "k") "+" (.ident "z"))]]
    let body : List Node := [.letStmt "w" (.call (.ident "g") [.ident "x"]),
      .exprStmt (.call (.ident "quote") [.call (.ident "unquote") [.ident "q"]]),
      .exprStmt (.ident "w")]
    Store.adding.Agree ⟨0⟩ ((Node.call (.fnLit params body) args).evaluate 9 ⟨0⟩ .adding)
        ((Node.letBlock params args body).evaluate 9 ⟨0⟩ .adding) ∧
      ((Node.letBlock params args body).evaluate 9 ⟨0⟩ .adding).result.toOption.map Value.inspect =
        some "4" := by
  intro params args body
  have hregion : Store.adding.Region (· = ⟨0⟩) Node.Quotable := by
    refine Store.region_of_root (f := ⟨none, [("z", .int 1),
      ("f", .function 0 ["y"] (.block [.exprStmt (.infixOp (.ident "y") "+" (.ident "z"))]) ⟨0⟩),
      ("q", .quote 1 (.infixOp (.int 1) "+" (.int 2)))]⟩) rfl rfl ?_
    simp only [List.forall_mem_cons]
    refine ⟨?_, ?_, ?_, by simp⟩
    · exact .intro ⟨by simp [Value.identity?], rfl, by simp, by rintro _ _ ⟨⟩⟩ (by simp)
    · refine .intro ⟨by rintro _ ⟨⟩; decide, rfl, ?_, by rintro _ _ ⟨⟩⟩ (by simp)
      rintro _ _ _ _ (h | h) <;> cases h
      exact ⟨rfl, by simp [ReturnFree, subtrees, subtreesOf]⟩
    · refine .intro ⟨by rintro _ ⟨⟩; decide, rfl, by simp, ?_⟩ (by simp)
      rintro _ _ ⟨⟩
      exact ⟨by decide, by simp [ReturnFree, subtrees]⟩
  have hfinished : ∀ n : Node, (n.evaluate 9 ⟨0⟩ .adding).result.isOk = true →
      (n.evaluate 9 ⟨0⟩ .adding).Finished := by
    intro n hok herror
    rw [herror] at hok
    cases hok
  have hcall : ((Node.call (.fnLit params body) args).evaluate 9 ⟨0⟩ .adding).Finished := by
    refine hfinished _ ?_
    rw [evaluate, run_eq, outcome_eval]
    decide +kernel
  have hblock : ((Node.letBlock params args body).evaluate 9 ⟨0⟩ .adding).Finished := by
    refine hfinished _ ?_
    rw [evaluate, run_eq, outcome_eval]
    decide +kernel
  refine ⟨(evaluate_call_as_block hregion rfl rfl (by decide) ?_ ?_ ?_).2 9 9 hcall hblock, ?_⟩
  · simp [ReturnFree, subtrees, subtreesOf, params, args, body]
  · simp [UnquoteFree, subtrees, subtreesOf, args]
  · simp [Avoids, letNames, subtrees, subtreesOf, params, args, body]
  · rw [evaluate, run_eq, outcome_eval]
    decide +kernel

/-- A store in which `z` is one and `q` is a quoted tree that no program text has: a `let` in the
place of an operand. -/
def Store.quotingRebinding : Store :=
  let root := Store.empty.newRoot.2.define ⟨0⟩ "z" (.int 1)
    |>.define ⟨0⟩ "q" (.quote 0 (.prefixOp "!" (.letStmt "z" (.int 2))))
  { root with nextIdentity := 1 }

/-- That the trees of the program text are well sorted is not enough. A quoted `let` that is
unquoted twice in the body binds its name where the body is evaluated, and what the arguments have
made sees that only in the block. -/
theorem Node.evaluate_tells_call_from_block :
    ¬ ∀ (st : Store) (E : Scope → Prop) (F : Scope) (source : String) (params : List String)
      (args body : List Node) (depth : Nat) (v v' : Value), st.Region E ReturnFree → E F →
      params.Nodup → args.length = params.length →
      Source.parse source = .ok (.program [.exprStmt (.call (.fnLit params body) args)]) →
      (Node.call (.fnLit params body) args).ReturnFree →
      (∀ e ∈ args, ∀ t ∈ e.subtrees, t.isCallTo "unquote" = false) →
      (∀ e ∈ args, e.Avoids (params ++ letNames (Node.block body).subtrees)) →
      ((Node.call (.fnLit params body) args).evaluate depth F st).result = .ok v →
      ((Node.letBlock params args body).evaluate depth F st).result = .ok v' →
      v.inspect = v'.inspect := by
  intro h
  let args : List Node := [.fnLit [] [.exprStmt (.ident "z")]]
  let body : List Node := [.exprStmt (.call (.ident "quote") [.call (.ident "unquote")
    [.call (.ident "unquote") [.ident "q"]]]), .exprStmt (.call (.ident "g") [])]
  let source := "fn(g) \x7b quote(unquote(unquote(q))); g() \x7d(fn() \x7b z \x7d)"
  have hparse : Source.parse source =
      .ok (.program [.exprStmt (.call (.fnLit ["g"] body) args)]) :=
    Source.parse_of_toOption (by decide +kernel)
  have hregion : Store.quotingRebinding.Region (· = ⟨0⟩) ReturnFree := by
    refine Store.region_of_root (f := ⟨none, [("z", .int 1),
      ("q", .quote 0 (.prefixOp "!" (.letStmt "z" (.int 2))))]⟩) rfl rfl ?_
    simp only [List.forall_mem_cons]
    refine ⟨?_, ?_, by simp⟩
    · exact .intro ⟨by simp [Value.identity?], rfl, by simp, by rintro _ _ ⟨⟩⟩ (by simp)
    · refine .intro ⟨by rintro _ ⟨⟩; decide, rfl, by simp, ?_⟩ (by simp)
      rintro _ _ ⟨⟩
      simp [ReturnFree, subtrees]
  have hvalue : ∀ (n : Node) (text : String),
      (n.evaluate 9 ⟨0⟩ .quotingRebinding).result.toOption.map Value.inspect = some text →
      ∃ v, (n.evaluate 9 ⟨0⟩ .quotingRebinding).result = .ok v ∧ v.inspect = text := by
    intro n text hr
    cases hresult : (n.evaluate 9 ⟨0⟩ .quotingRebinding).result with
    | error e =>
      rw [hresult] at hr
      cases hr
    | ok v =>
      rw [hresult] at hr
      exact ⟨v, rfl, Option.some.inj hr⟩
  obtain ⟨v, hv, hone⟩ := hvalue (.call (.fnLit ["g"] body) args) "1" (by
    rw [evaluate, run_eq, outcome_eval]
    decide +kernel)
  obtain ⟨w, hw, htwo⟩ := hvalue (letBlock ["g"] args body) "2" (by
    rw [evaluate, run_eq, outcome_eval]
    decide +kernel)
  have hsame : v.inspect = w.inspect :=
    h .quotingRebinding (· = ⟨0⟩) ⟨0⟩ source ["g"] args body 9 v w hregion rfl (by simp) rfl hparse
      (by simp [ReturnFree, subtrees, subtreesOf, args, body])
      (by simp [subtrees, subtreesOf, args, isCallTo])
      (by simp [Avoids, letNames, subtrees, subtreesOf, args, body]) hv hw
  rw [hone, htwo] at hsame
  exact absurd hsame (by decide)

end Monkey
