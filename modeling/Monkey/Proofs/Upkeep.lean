import Monkey.Proofs.Calls
import Monkey.Proofs.Every
import Monkey.Proofs.Rebuilding

/-!
# What evaluation keeps up

One walk through the rules of evaluation, made for every judgement. `Steps`
says that the steps an evaluation is made of are as the judgement wants them:
handing out identities, printing and reading names. An `Upkeep` says so of opening
scopes as well, and of evaluating trees inside scopes that have been opened. What
remains for a tree is then what it does itself: what its parts come to in its own
scope, and the names, markers, functions and quotations that it makes.

Only calls print, so `QuietSteps` leaves printing out, for judgements by which it
needs a closer look. And only a name is read, in the scope where it stands: what it
may mean there (`Finds`) can be asked of each scope apart.

A result is either an error or a value that has the shape throughout; errors
hold no values and are never inside one.

## Main results

* `Upkeep.call` — calls of functions and builtins yield results.
* `QuietSteps.evalRule`, `Upkeep.evalRule` — the rule of a tree yields a result when its
  parts do and what it makes itself is in order.
* `QuietSteps.quotation` — so does a quotation.
-/

namespace Monkey

open Monkey.Computation

/-- The parts of a tree that its rule evaluates in the scope of the tree itself. -/
def Node.parts : Node → List Node
  | .program ss => ss
  | .ifExpr c t e => c :: (t :: e.toList).map .block
  | n => n.operands

theorem Node.parts_subset (n : Node) : n.parts ⊆ n.children := by
  intro m hm
  cases n with
  | program ss => exact mem_children.2 (.inr (.inl hm))
  | ifExpr c t e => simpa [parts, children] using hm
  | _ => exact mem_children.2 (.inl hm)

/-- Statements behind others are evaluated after these, unless the program stops there. -/
theorem evalStatements_append (sc : Scope) (ss ts : List Node) {otherwise : Value}
    (h : otherwise.stopsBlock = false) :
    evalStatements sc otherwise (ss ++ ts) = (do
      let v ← evalStatements sc otherwise ss
      if v.stopsBlock then return v else evalStatements sc v ts) := by
  induction ss generalizing otherwise with
  | nil => simp [evalStatements, h]
  | cons s ss ih =>
    rw [List.cons_append, evalStatements, evalStatements, bind_assoc]
    refine bind_congr fun v => ?_
    cases hv : v.stopsBlock with
    | true => simp [hv]
    | false => simpa [hv] using ih hv

namespace Value

/-- A result: an error, or a value with a shape throughout. -/
def Result (shape : Value → Prop) (v : Value) : Prop :=
  v.isError = true ∨ v.Every shape

theorem Result.unwrapped {shape : Value → Prop} {v : Value} (h : v.Result shape) :
    v.unwrapped.Result shape := by
  rcases h with he | hv
  · cases v <;> first | exact .inl he | cases he
  · exact .inr (every_unwrapped hv)

end Value

/-- What names mean is as a judgement wants it, in a scope: it has the shape. -/
abbrev Finds (J : Judgement Computation) (shape : Value → Prop) (sc : Scope) : Prop :=
  ∀ name, J.holds (reading (·.lookup name sc)) fun r => ∀ v, r = some v → v.Every shape

/-- The steps of evaluation that hand out identities and look for names are as a judgement wants
them, for values of a shape. -/
structure QuietSteps (J : Judgement Computation) (shape : Value → Prop) : Prop where
  data : ∀ v, v.isData = true → shape v
  fresh : J.holds fresh fun _ => True
  unbound : ∀ name sc, J.holds (isUnbound name sc) fun _ => True

/-- So are the steps of a call that opens no scope. -/
structure Steps (J : Judgement Computation) (shape : Value → Prop) : Prop
    extends QuietSteps J shape where
  printLine : ∀ line, J.holds (modify (Store.printLine line)) fun _ => True
  unwritable : J.holds (fail .unwritableNumber : Computation Unit) fun _ => True

/-- All steps of evaluation are as a judgement wants them, for values of a shape. `inner` tells
which scopes have been opened on the way. -/
structure Upkeep (J : Judgement Computation) (shape : Value → Prop) (inner : Scope → Prop) : Prop
    extends Steps J shape where
  found : ∀ sc, Finds J shape sc
  opened : ∀ sc bindings, (∀ b ∈ bindings, b.2.Every shape) →
    J.holds (openScope sc bindings) inner
  inside : ∀ n sc, inner sc → J.holds (eval n sc) (Value.Result shape)

namespace Upkeep
variable {J : Judgement Computation} {shape : Value → Prop} {inner : Scope → Prop}

/-- The judgement on attempts: they are only given up with errors. -/
abbrev attempts (J : Judgement Computation) : Judgement Attempt :=
  J.except fun v => v.isError = true

section Attempts

/-- What is needed comes to a value with the shape, or ends the attempt. -/
theorem need {n : Node} {sc : Scope} (h : J.holds (eval n sc) (Value.Result shape)) :
    (attempts J).holds (Attempt.need n sc) (Value.Every shape) := by
  refine (attempts J).bind (J.lift h) fun v hv => ?_
  cases he : v.isError with
  | true => exact J.throw he
  | false =>
    refine (attempts J).pure (hv.resolve_left ?_)
    simp [he]

theorem needAll {sc : Scope} : ∀ {ns : List Node},
    (∀ n ∈ ns, J.holds (eval n sc) (Value.Result shape)) →
    (attempts J).holds (Attempt.needAll sc ns) fun vs => ∀ v ∈ vs, v.Every shape
  | [], _ => (attempts J).pure (by simp)
  | n :: ns, h => by
    refine (attempts J).bind (need (h n List.mem_cons_self)) fun v hv => ?_
    refine (attempts J).bind (needAll fun n hn => h n (List.mem_cons_of_mem _ hn)) fun vs hvs => ?_
    exact (attempts J).pure (by simpa using ⟨hv, hvs⟩)

/-- What is called, and what it is given, have the shape. -/
theorem evalOperands {sc : Scope} {callee : Node} {args : List Node}
    (h : ∀ n ∈ callee :: args, J.holds (eval n sc) (Value.Result shape)) :
    (attempts J).holds (Monkey.evalOperands callee args sc)
      fun p => ∀ v ∈ p.1 :: p.2, v.Every shape := by
  refine (attempts J).bind (need (h callee List.mem_cons_self)) fun f hf => ?_
  refine (attempts J).bind (needAll fun m hm => h m (List.mem_cons_of_mem _ hm)) fun vs hvs => ?_
  exact (attempts J).pure (by simpa using ⟨hf, hvs⟩)

theorem settle {x : Attempt Value} {post : Value → Prop} (h : (attempts J).holds x post) :
    J.holds (Attempt.settle x) fun v => v.isError = true ∨ post v := by
  refine J.bind h fun r hr => ?_
  cases r with
  | ok v => exact J.pure (.inr hr)
  | error v => exact J.pure (.inl hr)

/-- The value of an attempt at a result is a result. -/
theorem settleResult {x : Attempt Value} (h : (attempts J).holds x (Value.Result shape)) :
    J.holds (Attempt.settle x) (Value.Result shape) :=
  J.mono (settle h) fun _ hv => hv.elim .inl id

end Attempts

theorem bindParams {params : List String} {args : List Value} (h : ∀ v ∈ args, v.Every shape) :
    ∀ b ∈ Monkey.bindParams params args, b.2.Every shape :=
  Table.forall_insertAll (fun e he => h e.2 (List.of_mem_zip he).2) (by simp)

end Upkeep

namespace QuietSteps
open Upkeep
variable {J : Judgement Computation} {shape : Value → Prop} (U : QuietSteps J shape)
include U

theorem raise (f : Fault) : J.holds (raise f) fun v => v.isError = true :=
  J.bind U.fresh fun _ _ => J.pure rfl

theorem reject {α : Type} {post : α → Prop} (f : Fault) :
    (attempts J).holds (Attempt.reject f) post :=
  (attempts J).bind (J.lift (U.raise f)) fun _ hv => J.throw hv

theorem check {α : Type} {r : Except Fault α} {post : α → Prop} (h : ∀ a, r = .ok a → post a) :
    (attempts J).holds (Attempt.check r) post := by
  cases r with
  | ok a => exact (attempts J).pure (h a rfl)
  | error f => exact U.reject f

theorem newArray {items : List Value} (h : ∀ v ∈ items, v.Every shape) :
    J.holds (newArray items) (Value.Result shape) :=
  J.bind U.fresh fun _ _ => J.pure (.inr (Value.every_array_of U.data h))

theorem atom {v : Value} (h : v.isAtom = true) : J.holds (pure v) (Value.Result shape) :=
  J.pure (.inr (Value.every_of_isAtom U.data h))

theorem refuse (f : Fault) : J.holds (Computation.raise f) (Value.Result shape) :=
  J.mono (U.raise f) fun _ h => .inl h

/-! ## The rules of evaluation -/

omit U in
theorem evalStatements {sc : Scope} : ∀ {ss : List Node} {otherwise : Value},
    Value.Result shape otherwise → (∀ s ∈ ss, J.holds (eval s sc) (Value.Result shape)) →
    J.holds (evalStatements sc otherwise ss) (Value.Result shape)
  | [], _, ho, _ => J.pure ho
  | s :: ss, _, _, hs => by
    refine J.bind (hs s List.mem_cons_self) fun v hv => ?_
    split
    · exact J.pure hv
    · exact evalStatements hv fun s h => hs s (List.mem_cons_of_mem _ h)

/-- Statements that yield results yield a result. -/
theorem evalStatements_null {sc : Scope} {ss : List Node}
    (hs : ∀ s ∈ ss, J.holds (eval s sc) (Value.Result shape)) :
    J.holds (Monkey.evalStatements sc .null ss) (Value.Result shape) :=
  evalStatements (.inr (Value.every_of_isAtom U.data rfl)) hs

theorem evalName (name : String) {sc : Scope} (found : Finds J shape sc) :
    J.holds (evalName name sc) (Value.Result shape) := by
  refine J.bind (found name) fun r hr => ?_
  cases r with
  | some v => exact J.pure (.inr (hr v rfl))
  | none =>
    dsimp only
    split
    · exact U.atom rfl
    · exact U.refuse _

theorem evalEntries {sc : Scope} : ∀ {ps : List (Node × Node)} {entries : Table Key Value},
    (∀ e ∈ entries, e.2.Every shape) →
    (∀ m ∈ (Node.hash ps).operands, J.holds (eval m sc) (Value.Result shape)) →
    (attempts J).holds (evalEntries sc entries ps) fun es => ∀ e ∈ es, e.2.Every shape
  | [], _, he, _ => (attempts J).pure he
  | (k, v) :: ps, entries, he, hp => by
    simp only [Node.operands, List.flatMap_cons, List.mem_append, List.mem_cons,
      List.not_mem_nil, or_false] at hp
    refine (attempts J).bind (need (hp k (.inl (.inl rfl)))) fun k' _ => ?_
    have hkey : (attempts J).holds (Attempt.check k'.key?) fun _ => True :=
      U.check fun _ _ => trivial
    refine (attempts J).bind hkey fun key _ => ?_
    refine (attempts J).bind (need (hp v (.inl (.inr rfl)))) fun v' hv => ?_
    refine evalEntries (fun e h => ?_) fun m hm => hp m (.inr hm)
    rcases Table.mem_of_mem_insert h with rfl | h
    · exact hv
    · exact he e h

/-- `unquote` answers what values are as syntax, and any other tree is answered by itself. -/
theorem unquoteStep {sc : Scope} {n : Node} {post : Node → Prop}
    (replies : ∀ arg, n = .call (.ident "unquote") [arg] →
      J.holds (eval arg sc) (Value.Result shape))
    (splices : ∀ (arg : Node) (v : Value) (e : Node), n = .call (.ident "unquote") [arg] →
      v.Every shape → v.toNode = .ok e → post e)
    (other : (∀ arg, n ≠ .call (.ident "unquote") [arg]) → post n) :
    (attempts J).holds (Monkey.unquoteStep sc n) post := by
  unfold Monkey.unquoteStep
  split
  · next arg =>
    refine (attempts J).bind (need (replies arg rfl)) fun v hv => ?_
    exact U.check fun e hve => splices arg v e rfl hv hve
  · next hne => exact (attempts J).pure (other fun arg h => hne arg h)

/-- A quotation is of a tree that is related to the one that is quoted, if unquoting makes related
trees of related parts. -/
theorem quotation {sc : Scope} {ok : Node → Prop} {rel : Node → Node → Prop}
    {stop : SortError → Prop}
    (illSorted : ∀ e, stop e →
      J.holds (fail (.illSorted e) : Computation Value) (Value.Result shape))
    (rewriting : (attempts J).Rewriting (Monkey.unquoteStep sc) ok rel stop) {arg : Node}
    (harg : ok arg) (quotes : ∀ i n, rel arg n → shape (.quote i n)) :
    (attempts J).holds (Monkey.evalQuote arg sc) (Value.Result shape) := by
  refine (attempts J).bind (Judgement.rebuild rewriting arg harg) fun r hr => ?_
  cases r with
  | ok n =>
    refine J.lift (J.bind U.fresh fun i _ => J.pure (.inr ?_))
    exact .intro (quotes i n hr) (by simp)
  | error e => exact J.lift (illSorted e hr)

/-- A quotation is good when the trees that it is made of are, and so are the splices. -/
theorem evalQuote {sc : Scope} {good : Node → Prop}
    (illSorted : ∀ e, J.holds (fail (.illSorted e) : Computation Value) (Value.Result shape))
    (replies : ∀ arg, arg.isExpression = true → good arg →
      J.holds (eval arg sc) (Value.Result shape))
    (splices : ∀ (v : Value) (e : Node), v.Every shape → v.toNode = .ok e → good e)
    (others : ∀ n, n.Built good → (∀ arg, n ≠ .call (.ident "unquote") [arg]) → good n)
    (quotes : ∀ i n, good n → shape (.quote i n)) (arg : Node) :
    (attempts J).holds (Monkey.evalQuote arg sc) (Value.Result shape) := by
  have hstep : ∀ n : Node, n.Built good → (attempts J).holds (Monkey.unquoteStep sc n) good := by
    intro n hn
    refine U.unquoteStep (fun arg harg => ?_) (fun _ v e _ => splices v e) (others n hn)
    obtain ⟨he, hg⟩ := hn.operands arg (by simp [harg])
    exact replies arg he hg
  exact U.quotation (fun e _ => illSorted e) (Judgement.rewriting_of_built hstep) trivial quotes

/-- A `return` yields an error, or the value of its operand marked. -/
theorem returnStmt {e : Node} {sc : Scope} (h : J.holds (eval e sc) (Value.Result shape)) :
    J.holds (evalRule (.returnStmt e) sc) fun v =>
      v.isError = true ∨ ∃ i w, v = .returned i w ∧ w.Every shape := by
  refine settle ((attempts J).bind (need h) fun w hw => ?_)
  exact (attempts J).bind (J.lift U.fresh) fun i _ => (attempts J).pure ⟨i, w, rfl, hw⟩

/-- The rule of a tree yields a result when the parts of the tree do, when its body does if it is
a block and what it calls if it is a call, and when the names, markers, functions and quotations
that it makes itself are in order. -/
theorem evalRule {n : Node} {sc : Scope} (found : Finds J shape sc)
    (parts : ∀ m ∈ n.parts, J.holds (eval m sc) (Value.Result shape))
    (blocks : ∀ ss, n = .block ss → J.holds (Monkey.evalRule n sc) (Value.Result shape))
    (calls : ∀ callee args, n = .call callee args →
      (attempts J).holds (evalCall callee args sc) (Value.Result shape))
    (names : ∀ name e v, n = .letStmt name e → v.Every shape →
      J.holds (modify (Store.define sc name v)) fun _ => True)
    (markers : ∀ e i v, n = .returnStmt e → v.Every shape → shape (.returned i v))
    (functions : ∀ ps b i, n = .fnLit ps b → shape (.function i ps (.block b) sc))
    (macros : ∀ ps b i, n = .macroLit ps b → shape (.macroFn i ps (.block b) sc))
    (quotations : ∀ arg, n = .call (.ident "quote") [arg] →
      (attempts J).holds (Monkey.evalQuote arg sc) (Value.Result shape)) :
    J.holds (Monkey.evalRule n sc) (Value.Result shape) := by
  have hnull : Value.null.Every shape := Value.every_of_isAtom U.data rfl
  cases n with
  | program ss =>
    exact J.bind (U.evalStatements_null parts) fun v hv => J.pure hv.unwrapped
  | block ss => exact blocks ss rfl
  | exprStmt e => exact parts e List.mem_cons_self
  | letStmt name e =>
    refine settleResult ((attempts J).bind (need (parts e List.mem_cons_self)) fun v hv => ?_)
    refine (attempts J).bind (J.lift (names name e v rfl hv)) fun _ _ => ?_
    exact (attempts J).pure (.inr hnull)
  | returnStmt e =>
    refine J.mono (U.returnStmt (parts e List.mem_cons_self)) fun v hv => ?_
    rcases hv with he | ⟨i, w, rfl, hw⟩
    · exact .inl he
    · exact .inr (Value.every_returned.2 ⟨markers e i w rfl hw, hw⟩)
  | ident name => exact U.evalName name found
  | int n => exact U.atom rfl
  | str s => exact U.atom rfl
  | bool b => exact U.atom rfl
  | array es =>
    refine settleResult ((attempts J).bind (needAll parts) fun vs hvs => ?_)
    exact J.lift (U.newArray hvs)
  | hash ps =>
    refine settleResult ((attempts J).bind (U.evalEntries (by simp) parts) fun es hes => ?_)
    refine (attempts J).bind (J.lift U.fresh) fun i _ => ?_
    exact (attempts J).pure (.inr (Value.every_hash_of U.data hes))
  | index l i =>
    refine settleResult ((attempts J).bind (need (parts l (by simp [Node.parts]))) fun l hl => ?_)
    refine (attempts J).bind (need (parts i (by simp [Node.parts]))) fun i _ => ?_
    exact U.check fun v hv => .inr (Value.every_of_applyIndex U.data hl hv)
  | prefixOp op r =>
    refine settleResult ((attempts J).bind (need (parts r List.mem_cons_self)) fun r _ => ?_)
    exact U.check fun v hv =>
      .inr (Value.every_of_isAtom U.data (Value.isAtom_of_applyPrefix hv))
  | infixOp l op r =>
    refine settleResult ((attempts J).bind (need (parts l (by simp [Node.parts]))) fun l _ => ?_)
    refine (attempts J).bind (need (parts r (by simp [Node.parts]))) fun r _ => ?_
    exact U.check fun v hv =>
      .inr (Value.every_of_isAtom U.data (Value.isAtom_of_applyInfix hv))
  | ifExpr c t e =>
    refine settleResult ((attempts J).bind (need (parts c List.mem_cons_self)) fun c _ => ?_)
    split
    · exact J.lift (parts (.block t) (by simp [Node.parts]))
    · cases e with
      | some ss => exact J.lift (parts (.block ss) (by simp [Node.parts]))
      | none => exact (attempts J).pure (.inr hnull)
  | fnLit ps b =>
    refine J.bind U.fresh fun i _ => J.pure (.inr ?_)
    exact .intro (functions ps b i rfl) (by simp)
  | macroLit ps b =>
    refine J.bind U.fresh fun i _ => J.pure (.inr ?_)
    exact .intro (macros ps b i rfl) (by simp)
  | call callee args =>
    have hcall := calls callee args rfl
    refine settleResult ?_
    split
    · next hq =>
      refine (attempts J).bind (J.lift (U.unbound "quote" sc)) fun unbound _ => ?_
      split
      · split
        · next arg => exact quotations arg (by rw [Node.isIdent_iff.1 hq])
        · exact U.reject _
      · exact hcall
    · exact hcall

/-! ## Calls -/

/-- What a builtin yields is made of its arguments. -/
theorem apply (b : Builtin) {args : List Value} (h : ∀ v ∈ args, v.Every shape)
    (prints : b = .puts → J.holds (putLines args) fun _ => True) :
    J.holds (b.apply args) (Value.Result shape) := by
  unfold Builtin.apply
  split
  · split
    · exact U.atom rfl
    · exact U.atom rfl
    · exact U.refuse _
  · exact J.bind (prints rfl) fun _ _ => U.atom rfl
  · split
    · next items =>
      have hitems := (Value.every_array.1 (h _ List.mem_cons_self)).2
      exact J.pure (.inr (Value.every_getD U.data fun v hv => hitems v (List.mem_of_head? hv)))
    · exact U.refuse _
  · split
    · next items =>
      have hitems := (Value.every_array.1 (h _ List.mem_cons_self)).2
      exact J.pure (.inr (Value.every_getD U.data fun v hv => hitems v (List.mem_of_getLast? hv)))
    · exact U.refuse _
  · split
    · exact U.atom rfl
    · next item items =>
      have hitems := (Value.every_array.1 (h _ List.mem_cons_self)).2
      exact U.newArray fun v hv => hitems v (List.mem_cons_of_mem _ hv)
    · exact U.refuse _
  · next item =>
    split
    · next items =>
      have hitems := (Value.every_array.1 (h _ List.mem_cons_self)).2
      have hitem := h item (by simp)
      refine U.newArray fun v hv => ?_
      rcases List.mem_append.1 hv with hv | hv
      · exact hitems v hv
      · rw [List.mem_singleton.1 hv]
        exact hitem
    · exact U.refuse _
  · exact U.refuse _

/-- The value of a call that neither runs a body nor prints is made of what it is given. -/
theorem call {callee : Value} {args : List Value} (h : ∀ v ∈ args, v.Every shape)
    (functions : ∀ i params body sc, callee = .function i params body sc →
      args.length = params.length → J.holds (callee.call args) (Value.Result shape))
    (prints : callee = .builtin .puts → J.holds (putLines args) fun _ => True) :
    J.holds (callee.call args) (Value.Result shape) := by
  cases callee with
  | function i params body sc =>
    by_cases hlength : args.length = params.length
    · exact functions i params body sc rfl hlength
    · rw [Value.call, if_neg hlength]
      exact U.refuse _
  | builtin b =>
    have happly : J.holds (b.apply args) (Value.Result shape) :=
      U.apply b h fun hb => prints (hb ▸ rfl)
    show J.holds (b.call args) _
    unfold Builtin.call
    split
    · split
      · exact happly
      · exact U.refuse _
    · exact happly
  | _ => exact U.refuse _

end QuietSteps

namespace Steps
variable {J : Judgement Computation} {shape : Value → Prop} (U : Steps J shape)
include U

theorem putLines : ∀ vs : List Value, J.holds (putLines vs) fun _ => True
  | [] => J.pure trivial
  | v :: vs => by
    rw [Monkey.putLines]
    split
    · exact J.bind (U.printLine _) fun _ _ => putLines vs
    · exact J.bind U.unwritable fun _ _ => putLines vs

/-- The value of a call that runs no body is made of what it is given. -/
theorem call {callee : Value} {args : List Value} (h : ∀ v ∈ args, v.Every shape)
    (functions : ∀ i params body sc, callee = .function i params body sc →
      args.length = params.length → J.holds (callee.call args) (Value.Result shape)) :
    J.holds (callee.call args) (Value.Result shape) :=
  U.toQuietSteps.call h functions fun _ => U.putLines args

end Steps

namespace Upkeep
variable {J : Judgement Computation} {shape : Value → Prop} {inner : Scope → Prop}
  (U : Upkeep J shape inner)
include U

/-- The value of a call is made of what the callee and the arguments hold, or comes out of a
scope that the call opens. -/
theorem call {callee : Value} {args : List Value} (h : ∀ v ∈ args, v.Every shape) :
    J.holds (callee.call args) (Value.Result shape) := by
  refine U.toSteps.call h ?_
  rintro i params body sc rfl hlength
  rw [Value.call, if_pos hlength]
  refine J.bind (U.opened sc _ (bindParams h)) fun sc' hsc => ?_
  exact J.bind (U.inside body sc' hsc) fun v hv => J.pure hv.unwrapped

theorem evalCall {sc : Scope} {callee : Node} {args : List Node}
    (h : ∀ m ∈ callee :: args, J.holds (eval m sc) (Value.Result shape)) :
    (attempts J).holds (evalCall callee args sc) (Value.Result shape) := by
  rw [evalCall_eq]
  refine (attempts J).bind (evalOperands h) fun p hp => J.lift (U.call ?_)
  exact fun v hv => hp v (List.mem_cons_of_mem _ hv)

/-- The rule of a tree yields a result when the parts of the tree do, and when the names,
markers, functions and quotations that it makes itself are in order. -/
theorem evalRule {n : Node} {sc : Scope}
    (parts : ∀ m ∈ n.parts, J.holds (eval m sc) (Value.Result shape))
    (names : ∀ name e v, n = .letStmt name e → v.Every shape →
      J.holds (modify (Store.define sc name v)) fun _ => True)
    (markers : ∀ e i v, n = .returnStmt e → v.Every shape → shape (.returned i v))
    (functions : ∀ ps b i, n = .fnLit ps b → shape (.function i ps (.block b) sc))
    (macros : ∀ ps b i, n = .macroLit ps b → shape (.macroFn i ps (.block b) sc))
    (quotations : ∀ arg, n = .call (.ident "quote") [arg] →
      (attempts J).holds (Monkey.evalQuote arg sc) (Value.Result shape)) :
    J.holds (Monkey.evalRule n sc) (Value.Result shape) := by
  refine U.toSteps.evalRule (U.found sc) parts ?_ ?_ names markers functions macros quotations
  · rintro ss rfl
    refine J.bind (U.opened sc [] (by simp)) fun sc' hsc => ?_
    exact U.evalStatements_null fun s _ => U.inside s sc' hsc
  · rintro callee args rfl
    exact U.evalCall parts

end Upkeep
end Monkey
