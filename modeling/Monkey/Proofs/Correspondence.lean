import Monkey.Proofs.Calls
import Monkey.Proofs.Pairing

/-!
# Evaluation in two surroundings

One walk through the rules of evaluation for two runs at a time. `Correspondence`
says that the steps an evaluation is made of go alike: handing out identities,
printing, reading and binding names, and opening scopes. Then every tree is
evaluated alike in scopes that admit it, by the same rule and in the same order, and
comes to values that look alike.

## Main definitions

* `Correspondence` — the steps of two runs go alike.

## Main results

* `Correspondence.evalRule` — the rule of a tree goes alike if evaluation one
  level down does.
* `Correspondence.call` — so does a call.
-/

namespace Monkey

open Monkey.Computation Monkey.Attempt

/-- Both values look alike. -/
abbrev Matching.Alike (M : Matching) : Value → Value → Prop := Value.Like M

/-- The steps of evaluation go alike in two runs. -/
structure Correspondence (P : Pairing Computation) : Prop where
  mint : ∀ M (f g : Identity → Value), M.Makes f g →
    P.holds M (fresh >>= fun i => pure (f i)) (fresh >>= fun j => pure (g j))
      fun M' v v' => v.Like M' v' ∧ ∃ i, v = f i
  found : ∀ M sc sc' name, M.admits sc sc' (.ident name) →
    P.holds M (reading (·.lookup name sc)) (reading (·.lookup name sc'))
      fun M' => Option.Rel M'.Alike
  defined : ∀ M sc sc' name e v v', M.admits sc sc' (.letStmt name e) → v.Like M v' →
    P.holds M (modify (Store.define sc name v)) (modify (Store.define sc' name v'))
      fun _ _ _ => True
  opened : ∀ M sc sc' ss, M.admits sc sc' (.block ss) →
    P.holds M (openScope sc []) (openScope sc' [])
      fun M' inner inner' => ∀ s ∈ ss, M'.admits inner inner' s
  entered : ∀ M sc sc' ps body args args', M.closes sc sc' ps body →
    Pointwise M.Alike args args' → args.length = ps.length →
    P.holds M (openScope sc (bindParams ps args)) (openScope sc' (bindParams ps args'))
      fun M' inner inner' => M'.admits inner inner' body
  printLine : ∀ M line, P.holds M (modify (Store.printLine line)) (modify (Store.printLine line))
    fun _ _ _ => True
  fails : ∀ {α : Type} M e (post : Matching → α → α → Prop), P.holds M (fail e) (fail e) post

namespace Pairing

/-- The pairing of attempts: both are given up with errors that look alike. -/
abbrev attempts (P : Pairing Computation) : Pairing Attempt :=
  P.except (fun M v v' => v.isError = true ∧ v.Like M v')
    fun _ _ _ _ hle h => ⟨h.1, h.2.mono hle⟩

variable {P : Pairing Computation} {M : Matching} {sc sc' : Scope}

/-- What is needed comes to values that look alike, or gives both attempts up. -/
theorem need {n : Node} (h : P.holds M (eval n sc) (eval n sc') Matching.Alike) :
    P.attempts.holds M (Attempt.need n sc) (Attempt.need n sc') Matching.Alike := by
  refine P.attempts.bind (P.lift (fun _ _ _ _ hle h => h.mono hle) h) fun M' v v' _ hv => ?_
  rw [← hv.isError_eq]
  cases he : v.isError with
  | true => exact P.throw ⟨he, hv⟩
  | false => exact P.attempts.pure fun _ hle => hv.mono hle

theorem needAll : ∀ {ns : List Node} {M : Matching},
    (∀ n ∈ ns, P.holds M (eval n sc) (eval n sc') Matching.Alike) →
    P.attempts.holds M (Attempt.needAll sc ns) (Attempt.needAll sc' ns)
      fun M' => Pointwise M'.Alike
  | [], _, _ => P.attempts.pure fun _ _ => .nil
  | n :: ns, _, h => by
    refine P.attempts.bind (need (h n List.mem_cons_self)) fun M' v v' hle hv => ?_
    have hrest := needAll fun n hn => P.up hle (h n (List.mem_cons_of_mem _ hn))
    refine P.attempts.bind hrest fun M'' vs vs' hle' hvs => ?_
    refine P.attempts.pure fun M₃ hle'' => ?_
    exact .cons ((hv.mono hle').mono hle'') (hvs.mono fun _ _ h => h.mono hle'')

theorem settle {x y : Attempt Value} (h : P.attempts.holds M x y Matching.Alike) :
    P.holds M (Attempt.settle x) (Attempt.settle y) Matching.Alike := by
  refine P.bind h fun M' r r' _ hr => ?_
  cases hr with
  | ok hv => exact P.pure fun _ hle => hv.mono hle
  | error he => exact P.pure fun _ hle => he.2.mono hle

theorem evalStatements : ∀ {ss : List Node} {otherwise otherwise' : Value} {M : Matching},
    otherwise.Like M otherwise' →
    (∀ s ∈ ss, P.holds M (eval s sc) (eval s sc') Matching.Alike) →
    P.holds M (Monkey.evalStatements sc otherwise ss) (Monkey.evalStatements sc' otherwise' ss)
      Matching.Alike
  | [], _, _, _, ho, _ => P.pure fun _ hle => ho.mono hle
  | s :: ss, _, _, _, _, hs => by
    refine P.bind (hs s List.mem_cons_self) fun M' v v' hle hv => ?_
    rw [← hv.stopsBlock_eq]
    split
    · exact P.pure fun _ hle => hv.mono hle
    · exact evalStatements hv fun s h => P.up hle (hs s (List.mem_cons_of_mem _ h))

end Pairing

namespace Correspondence
variable {P : Pairing Computation} (C : Correspondence P) {M : Matching} {sc sc' : Scope}
include C

/-- New values look alike if they are made alike. -/
theorem new {f g : Identity → Value} (h : M.Makes f g) :
    P.holds M (fresh >>= fun i => pure (f i)) (fresh >>= fun j => pure (g j)) Matching.Alike :=
  P.mono (C.mint M f g h) fun _ _ _ _ hv => hv.1

theorem newAttempt {f g : Identity → Value} (h : M.Makes f g) :
    P.attempts.holds M (liftM fresh >>= fun i => pure (f i)) (liftM fresh >>= fun j => pure (g j))
      Matching.Alike := by
  have hlift : ∀ f : Identity → Value, (liftM fresh >>= fun i => pure (f i) : Attempt Value) =
      liftM (fresh >>= fun i => pure (f i)) := by
    intro f
    simp only [liftM_bind, liftM_pure]
  rw [hlift f, hlift g]
  exact P.lift (fun _ _ _ _ hle h => h.mono hle) (C.new h)

theorem raise (fault : Fault) : P.holds M (Computation.raise fault) (Computation.raise fault)
    fun M' v v' => v.isError = true ∧ v.Like M' v' := by
  have hmakes : M.Makes (.error · fault) (.error · fault) :=
    ⟨fun _ => rfl, fun _ => rfl, fun _ _ => ⟨.error, .nil⟩, by simp⟩
  refine P.mono (C.mint M _ _ hmakes) fun M' v v' _ hv => ?_
  obtain ⟨hlike, i, rfl⟩ := hv
  exact ⟨rfl, hlike⟩

theorem refuse (fault : Fault) : P.holds M (Computation.raise fault) (Computation.raise fault)
    Matching.Alike :=
  P.mono (C.raise fault) fun _ _ _ _ h => h.2

theorem reject {α : Type} {post : Matching → α → α → Prop} (fault : Fault) :
    P.attempts.holds M (Attempt.reject fault) (Attempt.reject fault) post := by
  refine P.attempts.bind (P.lift ?_ (C.raise fault)) fun M' v v' _ hv => P.throw hv
  exact fun _ _ _ _ hle h => ⟨h.1, h.2.mono hle⟩

theorem check {α : Type} {r r' : Except Fault α} {post : Matching → α → α → Prop}
    (hpost : ∀ M M' a b, M ≤ M' → post M a b → post M' a b) (h : Both Eq (post M) r r') :
    P.attempts.holds M (Attempt.check r) (Attempt.check r') post := by
  cases h with
  | ok hab => exact P.attempts.pure fun M' hle => hpost M M' _ _ hle hab
  | error he =>
    subst he
    exact C.reject _

/-- A result that is the same in both runs. -/
theorem checkSame {r : Except Fault Value} (h : ∀ v, r = .ok v → v.isAtom = true) :
    P.attempts.holds M (Attempt.check r) (Attempt.check r) Matching.Alike := by
  refine C.check (fun _ _ _ _ hle h => h.mono hle) ?_
  cases r with
  | ok v => exact .ok (.of_isAtom (h v rfl))
  | error f => exact .error rfl

theorem newArray {items items' : List Value} (h : Pointwise M.Alike items items') :
    P.holds M (Monkey.newArray items) (Monkey.newArray items') Matching.Alike :=
  C.new ⟨fun _ => rfl, fun _ => rfl, fun _ _ => ⟨.array, h⟩, by simp⟩

omit C in
theorem atom {v : Value} (h : v.isAtom = true) : P.holds M (pure v) (pure v) Matching.Alike :=
  P.pure fun _ _ => .of_isAtom h

/-! ## Calls -/

theorem putLines : ∀ {vs vs' : List Value} {M : Matching}, Pointwise M.Alike vs vs' →
    P.holds M (Monkey.putLines vs) (Monkey.putLines vs') fun _ _ _ => True
  | _, _, _, .nil => P.pure fun _ _ => trivial
  | _, _, M, .cons hv hvs => by
    rw [Monkey.putLines, Monkey.putLines, hv.inspect?_eq]
    split
    · exact P.bind (C.printLine M _) fun _ _ _ hle _ => putLines (hvs.mono fun _ _ h => h.mono hle)
    -- a number that is too long breaks off both runs
    · exact P.bind (C.fails M _ _) fun _ _ _ hle (_ : True) =>
        putLines (hvs.mono fun _ _ h => h.mono hle)

/-- A builtin of one argument goes alike. -/
theorem applyOne {b : Builtin} (hb : b ≠ .puts) {v v' : Value} (hv : v.Like M v') :
    P.holds M (b.apply [v]) (b.apply [v']) Matching.Alike := by
  have hparts := hv.parts
  cases b with
  | puts => exact absurd rfl hb
  | push => exact C.refuse _
  | len =>
    cases hv.heads with
    | str => exact atom rfl
    | @array _ _ items items' =>
      show P.holds M (pure (Value.int items.length)) (pure (Value.int items'.length)) _
      have hitems : Pointwise M.Alike items items' := hparts
      rw [hitems.length_eq]
      exact atom rfl
    | _ => exact C.refuse _
  | first =>
    cases hv.heads with
    | @array _ _ items items' =>
      refine P.pure fun _ hle => Value.Like.mono (Value.Like.getD ?_) hle
      rw [List.head?_eq_getElem?, List.head?_eq_getElem?]
      exact hparts.getElem? 0
    | _ => exact C.refuse _
  | last =>
    cases hv.heads with
    | array => exact P.pure fun _ hle => Value.Like.mono (Value.Like.getD hparts.getLast?) hle
    | _ => exact C.refuse _
  | rest =>
    cases hv.heads with
    | @array _ _ items items' =>
      have hitems : Pointwise M.Alike items items' := hparts
      cases hitems with
      | nil => exact atom rfl
      | cons _ hrest => exact C.newArray hrest
    | _ => exact C.refuse _

/-- A builtin goes alike. -/
theorem apply (b : Builtin) {args args' : List Value} (h : Pointwise M.Alike args args') :
    P.holds M (b.apply args) (b.apply args') Matching.Alike := by
  by_cases hb : b = .puts
  · subst hb
    exact P.bind (C.putLines h) fun _ _ _ _ _ => atom rfl
  · cases h with
    | nil => cases b <;> first | exact absurd rfl hb | exact C.refuse _
    | cons hv hvs =>
      cases hvs with
      | nil => exact C.applyOne hb hv
      | cons hw hws =>
        cases hws with
        | nil =>
          cases b with
          | puts => exact absurd rfl hb
          | push =>
            have hparts := hv.parts
            cases hv.heads with
            | array => exact C.newArray (hparts.append (.cons hw .nil))
            | _ => exact C.refuse _
          | _ => exact C.refuse _
        | @cons a a' as as' _ has =>
          have hlength := has.length_eq
          cases b <;> first
            | exact absurd rfl hb
            | (simp only [Builtin.apply, List.length_cons, hlength]; exact C.refuse _)

/-- A call goes alike, if bodies do in scopes that admit them. -/
theorem call {callee callee' : Value} {args args' : List Value} (hcallee : callee.Like M callee')
    (hargs : Pointwise M.Alike args args')
    (bodies : ∀ M' inner inner' body, M'.admits inner inner' body →
      P.holds M' (eval body inner) (eval body inner') Matching.Alike) :
    P.holds M (callee.call args) (callee'.call args') Matching.Alike := by
  have hlength := hargs.length_eq
  cases hcallee.heads with
  | @function _ _ params body sc sc' hcloses =>
    rw [Value.call, Value.call, hlength]
    split
    · next hparams =>
      have hentered := C.entered M sc sc' params body args args' hcloses hargs hparams
      refine P.bind hentered fun M' inner inner' _ hinner => ?_
      refine P.bind (bodies M' inner inner' body hinner) fun _ v v' _ hv => ?_
      exact P.pure fun _ hle => hv.unwrapped.mono hle
    · exact C.refuse _
  | @builtin b =>
    show P.holds M (b.call args) (b.call args') _
    unfold Builtin.call
    rw [hlength]
    split
    · split
      · exact C.apply b hargs
      · exact C.refuse _
    · exact C.apply b hargs
  | _ => exact C.refuse _

/-! ## The rules of evaluation -/

theorem evalName {name : String} (h : M.admits sc sc' (.ident name)) :
    P.holds M (Monkey.evalName name sc) (Monkey.evalName name sc') Matching.Alike := by
  refine P.bind (C.found M sc sc' name h) fun M' r r' _ hr => ?_
  cases hr with
  | some hv => exact P.pure fun _ hle => hv.mono hle
  | none =>
    dsimp only
    split
    · exact atom rfl
    · exact C.refuse _

theorem isUnbound {name : String} (h : M.admits sc sc' (.ident name)) :
    P.holds M (Monkey.isUnbound name sc) (Monkey.isUnbound name sc') fun _ b b' => b = b' := by
  have hread : ∀ sc, Monkey.isUnbound name sc =
      reading (·.lookup name sc) >>= fun r => pure r.isNone := fun _ => rfl
  rw [hread, hread]
  refine P.bind (C.found M sc sc' name h) fun M' r r' _ hr => P.pure fun _ _ => ?_
  cases hr <;> rfl

theorem evalEntries : ∀ {ps : List (Node × Node)} {M : Matching} {entries entries' : Table Key Value},
    Table.Alike M.Alike entries entries' →
    (∀ n ∈ (Node.hash ps).operands, P.holds M (eval n sc) (eval n sc') Matching.Alike) →
    P.attempts.holds M (Monkey.evalEntries sc entries ps) (Monkey.evalEntries sc' entries' ps)
      fun M' => Table.Alike M'.Alike
  | [], _, _, _, he, _ =>
    P.attempts.pure fun _ hle => he.mono fun _ _ h => ⟨h.1, h.2.mono hle⟩
  | (k, v) :: ps, M, entries, entries', he, hp => by
    simp only [Node.operands, List.flatMap_cons, List.mem_append, List.mem_cons,
      List.not_mem_nil, or_false] at hp
    refine P.attempts.bind (Pairing.need (hp k (.inl (.inl rfl)))) fun M₁ w w' hle₁ hw => ?_
    have hkey : P.attempts.holds M₁ (Attempt.check w.key?) (Attempt.check w'.key?)
        fun _ key key' => key = key' := by
      refine C.check (fun _ _ _ _ _ => id) ?_
      rw [← hw.key?_eq]
      cases w.key? with
      | ok key => exact .ok rfl
      | error f => exact .error rfl
    refine P.attempts.bind hkey fun M₂ key key' hle₂ heq => ?_
    subst heq
    have hle : M ≤ M₂ := Matching.le_trans hle₁ hle₂
    refine P.attempts.bind (Pairing.need (P.up hle (hp v (.inl (.inr rfl))))) ?_
    intro M₃ u u' hle₃ hu
    have hentries : Table.Alike M₃.Alike entries entries' :=
      he.mono fun _ _ h => ⟨h.1, (h.2.mono hle).mono hle₃⟩
    refine evalEntries (hentries.insert key hu) fun n hn => ?_
    exact P.up hle₃ (P.up hle (hp n (.inr hn)))

/-- A quotation goes alike. -/
theorem evalQuote {arg : Node} (h : M.admits sc sc' (.call (.ident "quote") [arg]))
    (replies : ∀ M' n, M'.admits sc sc' n → P.holds M' (eval n sc) (eval n sc') Matching.Alike) :
    P.attempts.holds M (Monkey.evalQuote arg sc) (Monkey.evalQuote arg sc') Matching.Alike := by
  have hstep : ∀ M' n, M ≤ M' → (∀ e, n = .call (.ident "unquote") [e] → M.admits sc sc' e) →
      P.attempts.holds M' (unquoteStep sc n) (unquoteStep sc' n)
        fun _ a b => a = b ∧ Node.Unquotes M.quoted n a := by
    intro M' n hle hn
    unfold unquoteStep
    split
    · next e =>
      have he := replies M' e (hle.admits sc sc' e (hn e rfl))
      refine P.attempts.bind (Pairing.need he) fun M'' v v' hle' hv => ?_
      refine C.check (fun _ _ _ _ _ => id) ?_
      rw [← hv.toNode_eq]
      cases hnode : v.toNode with
      | error f => exact .error rfl
      | ok a =>
        refine .ok ⟨rfl, .splice ?_ hnode⟩
        exact hv.quotes.imp fun u hu i n hn => ((Matching.le_trans hle hle').quoted n).2 (hu i n hn)
    · next hother => exact P.attempts.pure fun _ _ => ⟨rfl, .stays fun e he => hother e he⟩
  have hasks := M.quotations sc sc' arg h
  unfold Monkey.evalQuote
  rw [← Dialogue.lead_rebuildM_question (unquoteStep sc),
    ← Dialogue.lead_rebuildM_question (unquoteStep sc')]
  refine P.attempts.bind (P.attempts.lead hstep hasks) fun M' r r' hle hr => ?_
  obtain ⟨rfl, hquoted⟩ := hr
  cases r with
  | ok n =>
    have hmakes : M'.Makes (.quote · n) (.quote · n) :=
      ⟨fun _ => rfl, fun _ => rfl, fun _ _ => ⟨.quote ((hle.quoted n).1 hquoted), .nil⟩, by simp⟩
    exact P.lift (fun _ _ _ _ hle h => h.mono hle) (C.new hmakes)
  | error e => exact P.lift (fun _ _ _ _ hle h => h.mono hle) (C.fails M' _ _)

/-- The rule of a tree goes alike in scopes that admit it, if evaluation one level down does. -/
theorem evalRule {n : Node} (h : M.admits sc sc' n)
    (ih : ∀ M' sc sc' m, M'.admits sc sc' m →
      P.holds M' (eval m sc) (eval m sc') Matching.Alike) :
    P.holds M (Monkey.evalRule n sc) (Monkey.evalRule n sc') Matching.Alike := by
  have hparts : ∀ m ∈ n.parts, P.holds M (eval m sc) (eval m sc') Matching.Alike :=
    fun m hm => ih M sc sc' m (M.parts sc sc' n h m hm)
  cases n with
  | program ss =>
    refine P.bind (Pairing.evalStatements (.of_isAtom rfl) hparts) fun M' v v' _ hv => ?_
    exact P.pure fun _ hle => hv.unwrapped.mono hle
  | block ss =>
    refine P.bind (C.opened M sc sc' ss h) fun M' inner inner' _ hinner => ?_
    exact Pairing.evalStatements (.of_isAtom rfl) fun s hs => ih M' inner inner' s (hinner s hs)
  | exprStmt e => exact hparts e List.mem_cons_self
  | letStmt name e =>
    refine Pairing.settle (P.attempts.bind (Pairing.need (hparts e List.mem_cons_self)) ?_)
    intro M' v v' hle hv
    have hdefined := C.defined M' sc sc' name e v v' (hle.admits _ _ _ h) hv
    refine P.attempts.bind (P.lift (fun _ _ _ _ _ => id) hdefined) fun _ _ _ _ _ => ?_
    exact P.attempts.pure fun _ _ => .of_isAtom rfl
  | returnStmt e =>
    refine Pairing.settle (P.attempts.bind (Pairing.need (hparts e List.mem_cons_self)) ?_)
    refine fun M' v v' hle hv => C.newAttempt ⟨fun _ => rfl, fun _ => rfl, fun i j => ?_, ?_⟩
    · exact ⟨.returned, .cons hv .nil⟩
    · exact fun _ _ _ => ⟨sc, sc', e, hle.admits _ _ _ h⟩
  | ident name => exact C.evalName h
  | int n => exact atom rfl
  | str s => exact atom rfl
  | bool b => exact atom rfl
  | array es =>
    refine Pairing.settle (P.attempts.bind (Pairing.needAll hparts) fun M' vs vs' _ hvs => ?_)
    exact P.lift (fun _ _ _ _ hle h => h.mono hle) (C.newArray hvs)
  | hash ps =>
    refine Pairing.settle (P.attempts.bind (C.evalEntries .nil hparts) fun M' es es' _ hes => ?_)
    have hmakes : M'.Makes (.hash · es) (.hash · es') :=
      ⟨fun _ => rfl, fun _ => rfl, fun _ _ => Value.Like.hash_iff.2 hes, by simp⟩
    exact C.newAttempt hmakes
  | index l i =>
    have hl := Pairing.need (hparts l (by simp [Node.parts]))
    refine Pairing.settle (P.attempts.bind hl fun M₁ v v' hle₁ hv => ?_)
    have hi := Pairing.need (P.up hle₁ (hparts i (by simp [Node.parts])))
    refine P.attempts.bind hi fun M₂ w w' hle₂ hw => ?_
    exact C.check (fun _ _ _ _ hle h => h.mono hle) ((hv.mono hle₂).applyIndex hw)
  | prefixOp op r =>
    refine Pairing.settle (P.attempts.bind (Pairing.need (hparts r List.mem_cons_self)) ?_)
    intro M' v v' _ hv
    rw [hv.applyPrefix_eq]
    exact C.checkSame fun u hu => Value.isAtom_of_applyPrefix hu
  | infixOp l op r =>
    have hl := Pairing.need (hparts l (by simp [Node.parts]))
    refine Pairing.settle (P.attempts.bind hl fun M₁ v v' hle₁ hv => ?_)
    have hr := Pairing.need (P.up hle₁ (hparts r (by simp [Node.parts])))
    refine P.attempts.bind hr fun M₂ w w' hle₂ hw => ?_
    rw [(hv.mono hle₂).applyInfix_eq hw]
    exact C.checkSame fun u hu => Value.isAtom_of_applyInfix hu
  | ifExpr c t e =>
    refine Pairing.settle (P.attempts.bind (Pairing.need (hparts c List.mem_cons_self)) ?_)
    intro M' v v' hle hv
    rw [← hv.isTruthy_eq]
    split
    · have ht := P.up hle (hparts (.block t) (by simp [Node.parts]))
      exact P.lift (fun _ _ _ _ hle h => h.mono hle) ht
    · cases e with
      | some ss =>
        have he := P.up hle (hparts (.block ss) (by simp [Node.parts]))
        exact P.lift (fun _ _ _ _ hle h => h.mono hle) he
      | none => exact P.attempts.pure fun _ _ => .of_isAtom rfl
  | fnLit ps b =>
    have hcloses := M.functions sc sc' ps b (.inl h)
    exact C.new ⟨fun _ => rfl, fun _ => rfl, fun _ _ => ⟨.function hcloses, .nil⟩, by simp⟩
  | macroLit ps b =>
    have hcloses := M.functions sc sc' ps b (.inr h)
    exact C.new ⟨fun _ => rfl, fun _ => rfl, fun _ _ => ⟨.macroFn hcloses, .nil⟩, by simp⟩
  | call callee args =>
    have hcall : ∀ M', M ≤ M' → P.attempts.holds M' (evalCall callee args sc)
        (evalCall callee args sc') Matching.Alike := by
      intro M' hle
      have hf := Pairing.need (P.up hle (hparts callee List.mem_cons_self))
      refine P.attempts.bind hf fun M₁ f f' hle₁ hf => ?_
      have hargs := Pairing.needAll fun m hm =>
        P.up hle₁ (P.up hle (hparts m (List.mem_cons_of_mem _ hm)))
      refine P.attempts.bind hargs fun M₂ vs vs' hle₂ hvs => ?_
      refine P.lift (fun _ _ _ _ hle h => h.mono hle) (C.call (hf.mono hle₂) hvs ?_)
      exact fun M₃ inner inner' body => ih M₃ inner inner' body
    refine Pairing.settle ?_
    split
    · next hq =>
      obtain rfl := Node.isIdent_iff.1 hq
      have hname : M.admits sc sc' (.ident "quote") := M.parts sc sc' _ h _ List.mem_cons_self
      rw [evalQuoteCall_eq, evalQuoteCall_eq]
      refine P.attempts.bind (P.lift (fun _ _ _ _ _ => id) (C.isUnbound hname)) ?_
      intro M' b b' hle hb
      subst hb
      split
      · unfold evalQuotation
        split
        · exact C.evalQuote (hle.admits _ _ _ h) fun M'' n => ih M'' sc sc' n
        · exact C.reject _
      · exact hcall M' hle
    · exact hcall M M.le_refl

end Correspondence
end Monkey
