import Monkey.Macros
import Monkey.Proofs.Calls
import Monkey.Proofs.Rebuilding

/-!
# Template macros

The common macro is a template: its body is one quotation, in which parameters are
unquoted and nothing else is. Its calls are replaced by the template with the
arguments in the places of the parameters, all at once and as they are; nothing
is evaluated but the parameters, and what is put in is not looked at again.

## Main definitions

* `Node.substitute` — a template with trees put in.

## Main results

* `outcome_rebuild_template` — rebuilding a template puts the arguments in.
* `outcome_expandCall_template` — what a call of a template macro expands to.
-/

namespace Monkey

open Monkey.Computation Monkey.Attempt

namespace Node

/-- The name that a call with this callee and these arguments unquotes, if it unquotes a name. -/
def unquotedName? : Node → List Node → Option String
  | ident "unquote", [ident name] => some name
  | _, _ => none

section
variable (trees : Table String Node)

mutual

/-- A template with the trees of a table put in the places where their names are unquoted. -/
def substitute : Node → Node
  | program ss => program (substituteAll ss)
  | letStmt name e => letStmt name e.substitute
  | returnStmt e => returnStmt e.substitute
  | exprStmt e => exprStmt e.substitute
  | block ss => block (substituteAll ss)
  | ident name => ident name
  | int n => int n
  | str s => str s
  | bool b => bool b
  | array es => array (substituteAll es)
  | hash ps => hash (substitutePairs ps)
  | index l i => index l.substitute i.substitute
  | prefixOp op r => prefixOp op r.substitute
  | infixOp l op r => infixOp l.substitute op r.substitute
  | ifExpr c t e => ifExpr c.substitute (substituteAll t) (substituteElse e)
  | fnLit ps body => fnLit ps (substituteAll body)
  | call callee args =>
    match unquotedName? callee args with
    | some name => (trees.find? name).getD (call callee args)
    | none => call callee.substitute (substituteAll args)
  | macroLit ps body => macroLit ps (substituteAll body)
termination_by structural n => n

/-- The trees of a list with trees put in. -/
def substituteAll : List Node → List Node
  | [] => []
  | n :: ns => n.substitute :: substituteAll ns
termination_by structural ns => ns

/-- Keys and values with trees put in. -/
def substitutePairs : List (Node × Node) → List (Node × Node)
  | [] => []
  | (k, v) :: ps => (k.substitute, v.substitute) :: substitutePairs ps
termination_by structural ps => ps

/-- The branch after `else` with trees put in. -/
def substituteElse : Option (List Node) → Option (List Node)
  | none => none
  | some ss => some (substituteAll ss)
termination_by structural e => e

end

theorem substituteAll_eq (ns : List Node) :
    substituteAll trees ns = ns.map (substitute trees) := by
  induction ns with
  | nil => rfl
  | cons n ns ih => rw [substituteAll, ih, List.map_cons]

theorem substitutePairs_eq (ps : List (Node × Node)) :
    substitutePairs trees ps = ps.map fun p => (p.1.substitute trees, p.2.substitute trees) := by
  induction ps with
  | nil => rfl
  | cons p ps ih =>
    obtain ⟨k, v⟩ := p
    rw [substitutePairs, ih, List.map_cons]

variable {trees}

theorem unquotedName?_eq_some {callee : Node} {args : List Node} {name : String} :
    unquotedName? callee args = some name ↔ callee = ident "unquote" ∧ args = [ident name] := by
  constructor
  · intro h
    unfold unquotedName? at h
    split at h
    · obtain rfl := Option.some.inj h
      exact ⟨rfl, rfl⟩
    · cases h
  · rintro ⟨rfl, rfl⟩
    rfl

theorem asSpliced_of_isExpression {e : Node} (h : e.isExpression = true) : e.asSpliced = .ok e := by
  unfold asSpliced
  split
  · cases h
  · rw [if_pos h]

/-- Trees that are put in are expressions, and so are the trees in whose places they stand. -/
theorem isExpression_substitute
    (htrees : ∀ name e, trees.find? name = some e → e.isExpression = true)
    {n : Node} (h : n.isExpression = true) : (n.substitute trees).isExpression = true := by
  cases n with
  | call callee args =>
    rw [substitute]
    split
    · next name hname =>
      cases he : trees.find? name with
      | none => rfl
      | some e => exact htrees name e he
    · rfl
  | _ => first | rfl | exact h

theorem isStatement_substitute {n : Node} (h : n.isStatement = true) :
    (n.substitute trees).isStatement = true := by
  cases n with
  | letStmt | returnStmt | exprStmt | block => rfl
  | _ => cases h

end

/-! ## Rebuilding a template -/

/-- In a template, nothing but names of a list is unquoted. -/
structure IsTemplate (names : List String) (n : Node) : Prop where
  wellSorted : n.WellSorted
  unquoted : ∀ t ∈ n.subtrees, ∀ arg, t = call (ident "unquote") [arg] →
    ∃ name ∈ names, arg = ident name

theorem IsTemplate.of_mem_children {names : List String} {n c : Node} (h : n.IsTemplate names)
    (hc : c ∈ n.children) : c.IsTemplate names := by
  obtain ⟨_, _, below⟩ := h.wellSorted
  exact ⟨below c hc, fun t ht => h.unquoted t (mem_subtrees.2 (.inr ⟨c, hc, ht⟩))⟩

end Node

/-- The computation changes nothing in the store and answers as stated. -/
def Judgement.steady (rule : Rule) (depth : Nat) (st : Store) : Judgement Computation where
  holds x post := ∃ a, x.outcome rule depth st = ⟨.ok a, st⟩ ∧ post a
  pure h := ⟨_, rfl, h⟩
  bind := by
    rintro α β x f mid post ⟨a, hx, ha⟩ hf
    obtain ⟨b, hb, hpost⟩ := hf a ha
    refine ⟨b, ?_, hpost⟩
    rw [Computation.outcome_bind, hx]
    exact hb
  mono := by
    rintro α x mid post ⟨a, hx, ha⟩ h
    exact ⟨a, hx, h a ha⟩

/-- In a scope, names mean the trees of a table, as quoted values; the trees are expressions
and can take the place of a callee without making a call one of `unquote`. -/
structure Store.Quotes (st : Store) (sc : Scope) (names : List String) (trees : Table String Node) :
    Prop where
  bound : ∀ name ∈ names, ∃ i e, trees.find? name = some e ∧ st.lookup name sc = some (.quote i e)
  expression : ∀ name e, trees.find? name = some e → e.isExpression = true
  callee : ∀ name, trees.find? name ≠ some (.ident "unquote")

section
variable {depth : Nat} {st : Store} {sc : Scope} {names : List String} {trees : Table String Node}
  (hq : st.Quotes sc names trees)
include hq

/-- Where names are bound to quoted trees, unquoting such a name answers its tree. -/
theorem unquoteStep_name {name : String} (hname : name ∈ names) :
    ((Judgement.steady evalRule (depth + 1) st).except fun _ => False).holds
      (unquoteStep sc (.call (.ident "unquote") [.ident name]))
      fun n => trees.find? name = some n := by
  obtain ⟨i, e, he, hlookup⟩ := hq.bound name hname
  have hspliced : e.asSpliced = .ok e := Node.asSpliced_of_isExpression (hq.expression name e he)
  have heval :
      (eval (.ident name) sc).outcome evalRule (depth + 1) st = ⟨.ok (.quote i e), st⟩ := by
    rw [outcome_eval_succ]
    show (evalName name sc).outcome evalRule depth st = _
    rw [evalName, Computation.outcome_bind, outcome_reading, hlookup]
    rfl
  have hneed : (need (.ident name) sc).run.outcome evalRule (depth + 1) st =
      ⟨.ok (.ok (.quote i e)), st⟩ := by
    rw [outcome_need, ← outcome_eval, heval]
    rfl
  refine ⟨.ok e, ?_, he⟩
  show (need (.ident name) sc >>= fun v => check v.toNode).run.outcome evalRule _ st = _
  rw [Attempt.outcome_bind, hneed]
  show (check e.asSpliced).run.outcome evalRule _ st = _
  rw [hspliced]
  rfl

/-- A callee that is replaced does not become the name `unquote`. -/
theorem substitute_ne_unquote {n : Node} (h : n ≠ .ident "unquote") :
    n.substitute trees ≠ .ident "unquote" := by
  cases n with
  | ident name => exact h
  | call callee args =>
    rw [Node.substitute]
    split
    · next name hname =>
      cases he : trees.find? name with
      | none => exact fun heq => by cases heq
      | some e => exact fun heq => hq.callee name (by rw [he]; exact congrArg some heq)
    · exact fun heq => by cases heq
  | _ => exact fun heq => by cases heq

/-- A call in a template that unquotes no name stays a call. -/
theorem unquoteStep_plain {callee : Node} {args : List Node}
    (hn : (Node.call callee args).IsTemplate names)
    (hname : Node.unquotedName? callee args = none) :
    unquoteStep sc (.call (callee.substitute trees) (Node.substituteAll trees args)) =
      pure (.call (callee.substitute trees) (Node.substituteAll trees args)) := by
  unfold unquoteStep
  split
  · next arg heq =>
    -- Then the call in the template is one of `unquote` as well, and unquotes a name.
    exfalso
    obtain ⟨hcallee, hargs⟩ := Node.call.inj heq
    have hunquote : callee = .ident "unquote" := by
      by_cases h : callee = .ident "unquote"
      · exact h
      · exact absurd hcallee (substitute_ne_unquote hq h)
    rw [Node.substituteAll_eq] at hargs
    obtain ⟨a, rfl, _⟩ := List.map_eq_singleton_iff.1 hargs
    subst hunquote
    obtain ⟨name, _, rfl⟩ := hn.unquoted _ (Node.self_mem_subtrees _) a rfl
    cases hname
  · rfl

/-- What is handed in for a template answers the template with the trees put in. -/
theorem unquoteStep_template {n n' : Node} (hn : n.IsTemplate names)
    (h : n.Lifts (fun n n' => n' = n.substitute trees) n') :
    ((Judgement.steady evalRule (depth + 1) st).except fun _ => False).holds (unquoteStep sc n')
      fun answer => answer = n.substitute trees := by
  have hlist : ∀ {sort : Node → Bool} {ns ns' : List Node},
      Pointwise (Node.Placed sort fun n n' => n' = n.substitute trees) ns ns' →
      ns' = Node.substituteAll trees ns := by
    intro sort ns ns' h
    rw [Node.substituteAll_eq]
    exact h.eq_map fun _ _ hp => hp.2
  have hbody : ∀ {ss ss' : List Node}, Node.block ss' = (Node.block ss).substitute trees →
      ss' = Node.substituteAll trees ss := fun h => Node.block.inj h
  cases h with
  | program hs | block hs | array hs =>
    refine Judgement.pure _ ?_
    rw [hlist hs]
    rfl
  | letStmt he | returnStmt he | exprStmt he | prefixOp he =>
    refine Judgement.pure _ ?_
    rw [he.2]
    rfl
  | ident | int | str | bool => exact Judgement.pure _ rfl
  | hash hps =>
    refine Judgement.pure _ ?_
    rw [Node.substitute, Node.substitutePairs_eq]
    exact congrArg Node.hash (hps.eq_map fun p p' hp => Prod.ext hp.1.2 hp.2.2)
  | index hl hi | infixOp hl hi =>
    refine Judgement.pure _ ?_
    rw [hl.2, hi.2]
    rfl
  | ifExpr hc ht he =>
    refine Judgement.pure _ ?_
    rw [hc.2, hbody ht]
    cases he with
    | none => rfl
    | some he =>
      rw [hbody he]
      rfl
  | fnLit hb | macroLit hb =>
    refine Judgement.pure _ ?_
    rw [hbody hb]
    rfl
  | call hf hargs =>
    rename_i callee callee' args args'
    obtain ⟨_, rfl⟩ := hf
    obtain rfl := hlist hargs
    cases hname : Node.unquotedName? callee args with
    | some name =>
      obtain ⟨rfl, rfl⟩ := Node.unquotedName?_eq_some.1 hname
      obtain ⟨name', hmem, heq⟩ := hn.unquoted _ (Node.self_mem_subtrees _) _ rfl
      obtain rfl := Node.ident.inj heq
      refine Judgement.mono _ (unquoteStep_name hq hmem) fun e he => ?_
      rw [Node.substitute, hname]
      simp only [he, Option.getD_some]
    | none =>
      rw [unquoteStep_plain hq hn hname]
      refine Judgement.pure _ ?_
      rw [Node.substitute, hname]

/-- Rebuilding a template puts the trees in, and changes nothing in the store. -/
theorem outcome_rebuild_template {n : Node} (hn : n.IsTemplate names) :
    (n.rebuildM (unquoteStep sc)).run.run.outcome evalRule (depth + 1) st =
      ⟨.ok (.ok (.ok (n.substitute trees))), st⟩ := by
  have hrewriting : ((Judgement.steady evalRule (depth + 1) st).except fun _ => False).Rewriting
      (unquoteStep sc) (Node.IsTemplate names) (fun n n' => n' = n.substitute trees)
      fun _ => False := {
    below := fun n hn c hc => hn.of_mem_children hc
    answers := fun n n' hn h => unquoteStep_template hq hn h
    expression := by
      rintro n hn e he e' rfl
      have hsort := ((Node.wellSorted_iff.1 hn.wellSorted).operands e he).1
      exact .inl (Node.isExpression_substitute hq.expression hsort)
    statement := by
      rintro n hn s hs s' rfl
      have hsort := ((Node.wellSorted_iff.1 hn.wellSorted).listed s hs).1
      exact .inl (Node.isStatement_substitute hsort)
    block := by
      rintro ss _ n rfl
      exact .inl rfl }
  obtain ⟨r, hr, hpost⟩ := Judgement.rebuild hrewriting n hn
  rcases r with v | (e | n')
  · exact absurd hpost id
  · exact absurd hpost id
  · rw [← (hpost : n' = n.substitute trees)]
    exact hr

/-- Quoting a template makes a quotation of it with the trees put in, and changes only which
identities are left. -/
theorem outcome_quote_template {n : Node} (hn : n.IsTemplate names)
    (hquote : st.lookup "quote" sc = none) :
    (evalRule (.call (.ident "quote") [n]) sc).outcome evalRule (depth + 1) st =
      ⟨.ok (.quote st.nextIdentity (n.substitute trees)), st.freshIdentity.2⟩ := by
  have hrun : (evalQuote n sc).run.outcome evalRule (depth + 1) st =
      ⟨.ok (.ok (.quote st.nextIdentity (n.substitute trees))), st.freshIdentity.2⟩ := by
    rw [evalQuote, Attempt.outcome_bind, outcome_rebuild_template hq hn]
    rfl
  show (evalRule (.call (.ident "quote") [n]) sc st).resolve _ = _
  rw [evalRule_quote hquote]
  show (settle (evalQuote n sc)).outcome evalRule (depth + 1) st = _
  rw [outcome_settle, hrun]

end

/-! ## The call of a template macro -/

/-- What follows a computation that comes to an answer goes on with the answer. -/
theorem outcome_lift_bind {ε α β : Type} {x : Computation α} {rule : Rule} {depth : Nat}
    {st st' : Store} {a : α} (h : x.outcome rule depth st = ⟨.ok a, st'⟩)
    (f : α → ExceptT ε Computation β) :
    ((liftM x : ExceptT ε Computation α) >>= f).run.outcome rule depth st =
      (f a).run.outcome rule depth st' := by
  have hlift : (liftM x : ExceptT ε Computation α).run.outcome rule depth st =
      ⟨.ok (.ok a), st'⟩ := by
    show (x >>= fun a => pure (Except.ok a)).outcome rule depth st = _
    rw [Computation.outcome_bind, h]
    rfl
  rw [ExceptT.run_bind, Computation.outcome_bind, hlift]

/-- Quoting trees makes values, and changes only which identities are left. -/
theorem outcome_quoteAll (depth : Nat) : ∀ (ns : List Node) (st : Store),
    ∃ qs, (quoteAll ns).outcome evalRule depth st =
        ⟨.ok qs, { st with nextIdentity := st.nextIdentity + ns.length }⟩ ∧
      Pointwise (fun n q => ∃ i, q = .quote i n) ns qs
  | [], st => ⟨[], rfl, .nil⟩
  | n :: ns, st => by
    obtain ⟨qs, hqs, hpoint⟩ := outcome_quoteAll depth ns st.freshIdentity.2
    refine ⟨.quote st.nextIdentity n :: qs, ?_, .cons ⟨_, rfl⟩ hpoint⟩
    have hfirst : (newQuote n).outcome evalRule depth st =
        ⟨.ok (.quote st.nextIdentity n), st.freshIdentity.2⟩ := rfl
    have hcount : st.freshIdentity.2.nextIdentity + ns.length =
        st.nextIdentity + (n :: ns).length := Nat.add_right_comm st.nextIdentity 1 ns.length
    rw [quoteAll, Computation.outcome_bind, hfirst]
    simp only [Computation.outcome_bind, hqs, hcount]
    rfl

/-- Parameters with different names are bound to their arguments, in order. -/
theorem bindParams_eq {params : List String} {qs : List Value} (hlen : qs.length = params.length)
    (hnodup : params.Nodup) : bindParams params qs = params.zip qs := by
  have hkeys : Table.keys (params.zip qs) = params := List.map_fst_zip (by omega)
  have hall := Table.insertAll_of_nodup (t := []) (hkeys ▸ hnodup) fun _ _ h => by cases h
  exact hall

/-- A parameter means its argument, as a quoted tree. -/
theorem find?_zip {params : List String} {args : List Node} {qs : List Value}
    (hqs : Pointwise (fun n q => ∃ i, q = .quote i n) args qs)
    (hlen : args.length = params.length) {name : String} (hname : name ∈ params) :
    ∃ i e, Table.find? name (params.zip args) = some e ∧
      Table.find? name (params.zip qs) = some (.quote i e) := by
  induction hqs generalizing params with
  | nil =>
    obtain rfl := List.length_eq_zero_iff.1 hlen.symm
    cases hname
  | @cons e q args qs hq _ ih =>
    cases params with
    | nil => cases hname
    | cons p params =>
      obtain ⟨i, rfl⟩ := hq
      by_cases hp : p = name
      · exact ⟨i, e, by simp [Table.find?, hp], by simp [Table.find?, hp]⟩
      · have hmem : name ∈ params := (List.mem_cons.1 hname).resolve_left fun h => hp h.symm
        obtain ⟨j, e', he', hq'⟩ := ih (by simpa using hlen) hmem
        exact ⟨j, e', by simpa [Table.find?, hp] using he', by simpa [Table.find?, hp] using hq'⟩

/-- A block of one expression statement comes to what the expression comes to in a new scope. -/
theorem outcome_block_exprStmt (e : Node) (sc : Scope) (depth : Nat) (st : Store) :
    (evalRule (.block [.exprStmt e]) sc).outcome evalRule (depth + 2) st =
      (evalRule e ⟨st.frames.size⟩).outcome evalRule depth (st.child sc []).2 := by
  have hopen : (openScope sc []).outcome evalRule (depth + 2) st =
      ⟨.ok ⟨st.frames.size⟩, (st.child sc []).2⟩ := rfl
  have hstmt :
      (eval (.exprStmt e) ⟨st.frames.size⟩).outcome evalRule (depth + 2) (st.child sc []).2 =
      (evalRule e ⟨st.frames.size⟩).outcome evalRule depth (st.child sc []).2 := by
    rw [outcome_eval_succ]
    show (eval e ⟨st.frames.size⟩).outcome evalRule (depth + 1) _ = _
    rw [outcome_eval_succ]
  show (openScope sc [] >>= fun inner => evalStatements inner .null [.exprStmt e]).outcome _ _ _ = _
  rw [Computation.outcome_bind, hopen]
  show (eval (.exprStmt e) ⟨st.frames.size⟩ >>= fun v =>
    if v.stopsBlock then pure v else pure v).outcome evalRule _ _ = _
  rw [Computation.outcome_bind, hstmt]
  generalize (evalRule e ⟨st.frames.size⟩).outcome evalRule depth _ = o
  obtain ⟨result, st'⟩ := o
  cases result with
  | error f => rfl
  | ok v =>
    dsimp only
    rw [ite_self]
    rfl

/-- Arguments that are expressions, bound to different parameters, are quoted in the scope of a
macro's body. -/
theorem quotes_params {params : List String} {args : List Node} {qs : List Value} {st : Store}
    (parent : Scope) (hlen : args.length = params.length) (hnodup : params.Nodup)
    (hargs : ∀ a ∈ args, a.isExpression = true ∧ a ≠ .ident "unquote")
    (hqs : Pointwise (fun n q => ∃ i, q = .quote i n) args qs) :
    let call := (st.child parent (bindParams params qs)).2
    (call.child ⟨st.frames.size⟩ []).2.Quotes ⟨call.frames.size⟩ params (params.zip args) := by
  intro call
  have hmem : ∀ name e, Table.find? name (params.zip args) = some e → e ∈ args :=
    fun name e he => (List.of_mem_zip (Table.mem_of_find? he)).2
  constructor
  · intro name hname
    obtain ⟨i, e, he, hq⟩ := find?_zip hqs hlen hname
    refine ⟨i, e, he, ?_⟩
    have hlen' : qs.length = params.length := by rw [hqs.length_eq, hlen]
    rw [Store.lookup_child, Store.lookup_child, bindParams_eq hlen' hnodup, hq]
    rfl
  · exact fun name e he => (hargs e (hmem name e he)).1
  · exact fun name he => (hargs _ (hmem name _ he)).2 rfl

/-- A call of a template macro quotes its arguments, opens two scopes, and takes the note that it
expands to the template with the arguments in the places of the parameters. -/
theorem outcome_expandCall_of_isTemplate {params : List String} {args : List Node} {n : Node}
    {sc : Scope} {st : Store} {depth : Nat} (name : String) (hdepth : 4 ≤ depth)
    (hlen : args.length = params.length) (hnodup : params.Nodup) (hquote : "quote" ∉ params)
    (hfree : st.lookup "quote" sc = none) (hn : n.IsTemplate params)
    (hargs : ∀ a ∈ args, a.isExpression = true ∧ a ≠ .ident "unquote") :
    let result := n.substitute (params.zip args)
    ∃ st' : Store,
      (expandCall name args params (.block [.exprStmt (.call (.ident "quote") [n])]) sc).run.outcome
        evalRule depth st = ⟨.ok (.ok result), st'.note (.expanded (.call (.ident name) args) result)⟩ ∧
      st'.output = st.output ∧ ∀ sc' f, st.frame? sc' = some f → st'.frame? sc' = some f := by
  intro result
  obtain ⟨d, rfl⟩ : ∃ d, depth = d + 4 := ⟨depth - 4, by omega⟩
  obtain ⟨qs, hquotes, hqs⟩ := outcome_quoteAll (d + 4) args st
  let st₁ : Store := { st with nextIdentity := st.nextIdentity + args.length }
  let st₂ : Store := (st₁.child sc (bindParams params qs)).2
  let st₃ : Store := (st₂.child ⟨st.frames.size⟩ []).2
  have hopen : (openScope sc (bindParams params qs)).outcome evalRule (d + 4) st₁ =
      ⟨.ok ⟨st.frames.size⟩, st₂⟩ := rfl
  have hbound : st₃.Quotes ⟨st₂.frames.size⟩ params (params.zip args) :=
    quotes_params sc hlen hnodup hargs hqs
  have hunbound : st₃.lookup "quote" ⟨st₂.frames.size⟩ = none := by
    have hlen' : qs.length = params.length := by rw [hqs.length_eq, hlen]
    have hkeys : Table.keys (params.zip qs) = params := List.map_fst_zip (by omega)
    have hparam : Table.find? "quote" (params.zip qs) = none := by
      rw [← Option.not_isSome_iff_eq_none, ← Table.mem_keys_iff, hkeys]
      exact hquote
    have hframes : st₁.frames = st.frames := rfl
    have hmacro : st₁.lookup "quote" sc = none :=
      (Store.lookup_of_frames hframes "quote" sc).trans hfree
    rw [Store.lookup_child, Store.lookup_child, bindParams_eq hlen' hnodup, hparam, hmacro]
    rfl
  have hbody : (eval (.block [.exprStmt (.call (.ident "quote") [n])]) ⟨st.frames.size⟩).outcome
      evalRule (d + 4) st₂ =
        ⟨.ok (.quote st₃.nextIdentity (n.substitute (params.zip args))), st₃.freshIdentity.2⟩ := by
    rw [outcome_eval_succ, outcome_block_exprStmt]
    exact outcome_quote_template hbound hn hunbound
  refine ⟨st₃.freshIdentity.2, ?_, rfl, ?_⟩
  · rw [expandCall, if_neg (by omega)]
    refine (outcome_lift_bind hquotes _).trans ?_
    refine (outcome_lift_bind hopen _).trans ?_
    refine (outcome_lift_bind hbody _).trans ?_
    exact outcome_lift_bind rfl _
  · intro sc' f hf
    exact Store.frame?_addFrame_of_some _ (Store.frame?_addFrame_of_some _ hf)

/-- A call of a template macro expands to the template with the arguments in the places of the
parameters. It prints nothing and leaves the frames that are there alone. -/
theorem outcome_expandCall_template {params : List String} {args : List Node} {n : Node}
    {sc : Scope} {st : Store} {depth : Nat} (name : String) (hdepth : 4 ≤ depth)
    (hlen : args.length = params.length) (hnodup : params.Nodup) (hquote : "quote" ∉ params)
    (hfree : st.lookup "quote" sc = none) (hn : n.IsTemplate params)
    (hargs : ∀ a ∈ args, a.isExpression = true ∧ a ≠ .ident "unquote") :
    ∃ st', (expandCall name args params (.block [.exprStmt (.call (.ident "quote") [n])]) sc).run.outcome
        evalRule depth st = ⟨.ok (.ok (n.substitute (params.zip args))), st'⟩ ∧
      st'.output = st.output ∧ ∀ sc' f, st.frame? sc' = some f → st'.frame? sc' = some f := by
  obtain ⟨st', hout, hprinted, hframes⟩ :=
    outcome_expandCall_of_isTemplate name hdepth hlen hnodup hquote hfree hn hargs
  exact ⟨_, hout, hprinted, hframes⟩

/-- `macro(a, b) { quote((unquote(b) - unquote(a)) * a) }` called with `unquote(b)` and `10 - 5`:
the name `a` stays, and so does what is unquoted in an argument. -/
theorem outcome_expandCall_reverse :
    let unquote (name : String) : Node := .call (.ident "unquote") [.ident name]
    let difference : Node := .infixOp (.int 10) "-" (.int 5)
    let body : Node := .infixOp (.infixOp (unquote "b") "-" (unquote "a")) "*" (.ident "a")
    ∃ st', (expandCall "reverse" [unquote "b", difference] ["a", "b"]
        (.block [.exprStmt (.call (.ident "quote") [body])]) ⟨0⟩).run.outcome evalRule 4
        Store.empty.newRoot.2 =
          ⟨.ok (.ok (.infixOp (.infixOp difference "-" (unquote "b")) "*" (.ident "a"))), st'⟩ ∧
      st'.output = "" ∧ ∀ sc f, Store.empty.newRoot.2.frame? sc = some f → st'.frame? sc = some f := by
  intro unquote difference body
  have hfree : Store.empty.newRoot.2.lookup "quote" ⟨0⟩ = none := by
    rw [Store.lookup]
    rfl
  have hbody : body.IsTemplate ["a", "b"] := by
    refine ⟨by decide, ?_⟩
    intro t ht arg harg
    simp only [body, unquote, Node.subtrees, Node.subtreesOf, List.append_nil, List.cons_append,
      List.nil_append, List.mem_cons, List.not_mem_nil, or_false] at ht
    subst harg
    simpa [or_comm] using ht
  have hargs : ∀ a ∈ [unquote "b", difference], a.isExpression = true ∧ a ≠ .ident "unquote" := by
    simp [unquote, difference, Node.isExpression, Node.isProgram, Node.isStatement]
  exact outcome_expandCall_template "reverse" (Nat.le_refl 4) rfl (by decide) (by decide) hfree hbody
    hargs

end Monkey
