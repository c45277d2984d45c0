import Monkey.Proofs.ErrorContexts
import Monkey.Proofs.Forgetting
import Monkey.Proofs.Templates
import Monkey.Proofs.Traversal

/-!
# An `if` with its branches swapped

The macro `unless` puts its arguments into an `if` whose condition is negated. What a call
of it expands to, the `if` with the branches the other way round does as well: it is a
little less deep, and otherwise nobody can tell the two apart.

The arguments are put in as they are, whatever they unquote. Expanding the call makes
frames and identities of its own, so the session is afterwards the same up to a renaming
only.

## Main definitions

* `Session.Reached` — sessions that can be reached, also by resetting.
* `unlessText` — the definition of the macro.
* `Node.chosen` — what an `if` comes to when its condition and its branches may nest differently deep.

## Main results

* `rebuilds_template` — the template with the arguments put in.
* `outcome_expandProgram_unless` — what a call of the macro expands to.
* `Session.unless_swaps_branches` — the call and the `if` run alike.
-/

namespace Monkey

open Monkey.Computation Monkey.Attempt

/-! ## Rebuilding step by step -/

namespace Node
variable {ε : Type} {f : Node → ExceptT ε Computation Node} {depth : Nat} {st st₁ st' : Store}

/-- The computation of a rebuilding answers and takes one store to the other. -/
def Rebuilds {α : Type} (depth : Nat) (x : ExceptT SortError (ExceptT ε Computation) α)
    (st : Store) (a : α) (st' : Store) : Prop :=
  x.run.run.outcome evalRule depth st = ⟨.ok (.ok (.ok a)), st'⟩

theorem Rebuilds.bind {α β : Type} {x : ExceptT SortError (ExceptT ε Computation) α}
    {g : α → ExceptT SortError (ExceptT ε Computation) β} {a : α} {b : β}
    (hx : Rebuilds depth x st a st₁) (hg : Rebuilds depth (g a) st₁ b st') :
    Rebuilds depth (x >>= g) st b st' := by
  unfold Rebuilds at hx
  rw [Rebuilds, ExceptT.run_bind, ExceptT.run_bind, Computation.outcome_bind, hx]
  exact hg

/-- Children are rebuilt one after the other. -/
theorem Rebuilds.cons {c c' : Node} {cs cs' : List Node}
    (hc : Rebuilds depth (rebuildChild f c) st c' st₁)
    (hcs : Rebuilds depth (cs.mapM (rebuildChild f)) st₁ cs' st') :
    Rebuilds depth ((c :: cs).mapM (rebuildChild f)) st (c' :: cs') st' := by
  rw [List.mapM_cons]
  exact hc.bind (hcs.bind rfl)

theorem Rebuilds.nil : Rebuilds depth (([] : List Node).mapM (rebuildChild f)) st [] st := rfl

/-- A construct is handed in with what its children are rebuilt to. -/
theorem Rebuilds.handIn {n n' : Node} {cs : List Node}
    (hcs : Rebuilds depth (n.children.mapM (rebuildChild f)) st cs st₁)
    (hf : (f (n.withChildren cs)).run.outcome evalRule depth st₁ = ⟨.ok (.ok n'), st'⟩) :
    Rebuilds depth (n.handIn f) st n' st' := by
  refine hcs.bind ?_
  show (f (n.withChildren cs) >>= fun a => pure (Except.ok a)).run.outcome evalRule depth st₁ = _
  rw [ExceptT.run_bind, Computation.outcome_bind, hf]
  rfl

/-- What a child is answered with takes its place if it is of the same sort. -/
theorem Rebuilds.child {c c' : Node} {cs : List Node} (hc : c.WellSorted)
    (hcs : Rebuilds depth (c.children.mapM (rebuildChild f)) st cs st₁)
    (hf : (f (c.withChildren cs)).run.outcome evalRule depth st₁ = ⟨.ok (.ok c'), st'⟩)
    (hsuits : c.suits c' = true) : Rebuilds depth (rebuildChild f c) st c' st' := by
  rw [rebuildChild_eq f hc]
  refine (Rebuilds.handIn hcs hf).bind ?_
  rw [accept, if_pos hsuits]
  rfl

/-- What the whole tree is answered with is what it is rebuilt to, if it is no block. -/
theorem Rebuilds.root {n n' : Node} {cs : List Node} (hn : n.WellSorted) (hblock : n.isBlock = false)
    (hcs : Rebuilds depth (n.children.mapM (rebuildChild f)) st cs st₁)
    (hf : (f (n.withChildren cs)).run.outcome evalRule depth st₁ = ⟨.ok (.ok n'), st'⟩) :
    Rebuilds depth (n.rebuildM f) st n' st' := by
  rw [rebuildM_eq f hn hblock]
  exact .handIn hcs hf

/-- A tree that the rewriting leaves alone with all that is inside it stays where it is. -/
theorem Rebuilds.still {e : Node} (he : e.isExpression = true)
    (h : (((Judgement.still depth st).except fun _ : ε => False).except fun _ => False).holds
      (e.rebuildM f) (· = e)) : Rebuilds depth (rebuildChild f e) st e st := by
  obtain ⟨r, hr, hpost⟩ := h
  rcases r with x | (x | e')
  · exact absurd hpost id
  · exact absurd hpost id
  · obtain rfl : e' = e := hpost
    have hrebuild : Rebuilds depth (e'.rebuildM f) st e' st := hr
    refine hrebuild.bind ?_
    rw [accept, if_pos (by rwa [suits_expression he])]
    rfl

end Node

/-! ## The template -/

namespace Node

/-- `unquote(name)`. -/
def unquoting (name : String) : Node := .call (.ident "unquote") [.ident name]

/-- `if (!c) { t } else { e }`. -/
def ifNot (c t e : Node) : Node := .ifExpr (.prefixOp "!" c) [.exprStmt t] (some [.exprStmt e])

/-- What the macro quotes. -/
def unlessTemplate : Node :=
  ifNot (unquoting "condition") (unquoting "consequence") (unquoting "alternative")

/-- The body of the macro. -/
def unlessBody : List Node := [.exprStmt (.call (.ident "quote") [unlessTemplate])]

end Node

/-- The definition of the macro. -/
def unlessText : String :=
  "let unless = macro(condition, consequence, alternative) \x7b\n" ++
  "  quote(if (!(unquote(condition))) \x7b\n" ++
  "    unquote(consequence);\n" ++
  "  \x7d else \x7b\n" ++
  "    unquote(alternative);\n" ++
  "  \x7d);\n" ++
  "\x7d;\n"

theorem parse_unlessText : Source.parse unlessText = .ok (.program [.letStmt "unless"
    (.macroLit ["condition", "consequence", "alternative"] Node.unlessBody)]) :=
  Source.parse_of_toOption (by decide +kernel)

section Template
variable {depth : Nat} {sc : Scope} {st : Store}

/-- Where a name is bound to a quoted expression, unquoting it is replaced by the expression. -/
theorem rebuilds_unquoting (depth : Nat) {name : String} {i : Identity} {e : Node}
    (hlookup : st.lookup name sc = some (.quote i e)) (he : e.isExpression = true) :
    Node.Rebuilds (depth + 1) (Node.rebuildChild (unquoteStep sc) (.unquoting name)) st e st := by
  have hsorted : ∀ w, (Node.ident w).WellSorted := fun w =>
    Node.wellSorted_of_operands (by simp) rfl rfl
  have hcall : (Node.unquoting name).WellSorted :=
    Node.wellSorted_of_operands (by simpa [Node.unquoting, hsorted] using ⟨rfl, rfl⟩) rfl rfl
  have heval : evalWithin evalRule (depth + 1) (.ident name) sc st = ⟨.ok (.quote i e), st⟩ := by
    show (evalName name sc).outcome evalRule depth st = _
    rw [evalName, Computation.outcome_bind, outcome_reading, hlookup]
    rfl
  have hstep : (unquoteStep sc (.unquoting name)).run.outcome evalRule (depth + 1) st =
      ⟨.ok (.ok e), st⟩ := by
    show (need (.ident name) sc >>= fun v => check v.toNode).run.outcome evalRule _ st = _
    rw [Attempt.outcome_bind, outcome_need_of_ok heval rfl]
    show (check e.asSpliced).run.outcome evalRule _ st = _
    rw [Node.asSpliced_of_isExpression he]
    rfl
  have hname : ∀ w, Node.Rebuilds (depth + 1) (Node.rebuildChild (unquoteStep sc) (.ident w)) st
      (.ident w) st := fun w => .child (hsorted w) .nil rfl rfl
  exact .child hcall (.cons (hname "unquote") (.cons (hname name) .nil)) hstep he

/-- The template has the trees in the places of the names that are bound to them. -/
theorem rebuilds_template {c t e : Node} {i j k : Identity}
    (hc : st.lookup "condition" sc = some (.quote i c))
    (ht : st.lookup "consequence" sc = some (.quote j t))
    (he : st.lookup "alternative" sc = some (.quote k e))
    (hexpression : ∀ x ∈ [c, t, e], x.isExpression = true) :
    Node.Rebuilds (depth + 1) (Node.unlessTemplate.rebuildM (unquoteStep sc)) st (.ifNot c t e)
      st := by
  have hblock : ∀ {name : String} {l : Identity} {x : Node},
      (Node.block [.exprStmt (.unquoting name)]).WellSorted →
      st.lookup name sc = some (.quote l x) → x.isExpression = true →
      Node.Rebuilds (depth + 1)
        (Node.rebuildChild (unquoteStep sc) (.block [.exprStmt (.unquoting name)])) st
        (.block [.exprStmt x]) st := by
    intro name l x hsorted hlookup hx
    have hstatement := hsorted.child (c := .exprStmt (.unquoting name)) (by simp [Node.children])
    have hinner := rebuilds_unquoting depth hlookup hx
    exact .child hsorted (.cons (.child hstatement (.cons hinner .nil) rfl rfl) .nil) rfl rfl
  have hcondition := rebuilds_unquoting depth hc (hexpression c (by simp))
  have hconsequence := hblock (by decide) ht (hexpression t (by simp))
  have halternative := hblock (by decide) he (hexpression e (by simp))
  exact .root (by decide) rfl (.cons (.child (by decide) (.cons hcondition .nil) rfl rfl)
    (.cons hconsequence (.cons halternative .nil))) rfl

/-- Where its parameters are bound to quoted expressions, the body of the macro quotes the template
with the expressions put in. -/
theorem outcome_unlessBody (depth : Nat) {c t e : Node} {i j k : Identity}
    (hquote : st.lookup "quote" sc = none)
    (hc : st.lookup "condition" sc = some (.quote i c))
    (ht : st.lookup "consequence" sc = some (.quote j t))
    (he : st.lookup "alternative" sc = some (.quote k e))
    (hexpression : ∀ x ∈ [c, t, e], x.isExpression = true) :
    (eval (.block Node.unlessBody) sc).outcome evalRule (depth + 4) st =
      ⟨.ok (.quote (st.child sc []).2.nextIdentity (.ifNot c t e)),
        (st.child sc []).2.freshIdentity.2⟩ := by
  let st' : Store := (st.child sc []).2
  have hlookup : ∀ w, st'.lookup w ⟨st.frames.size⟩ = st.lookup w sc := fun w =>
    Store.lookup_child ..
  have hbuild : Node.Rebuilds (depth + 1) _ st' _ st' :=
    rebuilds_template ((hlookup _).trans hc) ((hlookup _).trans ht) ((hlookup _).trans he) hexpression
  have hrun : (evalQuote .unlessTemplate ⟨st.frames.size⟩).run.outcome evalRule (depth + 1) st' =
      ⟨.ok (.ok (.quote st'.nextIdentity (.ifNot c t e))), st'.freshIdentity.2⟩ := by
    rw [evalQuote, Attempt.outcome_bind, hbuild]
    rfl
  rw [outcome_eval_succ, Node.unlessBody, outcome_block_exprStmt]
  show (evalRule (.call (.ident "quote") _) _ st').resolve _ = _
  rw [evalRule_quote ((hlookup _).trans hquote)]
  show (settle (evalQuote .unlessTemplate _)).outcome evalRule (depth + 1) st' = _
  rw [outcome_settle, hrun]

/-- A call of the macro expands to the template with the arguments put in, and prints nothing. -/
theorem outcome_expandCall_unless (depth : Nat) {c t e : Node} (hquote : st.lookup "quote" sc = none)
    (hexpression : ∀ x ∈ [c, t, e], x.isExpression = true) (name : String) :
    ∃ st', (expandCall name [c, t, e] ["condition", "consequence", "alternative"]
        (.block Node.unlessBody) sc).run.outcome evalRule (depth + 4) st =
          ⟨.ok (.ok (.ifNot c t e)), st'⟩ ∧ st'.output = st.output := by
  let quotes : List Value := [.quote st.nextIdentity c, .quote (st.nextIdentity + 1) t,
    .quote (st.nextIdentity + 2) e]
  let bindings : Table String Value :=
    ["condition", "consequence", "alternative"].zip quotes
  let st₁ : Store := { st with nextIdentity := st.nextIdentity + 3 }
  let st₂ : Store := (st₁.child sc bindings).2
  have hquotes : (quoteAll [c, t, e]).outcome evalRule (depth + 4) st = ⟨.ok quotes, st₁⟩ := rfl
  have hbindings : bindParams ["condition", "consequence", "alternative"] quotes = bindings :=
    bindParams_eq rfl (by decide)
  have hopen : (openScope sc bindings).outcome evalRule (depth + 4) st₁ =
      ⟨.ok ⟨st.frames.size⟩, st₂⟩ := rfl
  have hlookup : ∀ w, st₂.lookup w ⟨st.frames.size⟩ = (bindings.find? w).or (st.lookup w sc) :=
    fun w => (Store.lookup_child ..).trans
      (congrArg _ (Store.lookup_of_frames (show st₁.frames = st.frames from rfl) w sc))
  have hbody := outcome_unlessBody depth ((hlookup "quote").trans hquote)
    (hlookup "condition") (hlookup "consequence") (hlookup "alternative") hexpression
  refine ⟨(st₂.child ⟨st.frames.size⟩ []).2.freshIdentity.2.note
    (.expanded (.call (.ident name) [c, t, e]) (.ifNot c t e)), ?_, rfl⟩
  rw [expandCall, if_neg (by simp)]
  refine (outcome_lift_bind hquotes _).trans ?_
  rw [hbindings]
  refine (outcome_lift_bind hopen _).trans ?_
  refine (outcome_lift_bind hbody _).trans ?_
  exact outcome_lift_bind rfl _

end Template

/-! ## The call of the macro -/

/-- Where the macro is bound, expanding a call of it puts the arguments into the template. -/
theorem outcome_expandStep_unless (depth : Nat) {macros : Scope} {st : Store} {c t e : Node}
    {i : Identity} (hbound : st.lookup "unless" macros = some (.macroFn i
      ["condition", "consequence", "alternative"] (.block Node.unlessBody) macros))
    (hquote : st.lookup "quote" macros = none)
    (hexpression : ∀ x ∈ [c, t, e], x.isExpression = true) :
    ∃ st', (expandStep macros (.call (.ident "unless") [c, t, e])).run.outcome evalRule (depth + 4)
      st = ⟨.ok (.ok (.ifNot c t e)), st'⟩ ∧ st'.output = st.output := by
  obtain ⟨st', hexpand, houtput⟩ := outcome_expandCall_unless depth hquote hexpression "unless"
  have hfind : (findMacro "unless" macros).outcome evalRule (depth + 4) st = ⟨.ok (some
      (["condition", "consequence", "alternative"], .block Node.unlessBody, macros)), st⟩ := by
    rw [findMacro, outcome_reading, hbound]
  exact ⟨st', (outcome_lift_bind hfind _).trans hexpand, houtput⟩

/-- A program that consists of a call of the macro expands to the template with the arguments put in.
That prints nothing, and no macros must be called in the arguments. -/
theorem outcome_expandProgram_unless {macros : Scope} {st : Store} {c t e : Node} {i : Identity}
    (hsorted : (Node.program [.exprStmt (.call (.ident "unless") [c, t, e])]).WellSorted)
    (hbound : st.lookup "unless" macros = some (.macroFn i
      ["condition", "consequence", "alternative"] (.block Node.unlessBody) macros))
    (hquote : st.lookup "quote" macros = none)
    (hcalls : ∀ x ∈ [c, t, e], ∀ name args, .call (.ident name) args ∈ x.subtrees →
      ∀ j params body inner, st.lookup name macros ≠ some (.macroFn j params body inner))
    (depth : Nat) :
    ∃ st', (expandProgram macros (.program [.exprStmt (.call (.ident "unless") [c, t, e])])).outcome
        evalRule (depth + 4) st = ⟨.ok (.ok (.program [.exprStmt (.ifNot c t e)])), st'⟩ ∧
      st'.output = st.output := by
  let st₀ : Store := st.note (.parsed 1)
  have hlookup : ∀ name, st₀.lookup name macros = st.lookup name macros := fun name =>
    Store.lookup_of_frames (show st₀.frames = st.frames from rfl) name macros
  have hstatement := hsorted.child (c := .exprStmt (.call (.ident "unless") [c, t, e]))
    (by simp [Node.children])
  have hcall := hstatement.child (c := .call (.ident "unless") [c, t, e]) (by simp [Node.children])
  have hoperands := (Node.wellSorted_iff.1 hcall).operands
  have hexpression : ∀ x ∈ [c, t, e], x.isExpression = true := fun x hx =>
    (hoperands x (List.mem_cons_of_mem _ hx)).1
  have harg : ∀ x ∈ [c, t, e],
      Node.Rebuilds (depth + 4) (Node.rebuildChild (expandStep macros) x) st₀ x st₀ := fun x hx => by
    have hx' := hoperands x (List.mem_cons_of_mem _ hx)
    refine .still hx'.1 (Judgement.rebuild_self hx'.2 fun u hu => Node.still_expandStep ?_)
    rintro name args rfl j params body inner
    rw [hlookup]
    exact hcalls x hx name args hu j params body inner
  obtain ⟨st', hstep, houtput⟩ := outcome_expandStep_unless depth ((hlookup "unless").trans hbound)
    ((hlookup "quote").trans hquote) hexpression
  have hcallee : Node.Rebuilds (depth + 4) (Node.rebuildChild (expandStep macros) (.ident "unless"))
      st₀ (.ident "unless") st₀ := .child (by decide) .nil rfl rfl
  have hargs : Node.Rebuilds (depth + 4) ([c, t, e].mapM (Node.rebuildChild (expandStep macros))) st₀
      [c, t, e] st₀ :=
    .cons (harg c (by simp)) (.cons (harg t (by simp)) (.cons (harg e (by simp)) .nil))
  have hprogram : Node.Rebuilds (depth + 4) (Node.rebuildM (expandStep macros) _) st₀
      (.program [.exprStmt (.ifNot c t e)]) st' :=
    .root hsorted rfl (.cons (.child hstatement
      (.cons (.child hcall (.cons hcallee hargs) hstep rfl) .nil) rfl rfl) .nil) rfl
  refine ⟨st', ?_, houtput⟩
  rw [outcome_expandProgram_of_undefining macros (by simp [Node.isMacroDefinition])]
  show (expandMacros macros _).run.outcome evalRule (depth + 4) st₀ = _
  rw [expandMacros, ExceptT.run_bind, Computation.outcome_bind, hprogram]
  rfl

/-! ## The branches -/

namespace Node
variable (c : Node) (t e : List Node) (sc : Scope) (st : Store)

/-- What an `if` comes to whose condition may nest one depth and whose branches may nest another. -/
def chosen (condition branch : Nat) : Outcome Value :=
  match evalWithin evalRule condition c sc st with
  | ⟨.ok v, st'⟩ =>
    if v.isError then ⟨.ok v, st'⟩
    else evalWithin evalRule branch (.block (if v.isTruthy then t else e)) sc st'
  | ⟨.error failure, st'⟩ => ⟨.error failure, st'⟩

theorem evalWithin_ifExpr (depth : Nat) :
    evalWithin evalRule (depth + 1) (.ifExpr c t (some e)) sc st = chosen c t e sc st depth depth := by
  show (evalRule (.ifExpr c t (some e)) sc).outcome evalRule depth st = _
  rw [evalRule, settle_need_bind, Computation.outcome_bind, outcome_eval, chosen]
  generalize evalWithin evalRule depth c sc st = o
  obtain ⟨result, st'⟩ := o
  cases result with
  | error failure => rfl
  | ok v =>
    dsimp only
    by_cases herror : v.isError = true
    · rw [if_pos herror, if_pos herror]
      rfl
    · rw [if_neg herror, if_neg herror]
      by_cases htrue : v.isTruthy = true
      · rw [if_pos htrue, if_pos htrue, settle_lift, outcome_eval]
      · rw [if_neg htrue, if_neg htrue, settle_lift, outcome_eval]

omit t e in
/-- What a negated condition comes to. -/
theorem evalWithin_not (depth : Nat) : evalWithin evalRule (depth + 1) (.prefixOp "!" c) sc st =
    match evalWithin evalRule depth c sc st with
    | ⟨.ok v, st'⟩ => ⟨.ok (if v.isError then v else .bool !v.isTruthy), st'⟩
    | ⟨.error failure, st'⟩ => ⟨.error failure, st'⟩ := by
  show (evalRule (.prefixOp "!" c) sc).outcome evalRule depth st = _
  rw [evalRule, settle_need_bind, Computation.outcome_bind, outcome_eval]
  generalize evalWithin evalRule depth c sc st = o
  obtain ⟨result, st'⟩ := o
  cases result with
  | error failure => rfl
  | ok v =>
    have hnot : v.applyPrefix "!" = .ok (.bool !v.isTruthy) := if_pos rfl
    dsimp only
    rw [hnot]
    by_cases herror : v.isError = true
    · rw [if_pos herror, if_pos herror]
      rfl
    · rw [if_neg herror, if_neg herror]
      rfl

/-- A negated condition nests one level deeper, and chooses the other branch. -/
theorem evalWithin_negated (depth : Nat) :
    evalWithin evalRule (depth + 2) (.ifExpr (.prefixOp "!" c) t (some e)) sc st =
      chosen c e t sc st depth (depth + 1) := by
  rw [evalWithin_ifExpr, chosen, evalWithin_not, chosen]
  generalize evalWithin evalRule depth c sc st = o
  obtain ⟨result, st'⟩ := o
  cases result with
  | error failure => rfl
  | ok v =>
    dsimp only
    by_cases herror : v.isError = true
    · rw [if_pos herror, if_pos herror, if_pos herror]
    · rw [if_neg herror, if_neg herror]
      cases htrue : v.isTruthy <;> rfl

variable {c t e sc st} in
/-- More depth changes nothing in what has come to an end. -/
theorem chosen_mono {condition condition' branch branch' : Nat} (hle : condition ≤ condition')
    (hle' : branch ≤ branch') (h : (chosen c t e sc st condition branch).Finished) :
    chosen c t e sc st condition' branch' = chosen c t e sc st condition branch := by
  have hcondition : (evalWithin evalRule condition c sc st).Finished := by
    intro hlacks
    refine h ?_
    unfold chosen
    generalize evalWithin evalRule condition c sc st = o at hlacks
    obtain ⟨result, st'⟩ := o
    obtain rfl : result = .error .depthExceeded := hlacks
    rfl
  unfold chosen at h ⊢
  rw [evalWithin_mono evalRule hle c sc st hcondition]
  generalize evalWithin evalRule condition c sc st = o at h
  obtain ⟨result, st'⟩ := o
  cases result with
  | error failure => rfl
  | ok v =>
    dsimp only at h ⊢
    by_cases herror : v.isError = true
    · rw [if_pos herror, if_pos herror]
    · rw [if_neg herror] at h ⊢
      rw [if_neg herror, evalWithin_mono evalRule hle' _ sc st' h]

end Node

/-- A value that is being returned has arrived. -/
def Outcome.unwrapped (o : Outcome Value) : Outcome Value := ⟨o.result.map Value.unwrapped, o.store⟩

theorem Outcome.finished_unwrapped_iff {o : Outcome Value} : o.unwrapped.Finished ↔ o.Finished := by
  obtain ⟨result, st⟩ := o
  cases result with
  | error failure => exact Iff.rfl
  | ok v => exact iff_of_true nofun nofun

namespace Node
variable (c : Node) (sc : Scope) (st : Store) (depth : Nat)

/-- A program that consists of an expression comes to what the expression comes to. -/
theorem evaluate_exprStmt : (program [.exprStmt c]).evaluate (depth + 2) sc st =
    (evalWithin evalRule depth c sc st).unwrapped := by
  have hstatement : evalWithin evalRule (depth + 1) (.exprStmt c) sc st =
      evalWithin evalRule depth c sc st := by
    show (eval c sc).outcome evalRule depth st = _
    rw [outcome_eval]
  rw [evaluate_program, evalStatements, Computation.outcome_bind, outcome_eval, hstatement]
  generalize evalWithin evalRule depth c sc st = o
  obtain ⟨result, st'⟩ := o
  cases result with
  | error failure => rfl
  | ok v =>
    dsimp only [evalStatements]
    rw [ite_self]
    rfl

variable (t e : Node)

/-- The template with trees put in, and the `if` with the branches the other way round. -/
def swapped : Node := .program [.exprStmt (.ifExpr c [.exprStmt e] (some [.exprStmt t]))]

theorem evaluate_ifNot : (program [.exprStmt (ifNot c t e)]).evaluate (depth + 4) sc st =
    (chosen c [.exprStmt e] [.exprStmt t] sc st depth (depth + 1)).unwrapped := by
  rw [evaluate_exprStmt, ifNot, evalWithin_negated]

theorem evaluate_swapped : (swapped c t e).evaluate (depth + 3) sc st =
    (chosen c [.exprStmt e] [.exprStmt t] sc st depth depth).unwrapped := by
  rw [swapped, evaluate_exprStmt, evalWithin_ifExpr]

variable {c sc st depth t e}

/-- What the negated `if` comes to, the other one comes to in the same depth. -/
theorem swapped_of_finished
    (h : ((program [.exprStmt (ifNot c t e)]).evaluate (depth + 4) sc st).Finished) :
    (swapped c t e).evaluate (depth + 4) sc st =
      (program [.exprStmt (ifNot c t e)]).evaluate (depth + 4) sc st := by
  rw [evaluate_ifNot, Outcome.finished_unwrapped_iff] at h
  rw [evaluate_ifNot, evaluate_swapped c sc st (depth + 1), chosen_mono (by omega) (Nat.le_refl _) h]

/-- What the other one comes to, the negated `if` comes to in a depth that is greater by one. -/
theorem ifNot_of_finished (h : ((swapped c t e).evaluate (depth + 3) sc st).Finished) :
    (program [.exprStmt (ifNot c t e)]).evaluate (depth + 4) sc st =
      (swapped c t e).evaluate (depth + 3) sc st := by
  rw [evaluate_swapped, Outcome.finished_unwrapped_iff] at h
  rw [evaluate_ifNot, evaluate_swapped, chosen_mono (Nat.le_refl _) (by omega) h]

end Node

/-! ## Sessions -/

/-- A tree is evaluated alike in corresponding scopes of stores that are the same up to renaming. -/
theorem Store.Renamed.evaluate {before before' : String} {ρ : Renaming} {st st' : Store}
    (h : Renamed before before' ρ st st') {sc sc' : Scope} (hsc : ρ.scopes sc sc') (n : Node)
    (depth : Nat) : ∃ σ, ρ ≤ σ ∧
      Renamed before before' σ (n.evaluate depth sc st).store (n.evaluate depth sc' st').store ∧
      Both Eq (Matching.renamed σ).Alike (n.evaluate depth sc st).result
        (n.evaluate depth sc' st').result := by
  have heval : ((renamed before before').pairing depth).holds (.renamed ρ) (eval n sc) (eval n sc')
      Matching.Alike := (laws_renamed before before').eval depth hsc
  rw [Node.evaluate, Node.evaluate, run_eq, run_eq]
  exact h.run heval

theorem Outcome.RunsLike.finished_iff {o o' : Outcome Ran} (h : o.RunsLike o') :
    o.Finished ↔ o'.Finished := by
  obtain ⟨result, st⟩ := o
  obtain ⟨result', st'⟩ := o'
  have hresult : Both Eq _ result result' := h.result
  cases hresult with
  | error he =>
    subst he
    exact Iff.rfl
  | ok => exact iff_of_true nofun nofun

namespace Session

/-- The sessions that are reached from a new one by submitting texts and by resetting. -/
inductive Reached : Session → Prop where
  | new : Reached .new
  | next {s : Session} (depth : Nat) (source : String) : Reached s → Reached (s.next depth source)
  | reset {s : Session} : Reached s → Reached s.reset

/-- A session that is reached goes on alike whatever happens elsewhere in its store. -/
theorem Reached.same {s : Session} (h : s.Reached) : s.Same s := by
  induction h with
  | new => exact same_startingIn _ _
  | next depth source _ ih => exact ih.next depth source
  | reset => exact same_startingIn _ _

/-- What a program comes to that has been expanded. -/
def evaluated (s : Session) (program : Node) (depth : Nat) (st : Store) : Outcome Ran :=
  ⟨(program.evaluate depth s.values st).result.map (⟨·, true⟩),
    (program.evaluate depth s.values st).store⟩

theorem finished_evaluated_iff {s : Session} {program : Node} {depth : Nat} {st : Store} :
    (s.evaluated program depth st).Finished ↔ (program.evaluate depth s.values st).Finished := by
  unfold evaluated
  generalize program.evaluate depth s.values st = o
  obtain ⟨result, st'⟩ := o
  cases result with
  | error failure => exact not_congr ⟨fun h => by cases h; rfl, fun h => by cases h; rfl⟩
  | ok v => exact iff_of_true nofun nofun

/-- The store in which a text of one statement is expanded. -/
def started (s : Session) : Store := s.store.quiet.note (.parsed 1)

/-- A program is evaluated alike in a session from stores that are the same up to renaming. -/
theorem evaluated_like {s : Session} {ρ : Renaming} {st st' : Store}
    (h : Store.Renamed "" "" ρ st st') (hvalues : ρ.scopes s.values s.values)
    (hmacros : ρ.scopes s.macros s.macros) (program : Node) (depth : Nat) :
    (s.evaluated program depth st).RunsLike (s.evaluated program depth st') ∧
      Same { s with store := (s.evaluated program depth st).store.quiet }
        { s with store := (s.evaluated program depth st').store.quiet } := by
  obtain ⟨σ, hle, hσ, hresult⟩ := h.evaluate hvalues program depth
  obtain ⟨printed, hout, hout'⟩ := hσ.output
  refine ⟨⟨hresult.map fun v v' hv => ⟨hv.showsLike, rfl⟩, hout.trans hout'.symm⟩, ?_⟩
  exact ⟨σ, hσ.quiet, hle.scopes _ _ hvalues, hle.scopes _ _ hmacros⟩

section Unless
variable {s : Session} (hs : s.Reached) {source source' : String} {params : List String}
  {body : List Node} {i : Identity} {c t e : Node}
  (htext : Source.parse unlessText = .ok (.program [.letStmt "unless" (.macroLit params body)]))
  (hbound : s.store.lookup "unless" s.macros = some (.macroFn i params (.block body) s.macros))
  (hquote : s.store.lookup "quote" s.macros = none)
  (hcalls : ∀ x ∈ [c, t, e], ∀ name args, .call (.ident name) args ∈ x.subtrees →
    ∀ j ps block inner, s.store.lookup name s.macros ≠ some (.macroFn j ps block inner))
  (hparse : Source.parse source =
    .ok (.program [.exprStmt (.call (.ident "unless") [c, t, e])]))
  (hparse' : Source.parse source' = .ok (.swapped c t e))

include hs htext hbound hquote hcalls hparse in
/-- A call of the macro is expanded, and then the store is the same up to renaming. -/
theorem attempt_unless (depth : Nat) : ∃ st ρ, Store.Renamed "" "" ρ st s.started ∧
    ρ.scopes s.values s.values ∧ ρ.scopes s.macros s.macros ∧
    s.attempt (depth + 4) source =
      some (s.evaluated (.program [.exprStmt (.ifNot c t e)]) (depth + 4) st) := by
  obtain ⟨rfl, rfl⟩ : params = ["condition", "consequence", "alternative"] ∧
      body = Node.unlessBody := by
    rw [parse_unlessText] at htext
    cases htext
    exact ⟨rfl, rfl⟩
  have hquiet : ∀ name, s.store.quiet.lookup name s.macros = s.store.lookup name s.macros :=
    fun name =>
      Store.lookup_of_frames (show s.store.quiet.frames = s.store.frames from rfl) name s.macros
  obtain ⟨st, hexpand, houtput⟩ := outcome_expandProgram_unless
    (Source.parse_wellSorted hparse) ((hquiet _).trans hbound) ((hquiet _).trans hquote)
    (fun x hx name args hcall j ps block inner => by
      rw [hquiet]
      exact hcalls x hx name args hcall j ps block inner) depth
  have hattempt := attempt_of_expandProgram hparse hexpand
  obtain ⟨ρ, hρ, hvalues, hmacros⟩ := hs.same
  have hexpanded : (expandMacros s.macros _).run.outcome evalRule (depth + 4) s.started =
      ⟨.ok (.ok (.program [.exprStmt (.ifNot c t e)])), st⟩ :=
    (outcome_expandProgram_of_undefining s.macros (by simp [Node.isMacroDefinition]) _ _).symm.trans
      hexpand
  have hkept : ∀ sc f, s.store.quiet.frame? sc = some f → st.frame? sc = some f := by
    intro sc f hf
    have hframe := Store.frame?_expandMacros (show s.started.frame? sc = some f from hf) s.macros
      [.exprStmt (.call (.ident "unless") [c, t, e])] (depth + 4)
    rwa [hexpanded] at hframe
  have hnext : s.store.quiet.nextIdentity ≤ st.nextIdentity := by
    have hle := Store.nextIdentity_expandMacros s.macros
      [.exprStmt (.call (.ident "unless") [c, t, e])] (depth + 4) s.started
    rwa [hexpanded] at hle
  have hsame : Store.Renamed st.output s.started.output ρ st s.started :=
    hρ.of_frames (fun sc f hf _ => hkept sc f hf) (fun _ _ hf => hf) hnext (Nat.le_refl _)
  have houtput' : st.output = "" := houtput
  rw [houtput'] at hsame
  exact ⟨st, ρ, hsame, hvalues, hmacros, hattempt⟩

include hcalls hparse' in
/-- In the `if` there is nothing to expand. -/
theorem attempt_swapped (depth : Nat) :
    s.attempt depth source' = some (s.evaluated (.swapped c t e) depth s.started) := by
  refine attempt_of_expandProgram hparse' ?_
  have hfree : ∀ name args, .call (.ident name) args ∈ (Node.swapped c t e).subtrees →
      ∀ j ps block inner, s.started.lookup name s.macros ≠ some (.macroFn j ps block inner) := by
    intro name args hcall
    have hlookup : s.started.lookup name s.macros = s.store.lookup name s.macros :=
      Store.lookup_of_frames (show s.started.frames = s.store.frames from rfl) name s.macros
    have harg : ∃ x ∈ [c, t, e], .call (.ident name) args ∈ x.subtrees := by
      simpa [Node.swapped, Node.subtrees, Node.subtreesOf, Node.subtreesOfElse, or_assoc,
        or_comm (a := _ ∈ e.subtrees)] using hcall
    obtain ⟨x, hx, hmem⟩ := harg
    rw [hlookup]
    exact hcalls x hx name args hmem
  have hstill : ((Judgement.still depth s.started).except fun _ => False).holds
      (expandMacros s.macros (.swapped c t e)) (· = .swapped c t e) :=
    Node.still_expandMacros (Source.parse_wellSorted hparse') hfree
  obtain ⟨r, hr, hself⟩ := hstill
  rw [Node.swapped, outcome_expandProgram_of_undefining s.macros (by simp [Node.isMacroDefinition])]
  refine hr.trans ?_
  rw [hself.eq_ok]
  rfl

include hs htext hbound hquote hcalls hparse hparse'

/-- A call of the macro `unless` is an `if` with its branches swapped. In every session in which
the macro is bound as its text defines it and in which no macro is called `quote`, the two texts
come to an end together, print the same, come to values that show the same, and leave the same
bindings. No macros must be called in the three arguments; any code may stand there otherwise. -/
theorem unless_swaps_branches :
    ((∃ depth o, s.attempt depth source = some o ∧ o.Finished) ↔
      ∃ depth o, s.attempt depth source' = some o ∧ o.Finished) ∧
    ∀ depth depth' o o', s.attempt depth source = some o → s.attempt depth' source' = some o' →
      o.Finished → o'.Finished →
      o.RunsLike o' ∧ (s.next depth source).BindsLike (s.next depth' source') := by
  have hswapped := attempt_swapped hcalls hparse'
  -- with the same store before them, the two programs come to the same
  have hsame : ∀ depth st, (s.evaluated (.program [.exprStmt (.ifNot c t e)]) (depth + 4) st).Finished →
      s.evaluated (.swapped c t e) (depth + 4) st =
        s.evaluated (.program [.exprStmt (.ifNot c t e)]) (depth + 4) st := by
    intro depth st h
    rw [evaluated, evaluated, Node.swapped_of_finished (finished_evaluated_iff.1 h)]
  refine ⟨⟨?_, ?_⟩, ?_⟩
  · rintro ⟨depth, o, ho, hfinished⟩
    obtain ⟨st, ρ, hρ, hvalues, hmacros, hunless⟩ :=
      attempt_unless hs htext hbound hquote hcalls hparse depth
    obtain rfl := Option.some.inj
      ((s.attempt_mono source (Nat.le_add_right depth 4) ho hfinished).symm.trans hunless)
    have hlike := (evaluated_like hρ hvalues hmacros (.swapped c t e) (depth + 4)).1
    rw [hsame depth st hfinished] at hlike
    exact ⟨depth + 4, _, hswapped (depth + 4), hlike.finished_iff.1 hfinished⟩
  · rintro ⟨depth, o, ho, hfinished⟩
    obtain ⟨st, ρ, hρ, hvalues, hmacros, hunless⟩ :=
      attempt_unless hs htext hbound hquote hcalls hparse depth
    obtain rfl := Option.some.inj
      ((s.attempt_mono source' (Nat.le_add_right depth 3) ho hfinished).symm.trans
        (hswapped (depth + 3)))
    have hlike := (evaluated_like hρ hvalues hmacros (.swapped c t e) (depth + 3)).1
    have hfinished' := finished_evaluated_iff.1 (hlike.finished_iff.2 hfinished)
    refine ⟨depth + 4, _, hunless, finished_evaluated_iff.2 ?_⟩
    rwa [Node.ifNot_of_finished hfinished']
  · intro depth depth' o o' ho ho' hfinished hfinished'
    obtain ⟨st, ρ, hρ, hvalues, hmacros, hunless⟩ :=
      attempt_unless hs htext hbound hquote hcalls hparse (depth + depth')
    obtain rfl := Option.some.inj
      ((s.attempt_mono source (by omega) ho hfinished).symm.trans hunless)
    obtain rfl := Option.some.inj
      ((s.attempt_mono source' (by omega) ho' hfinished').symm.trans
        (hswapped (depth + depth' + 4)))
    have hlike := evaluated_like hρ hvalues hmacros (.swapped c t e) (depth + depth' + 4)
    rw [hsame (depth + depth') st hfinished] at hlike
    refine ⟨hlike.1, ?_⟩
    rw [next_of_attempt ho, next_of_attempt ho']
    exact hlike.2.bindsLike

end Unless

/-- Of the two arguments that print only the one that is chosen is evaluated. -/
theorem unless_swaps_branches_printing :
    let s := Session.new.next 99 unlessText
    let source := "unless(10 > 5, puts(\"not greater\"), puts(\"greater\"));"
    let source' := "if (10 > 5) \x7b puts(\"greater\") \x7d else \x7b puts(\"not greater\") \x7d"
    ∃ o o', s.attempt 99 source = some o ∧ s.attempt 99 source' = some o' ∧ o.RunsLike o' ∧
      o'.store.output = "greater\n" ∧ (s.next 99 source).BindsLike (s.next 99 source') := by
  intro s source source'
  let c : Node := .infixOp (.int 10) ">" (.int 5)
  let puts (text : String) : Node := .call (.ident "puts") [.str text]
  have hparse : Source.parse source = .ok (.program
      [.exprStmt (.call (.ident "unless") [c, puts "not greater", puts "greater"])]) :=
    Source.parse_of_toOption (by decide +kernel)
  have hparse' : Source.parse source' = .ok (.swapped c (puts "not greater") (puts "greater")) :=
    Source.parse_of_toOption (by decide +kernel)
  have hmacros : s.macros = new.macros := macros_next ..
  have hframe : s.store.frame? s.macros = some ⟨none, [("unless", .macroFn 0
      ["condition", "consequence", "alternative"] (.block Node.unlessBody) s.macros)]⟩ := by
    have hquiet : new.store.quiet.frame? new.macros = some ⟨none, []⟩ := frame?_new (by decide)
    rw [hmacros]
    refine (frame?_next parse_unlessText 99 new.macros).trans ?_
    rw [Store.frame?_runProgram_of_ne hquiet values_ne_macros.symm, if_pos rfl]
    rfl
  have hother : ∀ name, name ≠ "unless" → s.store.lookup name s.macros = none := fun name hname =>
    Store.lookup_of_root hframe (if_neg hname.symm) rfl
  have hfound : (s.store.bindings s.macros).find? "unless" = some (.macroFn 0
      ["condition", "consequence", "alternative"] (.block Node.unlessBody) s.macros) := by
    rw [Store.bindings, hframe]
    rfl
  have hbound := Store.lookup_of_find? hfound
  have hcalls : ∀ x ∈ [c, puts "not greater", puts "greater"], ∀ name args,
      .call (.ident name) args ∈ x.subtrees → ∀ j ps block inner,
        s.store.lookup name s.macros ≠ some (.macroFn j ps block inner) := by
    intro x hx name args hcall j ps block inner
    have hname : name = "puts" := by
      simp only [List.mem_cons, List.not_mem_nil, or_false] at hx
      rcases hx with rfl | rfl | rfl <;>
        simp [c, puts, Node.subtrees, Node.subtreesOf] at hcall <;> exact hcall.1
    rw [hname, hother "puts" (by decide)]
    exact (Option.some_ne_none _).symm
  have hends : ∀ text, (s.attempt 99 text).any (fun o => o.store.output == "greater\n" &&
      o.result.isOk) = true → ∃ o, s.attempt 99 text = some o ∧ o.Finished ∧
        o.store.output = "greater\n" := by
    intro text h
    obtain ⟨o, ho, hout⟩ := (Option.any_eq_true _ _).1 h
    simp only [Bool.and_eq_true, beq_iff_eq] at hout
    refine ⟨o, ho, fun hlacks => ?_, hout.1⟩
    rw [hlacks] at hout
    cases hout.2
  obtain ⟨o, ho, hfinished, -⟩ := hends source (by decide +kernel)
  obtain ⟨o', ho', hfinished', hout⟩ := hends source' (by decide +kernel)
  obtain ⟨hlike, hbinds⟩ := (unless_swaps_branches (.next 99 unlessText .new) parse_unlessText hbound
    (hother "quote" (by decide)) hcalls hparse hparse').2 99 99 o o' ho ho' hfinished hfinished'
  exact ⟨o, o', ho, ho', hlike, hout, hbinds⟩

end Session
end Monkey
