import Monkey.Proofs.Rebuilding

/-!
# Rebuilding child by child

`Node.rebuildM` goes through the constructs one by one. For a well-sorted tree it can be
said at once: the children are rebuilt one after another, each answer is checked against
the sort of the child in whose place it is to stand, and the construct is handed in with
the answers for its children. What sort a place asks for can be read off the child that
stands there.

## Main definitions

* `Node.withChildren` — a construct with other children.
* `Node.suits`, `Node.refusal`, `Node.accept` — the check of an answer for a child.
* `Node.acceptRoot` — the check of the answer for the tree that is rebuilt.
* `Node.rebuildChild` — a child rebuilt and its answer checked.
* `Node.handIn` — a tree handed in behind its children.

## Main results

* `Node.lifts_withChildren` — a construct with other fitting children is the same construct.
* `Node.rebuildM_eq_root`, `Node.rebuildChild_eq` — rebuilding, child by child.
-/

namespace Monkey

namespace Node

/-! ## Other children -/

/-- Trees two by two. -/
def inPairs : List Node → List (Node × Node)
  | k :: v :: ns => (k, v) :: inPairs ns
  | _ => []

/-- The construct with other trees for its children, which must be as many and as fitting. -/
def withChildren : Node → List Node → Node
  | program _, cs => program cs
  | letStmt name _, [e] => letStmt name e
  | returnStmt _, [e] => returnStmt e
  | exprStmt _, [e] => exprStmt e
  | block _, cs => block cs
  | array _, cs => array cs
  | hash _, cs => hash (inPairs cs)
  | index _ _, [l, i] => index l i
  | prefixOp op _, [r] => prefixOp op r
  | infixOp _ op _, [l, r] => infixOp l op r
  | ifExpr _ _ _, [c, block t] => ifExpr c t none
  | ifExpr _ _ _, [c, block t, block e] => ifExpr c t (some e)
  | fnLit ps _, [block body] => fnLit ps body
  | call _ _, callee :: args => call callee args
  | macroLit ps _, [block body] => macroLit ps body
  | n, _ => n

/-- Whether an answer may stand in the place of a child: a block in that of a block, a statement
in that of a statement, and an expression in that of an expression. -/
def suits (c answer : Node) : Bool :=
  if c.isBlock then answer.isBlock
  else if c.isStatement then answer.isStatement
  else answer.isExpression

/-- The error of an answer that may not. -/
def refusal (c answer : Node) : SortError :=
  if c.isBlock then .blockExpected answer
  else if c.isStatement then .statementExpected answer
  else .expressionExpected answer

/-- Accepts an answer in the place of a child. -/
def accept (c answer : Node) : Except SortError Node :=
  if c.suits answer then .ok answer else .error (c.refusal answer)

/-- Accepts an answer for a tree that is no child: in the place of a block a block, and else
anything. -/
def acceptRoot (n answer : Node) : Except SortError Node :=
  if n.isBlock then n.accept answer else .ok answer

theorem isBlock_iff {n : Node} : n.isBlock = true ↔ ∃ ss, n = block ss := by
  cases n <;> simp [isBlock]

theorem isBlock_of_isExpression {n : Node} (h : n.isExpression = true) : n.isBlock = false := by
  cases n <;> first | rfl | cases h

theorem isStatement_of_isExpression {n : Node} (h : n.isExpression = true) :
    n.isStatement = false := by
  cases n <;> first | rfl | cases h

theorem suits_expression {c : Node} (h : c.isExpression = true) (answer : Node) :
    c.suits answer = answer.isExpression := by
  rw [suits, isBlock_of_isExpression h, isStatement_of_isExpression h]
  rfl

theorem accept_expression {c : Node} (h : c.isExpression = true) (answer : Node) :
    c.accept answer = answer.asExpression := by
  rw [accept, suits_expression h, refusal, isBlock_of_isExpression h, isStatement_of_isExpression h]
  rfl

theorem accept_statement {c : Node} (hblock : c.isBlock = false) (h : c.isStatement = true)
    (answer : Node) : c.accept answer = answer.asStatement := by
  rw [accept, suits, refusal, hblock, h]
  rfl

theorem suits_statement {c answer : Node} (hc : c.isStatement = true) (h : c.suits answer = true) :
    answer.isStatement = true := by
  rw [suits, if_pos hc] at h
  split at h
  · obtain ⟨ss, rfl⟩ := isBlock_iff.1 h
    rfl
  · exact h

theorem suits_block {ss : List Node} {answer : Node} (h : (block ss).suits answer = true) :
    ∃ ss', answer = block ss' :=
  isBlock_iff.1 h

section WithChildren
variable {cs : List Node}

/-- A tree in the place of another one, to which nothing but its sort relates it. -/
abbrev Stands (sort : Node → Bool) : Node → Node → Prop := Placed sort fun _ _ => True

theorem stands_operands {es : List Node} (hes : ∀ e ∈ es, e.isExpression = true)
    (h : Pointwise (fun c c' => c.suits c' = true) es cs) :
    Pointwise (Stands isExpression) es cs :=
  h.mono_of_mem fun e he e' hsuits => ⟨by rwa [suits_expression (hes e he)] at hsuits, trivial⟩

theorem stands_listed {ss : List Node} (hss : ∀ s ∈ ss, s.isStatement = true)
    (h : Pointwise (fun c c' => c.suits c' = true) ss cs) :
    Pointwise (Stands isStatement) ss cs :=
  h.mono_of_mem fun s hs _ hsuits => ⟨suits_statement (hss s hs) hsuits, trivial⟩

/-- Keys and values stay two by two. -/
theorem stands_pairs {ps : List (Node × Node)}
    (h : Pointwise (Stands isExpression) (ps.flatMap fun p => [p.1, p.2]) cs) :
    Pointwise (fun p p' => Stands isExpression p.1 p'.1 ∧ Stands isExpression p.2 p'.2) ps
        (inPairs cs) ∧
      ((inPairs cs).flatMap fun p => [p.1, p.2]) = cs := by
  induction ps generalizing cs with
  | nil =>
    cases h
    exact ⟨.nil, rfl⟩
  | cons p ps ih =>
    rw [List.flatMap_cons, List.cons_append, List.singleton_append] at h
    cases h with
    | cons hk h =>
      cases h with
      | cons hv h =>
        obtain ⟨hpairs, hsame⟩ := ih h
        refine ⟨.cons ⟨hk, hv⟩ hpairs, ?_⟩
        rw [inPairs, List.flatMap_cons, hsame]
        rfl

/-- A construct with other children is the same construct, and has these children, if each of them
may stand in its place. -/
theorem lifts_withChildren {n : Node} (hn : n.WellSorted)
    (h : Pointwise (fun c c' => c.suits c' = true) n.children cs) :
    n.Lifts (fun _ _ => True) (n.withChildren cs) ∧ (n.withChildren cs).children = cs := by
  obtain ⟨hoperands, hlisted, -⟩ := wellSorted_iff.1 hn
  have hexpressions : ∀ e ∈ n.operands, e.isExpression = true := fun e he => (hoperands e he).1
  have hstatements : ∀ s ∈ n.listed, s.isStatement = true := fun s hs => (hlisted s hs).1
  cases n with
  | program ss =>
    have hstands := stands_listed hstatements (by simpa [children] using h)
    exact ⟨.program hstands, by simp [withChildren, children]⟩
  | block ss =>
    have hstands := stands_listed hstatements (by simpa [children] using h)
    exact ⟨.block hstands, by simp [withChildren, children]⟩
  | array es =>
    have hstands := stands_operands hexpressions (by simpa [children] using h)
    exact ⟨.array hstands, by simp [withChildren, children]⟩
  | hash ps =>
    have hstands := stands_operands hexpressions (by simpa [children] using h)
    obtain ⟨hpairs, hsame⟩ := stands_pairs hstands
    exact ⟨.hash hpairs, by simpa [withChildren, children] using hsame⟩
  | call callee args =>
    have hstands := stands_operands hexpressions (by simpa [children] using h)
    cases hstands with
    | cons hcallee hargs => exact ⟨.call hcallee hargs, by simp [withChildren, children]⟩
  | ident | int | str | bool =>
    cases h
    exact ⟨by constructor, rfl⟩
  | letStmt name e | returnStmt e | exprStmt e | prefixOp op e =>
    have hstands := stands_operands hexpressions (by simpa [children] using h)
    cases hstands with
    | cons he hnil =>
      cases hnil
      exact ⟨by constructor; exact he, rfl⟩
  | index l r | infixOp l op r =>
    have hstands := stands_operands hexpressions (by simpa [children] using h)
    cases hstands with
    | cons hl hstands =>
      cases hstands with
      | cons hr hnil =>
        cases hnil
        exact ⟨by constructor <;> assumption, rfl⟩
  | fnLit ps body | macroLit ps body =>
    cases h with
    | cons hbody hnil =>
      cases hnil
      obtain ⟨body', rfl⟩ := suits_block hbody
      exact ⟨by constructor; trivial, rfl⟩
  | ifExpr c t e =>
    cases h with
    | cons hc h =>
      cases h with
      | cons ht h =>
        have hstands := (stands_operands hexpressions (.cons hc .nil))
        obtain ⟨t', rfl⟩ := suits_block ht
        cases hstands with
        | cons hc _ =>
          cases e with
          | none =>
            cases h
            exact ⟨.ifExpr hc trivial .none, rfl⟩
          | some e =>
            cases h with
            | cons he hnil =>
              cases hnil
              obtain ⟨e', rfl⟩ := suits_block he
              exact ⟨.ifExpr hc trivial (.some trivial), rfl⟩

end WithChildren

/-! ## Child by child -/

section
variable {m : Type → Type} [Monad m] (f : Node → m Node)

/-- Rebuilds a child of a tree and checks the answer. -/
def rebuildChild (c : Node) : ExceptT SortError m Node := do
  let answer ← c.rebuildM f
  c.accept answer

/-- Rebuilds the children of a tree one after another, and hands the tree in with what they have
been rebuilt to. -/
def handIn (n : Node) : ExceptT SortError m Node := do
  let cs ← n.children.mapM (rebuildChild f)
  f (n.withChildren cs)

variable [LawfulMonad m]

/-- Rebuilding a block answers the block that stands for a body. -/
theorem rebuildChild_block (ss : List Node) :
    rebuildChild f (block ss) = (do
      let ss ← rebuildBlock f (rebuildStatements f ss)
      return block ss) := by
  simp only [rebuildChild, rebuildM, bind_assoc, pure_bind]
  rfl

theorem rebuildStatements_eq {ss : List Node} (h : ∀ s ∈ ss, s.isStatement = true) :
    rebuildStatements f ss = ss.mapM (rebuildChild f) := by
  induction ss with
  | nil => rfl
  | cons s ss ih =>
    obtain ⟨hs, hss⟩ := List.forall_mem_cons.1 h
    have hhead : expectStatement (s.rebuildM f) = rebuildChild f s := by
      cases hblock : s.isBlock with
      | true =>
        obtain ⟨ss, rfl⟩ := isBlock_iff.1 hblock
        rw [rebuildChild_block, expectStatement, rebuildM]
        simp only [bind_assoc, pure_bind]
        rfl
      | false =>
        simp only [expectStatement, rebuildChild, accept_statement hblock hs]
    rw [rebuildStatements, hhead, ih hss, List.mapM_cons]

omit [LawfulMonad m] in
theorem rebuildOperand_eq {e : Node} (h : e.isExpression = true) :
    expectExpression (e.rebuildM f) = rebuildChild f e := by
  simp only [expectExpression, rebuildChild, accept_expression h]

theorem rebuildExpressions_eq {es : List Node} (h : ∀ e ∈ es, e.isExpression = true) :
    rebuildExpressions f es = es.mapM (rebuildChild f) := by
  induction es with
  | nil => rfl
  | cons e es ih =>
    obtain ⟨he, hes⟩ := List.forall_mem_cons.1 h
    rw [rebuildExpressions, rebuildOperand_eq f he, ih hes, List.mapM_cons]

theorem rebuildPairs_eq {ps : List (Node × Node)}
    (h : ∀ e ∈ (hash ps).operands, e.isExpression = true) :
    rebuildPairs f ps = inPairs <$> (hash ps).operands.mapM (rebuildChild f) := by
  induction ps with
  | nil => simp [rebuildPairs, inPairs]
  | cons p ps ih =>
    obtain ⟨k, v⟩ := p
    simp only [operands, List.flatMap_cons, List.cons_append, List.nil_append] at h ih ⊢
    obtain ⟨hk, h⟩ := List.forall_mem_cons.1 h
    obtain ⟨hv, h⟩ := List.forall_mem_cons.1 h
    rw [rebuildPairs, rebuildOperand_eq f hk, rebuildOperand_eq f hv, ih h]
    simp [List.mapM_cons, inPairs]

/-- A well-sorted tree that is no block is rebuilt by handing it in behind its children. -/
theorem rebuildM_eq {n : Node} (hn : n.WellSorted) (hblock : n.isBlock = false) :
    n.rebuildM f = handIn f n := by
  rw [handIn]
  obtain ⟨hoperands, hlisted, -⟩ := wellSorted_iff.1 hn
  have hstatements : ∀ s ∈ n.listed, s.isStatement = true := fun s hs => (hlisted s hs).1
  have hexpressions : ∀ e ∈ n.operands, e.isExpression = true := fun e he => (hoperands e he).1
  have hoperand : ∀ e ∈ n.operands, expectExpression (e.rebuildM f) = rebuildChild f e :=
    fun e he => rebuildOperand_eq f (hexpressions e he)
  cases n with
  | block ss => cases hblock
  | ident | int | str | bool => simp [rebuildM, children, withChildren]
  | program ss =>
    have hss : rebuildStatements f ss = ss.mapM (rebuildChild f) := rebuildStatements_eq f hstatements
    simp [rebuildM, hss, children, withChildren]
  | array es =>
    have hes : rebuildExpressions f es = es.mapM (rebuildChild f) :=
      rebuildExpressions_eq f hexpressions
    simp [rebuildM, hes, children, withChildren]
  | hash ps => simp [rebuildM, rebuildPairs_eq f hexpressions, children, withChildren]
  | call callee args =>
    have hargs : rebuildExpressions f args = args.mapM (rebuildChild f) :=
      rebuildExpressions_eq f fun e he => hexpressions e (List.mem_cons_of_mem _ he)
    simp [rebuildM, hoperand callee (by simp), hargs, children, List.mapM_cons, withChildren]
  | letStmt name e | returnStmt e | exprStmt e | prefixOp op e =>
    simp [rebuildM, hoperand e (by simp), children, withChildren]
  | index l r | infixOp l op r =>
    simp [rebuildM, hoperand l (by simp), hoperand r (by simp), children, withChildren]
  | fnLit ps body | macroLit ps body =>
    simp [rebuildM, children, rebuildChild_block, withChildren]
  | ifExpr c t e =>
    cases e with
    | none =>
      simp [rebuildM, rebuildElse, hoperand c (by simp), children, rebuildChild_block, withChildren]
    | some e =>
      simp [rebuildM, rebuildElse, hoperand c (by simp), children, rebuildChild_block, withChildren]

/-- A block is rebuilt to what is put in its place as a child. -/
theorem rebuildM_block (ss : List Node) : (block ss).rebuildM f = rebuildChild f (block ss) := by
  rw [rebuildChild_block, rebuildM]

/-- A block that is accepted as a body is accepted in the place of a block. -/
theorem map_asBlock (ss : List Node) (answer : Node) :
    block <$> (liftM answer.asBlock : ExceptT SortError m (List Node)) =
      liftM ((block ss).accept answer) := by
  have haccept : (block ss).accept answer = answer.asBlock.map block := by
    cases answer <;> rfl
  rw [haccept]
  refine ExceptT.ext ?_
  rw [ExceptT.run_map]
  exact map_pure ..

/-- A well-sorted child is rebuilt by handing it in behind its children and checking the answer. -/
theorem rebuildChild_eq {c : Node} (hc : c.WellSorted) :
    rebuildChild f c = (do
      let answer ← handIn f c
      c.accept answer) := by
  cases hblock : c.isBlock with
  | false => rw [rebuildChild, rebuildM_eq f hc hblock]
  | true =>
    obtain ⟨ss, rfl⟩ := isBlock_iff.1 hblock
    have hstatements : ∀ s ∈ ss, s.isStatement = true := fun s hs =>
      ((wellSorted_iff.1 hc).listed s hs).1
    rw [rebuildChild_block, rebuildBlock, rebuildStatements_eq f hstatements, handIn]
    simp [children, withChildren, map_asBlock ss]

/-- Any well-sorted tree is rebuilt by handing it in behind its children and checking the answer. -/
theorem rebuildM_eq_root {n : Node} (hn : n.WellSorted) :
    n.rebuildM f = (do
      let answer ← handIn f n
      n.acceptRoot answer) := by
  cases hblock : n.isBlock with
  | false =>
    simp only [rebuildM_eq f hn hblock, acceptRoot, hblock]
    exact (bind_pure _).symm
  | true =>
    obtain ⟨ss, rfl⟩ := isBlock_iff.1 hblock
    rw [rebuildM_block, rebuildChild_eq f hn]
    rfl

end
end Node
end Monkey
