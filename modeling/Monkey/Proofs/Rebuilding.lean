import Monkey.Node.Rebuild
import Monkey.Proofs.Judgement
import Monkey.Proofs.Pointwise
import Monkey.Proofs.WellSorted

/-!
# Rebuilding trees

What a rewriting of single trees answers for trees whose parts are as they should
be, rebuilding answers for whole trees. "As it should be" is a relation between
a tree and what it is rebuilt to; `Node.Lifts` takes it from the parts of a tree
to the tree that is handed in, and the rewriting has to take it from there.

## Main results

* `Judgement.rebuild` — rebuilding answers a related tree.
* `Judgement.rebuildM` — the case of a property of answers.
-/

namespace Monkey

namespace Node

/-- A tree of a sort, related to the tree in whose place it stands. -/
def Placed (sort : Node → Bool) (rel : Node → Node → Prop) (n n' : Node) : Prop :=
  sort n' = true ∧ rel n n'

/-- The construct `n'` is `n` with other parts, each related to the part in whose place it stands
and of the sort that the place asks for. -/
inductive Lifts (rel : Node → Node → Prop) : Node → Node → Prop where
  | program {ss ss'} : Pointwise (Placed isStatement rel) ss ss' →
    Lifts rel (program ss) (program ss')
  | letStmt {name e e'} : Placed isExpression rel e e' → Lifts rel (letStmt name e) (letStmt name e')
  | returnStmt {e e'} : Placed isExpression rel e e' → Lifts rel (returnStmt e) (returnStmt e')
  | exprStmt {e e'} : Placed isExpression rel e e' → Lifts rel (exprStmt e) (exprStmt e')
  | block {ss ss'} : Pointwise (Placed isStatement rel) ss ss' → Lifts rel (block ss) (block ss')
  | ident {name} : Lifts rel (ident name) (ident name)
  | int {n} : Lifts rel (int n) (int n)
  | str {s} : Lifts rel (str s) (str s)
  | bool {b} : Lifts rel (bool b) (bool b)
  | array {es es'} : Pointwise (Placed isExpression rel) es es' → Lifts rel (array es) (array es')
  | hash {ps ps'} :
    Pointwise (fun p p' => Placed isExpression rel p.1 p'.1 ∧ Placed isExpression rel p.2 p'.2) ps ps' →
    Lifts rel (hash ps) (hash ps')
  | index {l l' i i'} : Placed isExpression rel l l' → Placed isExpression rel i i' →
    Lifts rel (index l i) (index l' i')
  | prefixOp {op r r'} : Placed isExpression rel r r' → Lifts rel (prefixOp op r) (prefixOp op r')
  | infixOp {l l' op r r'} : Placed isExpression rel l l' → Placed isExpression rel r r' →
    Lifts rel (infixOp l op r) (infixOp l' op r')
  | ifExpr {c c' t t' e e'} : Placed isExpression rel c c' → rel (.block t) (.block t') →
    Option.Rel (fun ss ss' => rel (.block ss) (.block ss')) e e' →
    Lifts rel (ifExpr c t e) (ifExpr c' t' e')
  | fnLit {ps b b'} : rel (.block b) (.block b') → Lifts rel (fnLit ps b) (fnLit ps b')
  | call {f f' args args'} : Placed isExpression rel f f' →
    Pointwise (Placed isExpression rel) args args' → Lifts rel (call f args) (call f' args')
  | macroLit {ps b b'} : rel (.block b) (.block b') → Lifts rel (macroLit ps b) (macroLit ps b')

namespace Lifts
variable {rel : Node → Node → Prop} {n n' : Node} (h : n.Lifts rel n')
include h

/-- Each operand is related to one of those before, and is an expression. -/
theorem operand : ∀ e' ∈ n'.operands, ∃ e ∈ n.operands, Placed isExpression rel e e' := by
  cases h with
  | letStmt he | returnStmt he | exprStmt he | prefixOp he => simpa using he
  | array hs => exact hs.exists_left
  | hash hs =>
    simp only [operands, List.mem_flatMap]
    rintro e' ⟨p', hp', he'⟩
    obtain ⟨p, hp, hk, hv⟩ := hs.exists_left p' hp'
    simp only [List.mem_cons, List.not_mem_nil, or_false] at he'
    rcases he' with rfl | rfl
    · exact ⟨p.1, ⟨p, hp, by simp⟩, hk⟩
    · exact ⟨p.2, ⟨p, hp, by simp⟩, hv⟩
  | index hl hr | infixOp hl hr => simpa using ⟨.inl hl, .inr hr⟩
  | ifExpr hc => simpa using hc
  | call hf hs =>
    refine List.forall_mem_cons.2 ⟨⟨_, List.mem_cons_self, hf⟩, fun e' he' => ?_⟩
    obtain ⟨e, he, hr⟩ := hs.exists_left e' he'
    exact ⟨e, List.mem_cons_of_mem _ he, hr⟩
  | _ => simp

/-- Each statement that is listed is related to one of those before, and is a statement. -/
theorem statement : ∀ s' ∈ n'.listed, ∃ s ∈ n.listed, Placed isStatement rel s s' := by
  cases h with
  | program hs | block hs => exact hs.exists_left
  | _ => simp

/-- Each body is related to one of those before. -/
theorem body : ∀ ss' ∈ n'.bodies, ∃ ss ∈ n.bodies, rel (.block ss) (.block ss') := by
  cases h with
  | ifExpr _ ht he =>
    cases he with
    | none => simpa using ht
    | some he => simpa using ⟨.inl ht, .inr he⟩
  | fnLit hb | macroLit hb => simpa using hb
  | _ => simp

/-- The parts are related one by one to those before. -/
theorem children : Pointwise rel n.children n'.children := by
  have hlisted : ∀ {sort : Node → Bool} {ns ns' : List Node},
      Pointwise (Placed sort rel) ns ns' → Pointwise rel ns ns' := fun h => h.mono fun _ _ h => h.2
  have hone : ∀ {c c' : Node}, rel c c' → Pointwise rel [c] [c'] := fun h => .cons h .nil
  cases h with
  | program hs | block hs | array hs => simpa [Node.children] using hlisted hs
  | letStmt he | returnStmt he | exprStmt he | prefixOp he => exact hone he.2
  | ident | int | str | bool => exact .nil
  | hash hps =>
    induction hps with
    | nil => exact .nil
    | cons hp _ ih => exact .cons hp.1.2 (.cons hp.2.2 ih)
  | index hl hr | infixOp hl hr => exact .cons hl.2 (hone hr.2)
  | ifExpr hc ht he =>
    cases he with
    | none => exact .cons hc.2 (hone ht)
    | some he => exact .cons hc.2 (.cons ht (hone he))
  | fnLit hb | macroLit hb => exact hone hb
  | call hf hs => simpa [Node.children] using .cons hf.2 (hlisted hs)

/-- Each part is related to one of those before. -/
theorem child : ∀ c' ∈ n'.children, ∃ c ∈ n.children, rel c c' :=
  h.children.exists_left

/-- Trees are related by way of their parts as the parts are. -/
theorem mono_of_mem {rel' : Node → Node → Prop}
    (hrel : ∀ c ∈ n.children, ∀ c', rel c c' → rel' c c') : n.Lifts rel' n' := by
  have hoperand : ∀ {sort : Node → Bool} {e e' : Node}, e ∈ n.operands → Placed sort rel e e' →
      Placed sort rel' e e' := fun he h => ⟨h.1, hrel _ (mem_children.2 (.inl he)) _ h.2⟩
  have hbody : ∀ {ss ss' : List Node}, ss ∈ n.bodies → rel (.block ss) (.block ss') →
      rel' (.block ss) (.block ss') :=
    fun hss => hrel _ (mem_children.2 (.inr (.inr ⟨_, hss, rfl⟩))) _
  have hlisted : ∀ {s s' : Node}, s ∈ n.listed → Placed isStatement rel s s' →
      Placed isStatement rel' s s' := fun hs h =>
    ⟨h.1, hrel _ (mem_children.2 (.inr (.inl hs))) _ h.2⟩
  cases h with
  | program hs => exact .program (hs.mono_of_mem fun s hs s' => hlisted hs)
  | block hs => exact .block (hs.mono_of_mem fun s hs s' => hlisted hs)
  | letStmt he => exact .letStmt (hoperand (by simp) he)
  | returnStmt he => exact .returnStmt (hoperand (by simp) he)
  | exprStmt he => exact .exprStmt (hoperand (by simp) he)
  | ident => exact .ident
  | int => exact .int
  | str => exact .str
  | bool => exact .bool
  | array hs => exact .array (hs.mono_of_mem fun e he e' => hoperand he)
  | hash hps =>
    refine .hash (hps.mono_of_mem fun p hp p' h => ?_)
    obtain ⟨hk, hv⟩ := mem_operands_hash hp
    exact ⟨hoperand hk h.1, hoperand hv h.2⟩
  | index hl hr => exact .index (hoperand (by simp) hl) (hoperand (by simp) hr)
  | prefixOp hr => exact .prefixOp (hoperand (by simp) hr)
  | infixOp hl hr => exact .infixOp (hoperand (by simp) hl) (hoperand (by simp) hr)
  | ifExpr hc ht he =>
    refine .ifExpr (hoperand (by simp) hc) (hbody (by simp) ht) ?_
    cases he with
    | none => exact .none
    | some he => exact .some (hbody (by simp) he)
  | fnLit hb => exact .fnLit (hbody (by simp) hb)
  | macroLit hb => exact .macroLit (hbody (by simp) hb)
  | call hf hs =>
    refine .call (hoperand (by simp) hf) (hs.mono_of_mem fun e he e' => hoperand ?_)
    exact List.mem_cons_of_mem _ he

/-- When parts are related to nothing but themselves, so are trees. -/
theorem eq_self (hrel : ∀ c ∈ n.children, ∀ c', rel c c' → c' = c) : n' = n := by
  have hparts : ∀ {sort : Node → Bool} {ns ns' : List Node},
      Pointwise (Placed sort fun c c' => c' = c) ns ns' → ns' = ns := fun hs => by
    simpa using hs.eq_map (f := id) fun c c' hc => hc.2
  have hself : n.Lifts (fun c c' => c' = c) n' := h.mono_of_mem hrel
  cases hself with
  | program hs | block hs | array hs => rw [hparts hs]
  | letStmt he | returnStmt he | exprStmt he | prefixOp he => rw [he.2]
  | index hl hr | infixOp hl hr => rw [hl.2, hr.2]
  | hash hps =>
    refine congrArg Node.hash ?_
    simpa using hps.eq_map (f := id) fun p p' hp => Prod.ext hp.1.2 hp.2.2
  | ifExpr hc ht he =>
    cases he with
    | none => rw [hc.2, Node.block.inj ht]
    | some he => rw [hc.2, Node.block.inj ht, Node.block.inj he]
  | fnLit hb | macroLit hb => rw [Node.block.inj hb]
  | call hf hs => rw [hf.2, hparts hs]
  | _ => rfl

/-- When parts are related to good parts only, a construct with such parts is made of good parts. -/
theorem built {good : Node → Prop} (hgood : ∀ c c', rel c c' → good c') : n'.Built good where
  operands e' he' := by
    obtain ⟨e, -, hsort, hr⟩ := h.operand e' he'
    exact ⟨hsort, hgood e e' hr⟩
  listed s' hs' := by
    obtain ⟨s, -, hsort, hr⟩ := h.statement s' hs'
    exact ⟨hsort, hgood s s' hr⟩
  bodies ss' hss' := by
    obtain ⟨ss, -, hr⟩ := h.body ss' hss'
    exact hgood _ _ hr

end Lifts

end Node

/-- What a rewriting `f` of single trees needs for `rel` to go from the parts of trees to the
trees: it answers a related tree when the parts of what it is given are related, and what it
answers in place of a part is of the right sort, or else rebuilding may stop with it. The trees
that are rebuilt are those that are `ok`, and their parts. -/
structure Judgement.Rewriting {m : Type → Type} [Monad m] (J : Judgement m) (f : Node → m Node)
    (ok : Node → Prop) (rel : Node → Node → Prop) (stop : SortError → Prop) : Prop where
  below : ∀ n, ok n → ∀ c ∈ n.children, ok c
  answers : ∀ n n', ok n → n.Lifts rel n' → J.holds (f n') (rel n)
  expression : ∀ n, ok n → ∀ e ∈ n.operands, ∀ e', rel e e' →
    e'.isExpression = true ∨ stop (.expressionExpected e')
  statement : ∀ n, ok n → ∀ s ∈ n.listed, ∀ s', rel s s' →
    s'.isStatement = true ∨ stop (.statementExpected s')
  block : ∀ ss, ok (.block ss) → ∀ n, rel (.block ss) n →
    n.isBlock = true ∨ stop (.blockExpected n)

namespace Judgement
variable {m : Type → Type} [Monad m] {J : Judgement m} {f : Node → m Node} {ok : Node → Prop}
  {rel : Node → Node → Prop} {stop : SortError → Prop}

/-- An answer that is accepted as an expression is one. -/
theorem expectExpression {e : Node} {x : ExceptT SortError m Node}
    (h : (J.except stop).holds x (rel e))
    (hsort : ∀ e', rel e e' → e'.isExpression = true ∨ stop (.expressionExpected e')) :
    (J.except stop).holds (Node.expectExpression x) (Node.Placed Node.isExpression rel e) := by
  refine bind _ h fun e' he => liftExcept J ?_
  unfold Node.asExpression
  split
  · next hs => exact ⟨hs, he⟩
  · next hs => exact (hsort e' he).resolve_left hs

/-- An answer that is accepted as a statement is one. -/
theorem expectStatement {s : Node} {x : ExceptT SortError m Node}
    (h : (J.except stop).holds x (rel s))
    (hsort : ∀ s', rel s s' → s'.isStatement = true ∨ stop (.statementExpected s')) :
    (J.except stop).holds (Node.expectStatement x) (Node.Placed Node.isStatement rel s) := by
  refine bind _ h fun s' hs => liftExcept J ?_
  unfold Node.asStatement
  split
  · next hsort' => exact ⟨hsort', hs⟩
  · next hsort' => exact (hsort s' hs).resolve_left hsort'

variable (h : J.Rewriting f ok rel stop)
include h

/-- A body of related statements is rebuilt to a related block. -/
theorem rebuildBlock [LawfulMonad m] {ss : List Node} (hok : ok (.block ss))
    {x : ExceptT SortError m (List Node)}
    (hx : (J.except stop).holds x (Pointwise (Node.Placed Node.isStatement rel) ss)) :
    (J.except stop).holds (Node.rebuildBlock f x) fun ss' => rel (.block ss) (.block ss') := by
  refine bind _ hx fun ss' hss => ?_
  refine bind _ (lift J (h.answers _ (.block ss') hok (.block hss))) fun n hn => liftExcept J ?_
  have hblock := h.block ss hok n hn
  unfold Node.asBlock
  split
  · exact hn
  · next hne =>
    refine hblock.resolve_left fun hb => ?_
    cases n with
    | block ss' => exact hne ss' rfl
    | _ => cases hb

/-- What is rebuilt in the place of an operand is related to it, if rebuilding it answers so. -/
theorem rebuildOperand {n e : Node} (hok : ok n) (he : e ∈ n.operands)
    (hrebuild : ok e → (J.except stop).holds (e.rebuildM f) (rel e)) :
    (J.except stop).holds (Node.expectExpression (e.rebuildM f))
      (Node.Placed Node.isExpression rel e) := by
  have hoke : ok e := h.below n hok e (Node.mem_children.2 (.inl he))
  exact expectExpression (hrebuild hoke) (h.expression n hok e he)

/-- What is rebuilt in the place of a body is related to it, if rebuilding its statements is. -/
theorem rebuildBody [LawfulMonad m] {n : Node} {ss : List Node} (hok : ok n) (hss : ss ∈ n.bodies)
    (hrebuild : ok (.block ss) → (J.except stop).holds (Node.rebuildStatements f ss)
      (Pointwise (Node.Placed Node.isStatement rel) ss)) :
    (J.except stop).holds (Node.rebuildBlock f (Node.rebuildStatements f ss))
      fun ss' => rel (.block ss) (.block ss') := by
  have hokb : ok (.block ss) := h.below n hok _ (Node.mem_children.2 (.inr (.inr ⟨ss, hss, rfl⟩)))
  exact rebuildBlock h hokb (hrebuild hokb)

/-! The recursion follows `Node.rebuildM`: one case for each construct, and one function for each
kind of list of parts. -/

mutual

/-- Rebuilding a tree answers a related tree. -/
theorem rebuild [LawfulMonad m] : ∀ n : Node, ok n → (J.except stop).holds (n.rebuildM f) (rel n)
  | .program ss, hok => by
    rw [Node.rebuildM]
    refine bind _ (rebuildListed ss hok (by simp)) fun ss' hss => ?_
    exact lift J (h.answers _ _ hok (.program hss))
  | .letStmt name e, hok => by
    rw [Node.rebuildM]
    refine bind _ (rebuildOperand h hok (by simp) (rebuild e)) fun e' he => ?_
    exact lift J (h.answers _ _ hok (.letStmt he))
  | .returnStmt e, hok => by
    rw [Node.rebuildM]
    refine bind _ (rebuildOperand h hok (by simp) (rebuild e)) fun e' he => ?_
    exact lift J (h.answers _ _ hok (.returnStmt he))
  | .exprStmt e, hok => by
    rw [Node.rebuildM]
    refine bind _ (rebuildOperand h hok (by simp) (rebuild e)) fun e' he => ?_
    exact lift J (h.answers _ _ hok (.exprStmt he))
  | .block ss, hok => by
    rw [Node.rebuildM]
    refine bind _ (rebuildBlock h hok (rebuildListed ss hok (by simp))) fun ss' hss => ?_
    exact (J.except _).pure hss
  | .ident name, hok => lift J (h.answers _ _ hok .ident)
  | .int n, hok => lift J (h.answers _ _ hok .int)
  | .str s, hok => lift J (h.answers _ _ hok .str)
  | .bool b, hok => lift J (h.answers _ _ hok .bool)
  | .array es, hok => by
    rw [Node.rebuildM]
    refine bind _ (rebuildExpressions es hok (by simp)) fun es' hes => ?_
    exact lift J (h.answers _ _ hok (.array hes))
  | .hash ps, hok => by
    rw [Node.rebuildM]
    refine bind _ (rebuildPairs ps hok fun p => Node.mem_operands_hash) fun ps' hps => ?_
    exact lift J (h.answers _ _ hok (.hash hps))
  | .index l i, hok => by
    rw [Node.rebuildM]
    refine bind _ (rebuildOperand h hok (by simp) (rebuild l)) fun l' hl => ?_
    refine bind _ (rebuildOperand h hok (by simp) (rebuild i)) fun i' hi => ?_
    exact lift J (h.answers _ _ hok (.index hl hi))
  | .prefixOp op r, hok => by
    rw [Node.rebuildM]
    refine bind _ (rebuildOperand h hok (by simp) (rebuild r)) fun r' hr => ?_
    exact lift J (h.answers _ _ hok (.prefixOp hr))
  | .infixOp l op r, hok => by
    rw [Node.rebuildM]
    refine bind _ (rebuildOperand h hok (by simp) (rebuild l)) fun l' hl => ?_
    refine bind _ (rebuildOperand h hok (by simp) (rebuild r)) fun r' hr => ?_
    exact lift J (h.answers _ _ hok (.infixOp hl hr))
  | .ifExpr c t e, hok => by
    rw [Node.rebuildM]
    refine bind _ (rebuildOperand h hok (by simp) (rebuild c)) fun c' hc => ?_
    refine bind _ (rebuildBody h hok (by simp) fun ht => rebuildListed t ht (by simp)) fun t' ht => ?_
    refine bind _ (rebuildElse e hok fun ss hss => ?_) fun e' he => ?_
    · exact List.mem_cons_of_mem _ (Option.mem_toList.2 hss)
    exact lift J (h.answers _ _ hok (.ifExpr hc ht he))
  | .fnLit ps body, hok => by
    rw [Node.rebuildM]
    refine bind _ (rebuildBody h hok (by simp) fun hb => rebuildListed body hb (by simp)) ?_
    exact fun body' hbody => lift J (h.answers _ _ hok (.fnLit hbody))
  | .call callee args, hok => by
    rw [Node.rebuildM]
    refine bind _ (rebuildOperand h hok (by simp) (rebuild callee)) fun callee' hcallee => ?_
    refine bind _ (rebuildExpressions args hok fun a => List.mem_cons_of_mem _) fun args' hargs => ?_
    exact lift J (h.answers _ _ hok (.call hcallee hargs))
  | .macroLit ps body, hok => by
    rw [Node.rebuildM]
    refine bind _ (rebuildBody h hok (by simp) fun hb => rebuildListed body hb (by simp)) ?_
    exact fun body' hbody => lift J (h.answers _ _ hok (.macroLit hbody))
termination_by structural n => n

/-- Rebuilding statements that a tree lists answers related statements. -/
theorem rebuildListed [LawfulMonad m] : ∀ ss : List Node, ∀ {n : Node}, ok n → (∀ s ∈ ss, s ∈ n.listed) →
    (J.except stop).holds (Node.rebuildStatements f ss)
      (Pointwise (Node.Placed Node.isStatement rel) ss)
  | [], _, _, _ => (J.except _).pure .nil
  | s :: ss, n, hok, hmem => by
    rw [Node.rebuildStatements]
    have hs : s ∈ n.listed := hmem s List.mem_cons_self
    have hoks : ok s := h.below n hok s (Node.mem_children.2 (.inr (.inl hs)))
    refine bind _ (expectStatement (rebuild s hoks) (h.statement n hok s hs)) fun s' hs' => ?_
    refine bind _ (rebuildListed ss hok fun s hs => hmem s (List.mem_cons_of_mem _ hs)) ?_
    exact fun ss' hss => (J.except _).pure (.cons hs' hss)
termination_by structural ss => ss

/-- Rebuilding operands of a tree answers related expressions. -/
theorem rebuildExpressions [LawfulMonad m] : ∀ es : List Node, ∀ {n : Node}, ok n →
    (∀ e ∈ es, e ∈ n.operands) →
    (J.except stop).holds (Node.rebuildExpressions f es)
      (Pointwise (Node.Placed Node.isExpression rel) es)
  | [], _, _, _ => (J.except _).pure .nil
  | e :: es, n, hok, hmem => by
    rw [Node.rebuildExpressions]
    refine bind _ (rebuildOperand h hok (hmem e List.mem_cons_self) (rebuild e)) fun e' he => ?_
    refine bind _ (rebuildExpressions es hok fun e he => hmem e (List.mem_cons_of_mem _ he)) ?_
    exact fun es' hes => (J.except _).pure (.cons he hes)
termination_by structural es => es

/-- Rebuilding the pairs of a tree answers pairs of related expressions. -/
theorem rebuildPairs [LawfulMonad m] : ∀ ps : List (Node × Node), ∀ {n : Node}, ok n →
    (∀ p ∈ ps, p.1 ∈ n.operands ∧ p.2 ∈ n.operands) →
    (J.except stop).holds (Node.rebuildPairs f ps) (Pointwise (fun p p' =>
      Node.Placed Node.isExpression rel p.1 p'.1 ∧ Node.Placed Node.isExpression rel p.2 p'.2) ps)
  | [], _, _, _ => (J.except _).pure .nil
  | (k, v) :: ps, n, hok, hmem => by
    rw [Node.rebuildPairs]
    obtain ⟨hk, hv⟩ := hmem (k, v) List.mem_cons_self
    refine bind _ (rebuildOperand h hok hk (rebuild k)) fun k' hk' => ?_
    refine bind _ (rebuildOperand h hok hv (rebuild v)) fun v' hv' => ?_
    refine bind _ (rebuildPairs ps hok fun p hp => hmem p (List.mem_cons_of_mem _ hp)) ?_
    exact fun ps' hps => (J.except _).pure (.cons ⟨hk', hv'⟩ hps)
termination_by structural ps => ps

/-- Rebuilding the branch after `else` answers a related one. -/
theorem rebuildElse [LawfulMonad m] : ∀ e : Option (List Node), ∀ {n : Node}, ok n →
    (∀ ss ∈ e, ss ∈ n.bodies) →
    (J.except stop).holds (Node.rebuildElse f e)
      (Option.Rel (fun ss ss' => rel (.block ss) (.block ss')) e)
  | none, _, _, _ => (J.except _).pure .none
  | some ss, n, hok, hmem => by
    rw [Node.rebuildElse]
    refine bind _ (rebuildBody h hok (hmem ss rfl) fun hb => rebuildListed ss hb (by simp)) ?_
    exact fun ss' hss => (J.except _).pure (.some hss)
termination_by structural e => e

end

section Properties
omit h
variable {good : Node → Prop} (hf : ∀ n, n.Built good → J.holds (f n) good)
include hf

/-- A rewriting that answers good trees for trees made of good parts. -/
theorem rewriting_of_built :
    J.Rewriting f (fun _ => True) (fun _ n => good n) fun _ => True where
  below _ _ _ _ := trivial
  answers _ n _ hn := hf n (hn.built fun _ _ => id)
  expression _ _ _ _ _ _ := .inr trivial
  statement _ _ _ _ _ _ := .inr trivial
  block _ _ _ _ := .inr trivial

/-- If `f` answers good trees for trees made of good parts, then rebuilding with `f` answers
good trees for all. -/
theorem rebuildM [LawfulMonad m] (n : Node) : (J.except fun _ => True).holds (n.rebuildM f) good :=
  rebuild (rewriting_of_built hf) n trivial

theorem rebuildStatements [LawfulMonad m] (ss : List Node) :
    (J.except fun _ => True).holds (Node.rebuildStatements f ss)
      fun ss' => ∀ s ∈ ss', s.isStatement = true ∧ good s := by
  have hlisted : ∀ s ∈ ss, s ∈ (Node.block ss).listed := fun s hs => hs
  refine mono _ (rebuildListed (rewriting_of_built hf) ss trivial hlisted) fun ss' hss s' hs' => ?_
  obtain ⟨s, -, hs⟩ := hss.exists_left s' hs'
  exact hs

end Properties

end Judgement
end Monkey
