import Monkey.Proofs.Judgement

/-!
# Rebuilding as a dialogue

Rebuilding a tree hands out some trees, gets an answer for each, and goes on with
the answers. Which tree is handed out next depends on the answers so far, and on
nothing else: not on what else goes on while an answer is found. A `Dialogue`
is the course of such questions by itself, and `Dialogue.lead` has them answered
in any monad.

A rewriting with effects can so be taken apart into what it asks, which is
a matter of trees alone, and how the answers are found.

## Main definitions

* `Translation` — a map of computations that goes through sequence.
* `Dialogue`, `Dialogue.lead` — a course of questions, and having it answered.
* `Dialogue.asking` — the judgement on what is asked.

## Main results

* `Translation.rebuild` — rebuilding, translated, is rebuilding with the
  translated rewriting.
* `Dialogue.lead_rebuildM` — the case of rebuilding in a dialogue.
-/

namespace Monkey

/-- A map of computations that goes through sequence. -/
structure Translation (m m' : Type → Type) [Monad m] [Monad m'] where
  apply : {α : Type} → m α → m' α
  pure {α : Type} (a : α) : apply (Pure.pure a) = Pure.pure a
  bind {α β : Type} (x : m α) (f : α → m β) : apply (x >>= f) = apply x >>= fun a => apply (f a)

namespace Translation
variable {m m' : Type → Type} [Monad m] [Monad m'] (T : Translation m m')

/-- A translation of computations that may stop early: they stop with the same. -/
def except (ε : Type) : Translation (ExceptT ε m) (ExceptT ε m') where
  apply x := ExceptT.mk (T.apply x.run)
  pure a := T.pure (Except.ok a)
  bind x f := by
    refine (T.bind x.run _).trans (bind_congr (m := m') fun r => ?_)
    cases r with
    | ok a => rfl
    | error e => exact T.pure (Except.error e)

variable {ε : Type}

theorem except_lift [LawfulMonad m] [LawfulMonad m'] {α : Type} (x : m α) :
    (T.except ε).apply (liftM x : ExceptT ε m α) = liftM (T.apply x) := by
  show T.apply (Except.ok <$> x) = Except.ok <$> T.apply x
  rw [map_eq_pure_bind, T.bind, map_eq_pure_bind]
  exact bind_congr fun a => T.pure (Except.ok a)

theorem except_liftExcept {α : Type} (r : Except ε α) :
    (T.except ε).apply (liftM r : ExceptT ε m α) = liftM r :=
  T.pure r

/-! ## Rebuilding -/

section Rebuilding

theorem expectExpression {x : ExceptT SortError m Node} {y : ExceptT SortError m' Node}
    (h : (T.except _).apply x = y) :
    (T.except _).apply (Node.expectExpression x) = Node.expectExpression y := by
  subst h
  exact ((T.except _).bind x _).trans (bind_congr fun e => T.except_liftExcept e.asExpression)

theorem expectStatement {x : ExceptT SortError m Node} {y : ExceptT SortError m' Node}
    (h : (T.except _).apply x = y) :
    (T.except _).apply (Node.expectStatement x) = Node.expectStatement y := by
  subst h
  exact ((T.except _).bind x _).trans (bind_congr fun s => T.except_liftExcept s.asStatement)

/-- Two sequences are related by a translation when their parts are. -/
theorem sequence {α β : Type} {x : m α} {x' : m' α} {f : α → m β} {f' : α → m' β}
    (hx : T.apply x = x') (hf : ∀ a, T.apply (f a) = f' a) : T.apply (x >>= f) = x' >>= f' := by
  rw [T.bind, hx]
  exact bind_congr hf

variable (f : Node → m Node)

theorem rebuildBlock [LawfulMonad m] [LawfulMonad m'] {x : ExceptT SortError m (List Node)}
    {y : ExceptT SortError m' (List Node)} (h : (T.except _).apply x = y) :
    (T.except _).apply (Node.rebuildBlock f x) = Node.rebuildBlock (fun n => T.apply (f n)) y :=
  (T.except _).sequence h fun ss =>
    (T.except _).sequence (T.except_lift (f (.block ss))) fun n => T.except_liftExcept n.asBlock

/-! The recursion follows `Node.rebuildM`: every sequence in it is one here. -/

mutual

/-- Rebuilding, translated, is rebuilding with the translated rewriting. -/
theorem rebuild [LawfulMonad m] [LawfulMonad m'] : ∀ n : Node,
    (T.except _).apply (n.rebuildM f) = n.rebuildM fun n => T.apply (f n)
  | .program ss => (T.except _).sequence (rebuildStatements ss) fun _ => T.except_lift _
  | .letStmt _ e =>
    (T.except _).sequence (T.expectExpression (rebuild e)) fun _ => T.except_lift _
  | .returnStmt e =>
    (T.except _).sequence (T.expectExpression (rebuild e)) fun _ => T.except_lift _
  | .exprStmt e =>
    (T.except _).sequence (T.expectExpression (rebuild e)) fun _ => T.except_lift _
  | .block ss =>
    (T.except _).sequence (T.rebuildBlock f (rebuildStatements ss)) fun _ => (T.except _).pure _
  | .ident _ => T.except_lift _
  | .int _ => T.except_lift _
  | .str _ => T.except_lift _
  | .bool _ => T.except_lift _
  | .array es => (T.except _).sequence (rebuildExpressions es) fun _ => T.except_lift _
  | .hash ps => (T.except _).sequence (rebuildPairs ps) fun _ => T.except_lift _
  | .index l i =>
    (T.except _).sequence (T.expectExpression (rebuild l)) fun _ =>
      (T.except _).sequence (T.expectExpression (rebuild i)) fun _ => T.except_lift _
  | .prefixOp _ r =>
    (T.except _).sequence (T.expectExpression (rebuild r)) fun _ => T.except_lift _
  | .infixOp l _ r =>
    (T.except _).sequence (T.expectExpression (rebuild l)) fun _ =>
      (T.except _).sequence (T.expectExpression (rebuild r)) fun _ => T.except_lift _
  | .ifExpr c t e =>
    (T.except _).sequence (T.expectExpression (rebuild c)) fun _ =>
      (T.except _).sequence (T.rebuildBlock f (rebuildStatements t)) fun _ =>
        (T.except _).sequence (rebuildElse e) fun _ => T.except_lift _
  | .fnLit _ body =>
    (T.except _).sequence (T.rebuildBlock f (rebuildStatements body)) fun _ => T.except_lift _
  | .call callee args =>
    (T.except _).sequence (T.expectExpression (rebuild callee)) fun _ =>
      (T.except _).sequence (rebuildExpressions args) fun _ => T.except_lift _
  | .macroLit _ body =>
    (T.except _).sequence (T.rebuildBlock f (rebuildStatements body)) fun _ => T.except_lift _
termination_by structural n => n

theorem rebuildStatements [LawfulMonad m] [LawfulMonad m'] : ∀ ss : List Node,
    (T.except _).apply (Node.rebuildStatements f ss) =
      Node.rebuildStatements (fun n => T.apply (f n)) ss
  | [] => (T.except _).pure _
  | s :: ss =>
    (T.except _).sequence (T.expectStatement (rebuild s)) fun _ =>
      (T.except _).sequence (rebuildStatements ss) fun _ => (T.except _).pure _
termination_by structural ss => ss

theorem rebuildExpressions [LawfulMonad m] [LawfulMonad m'] : ∀ es : List Node,
    (T.except _).apply (Node.rebuildExpressions f es) =
      Node.rebuildExpressions (fun n => T.apply (f n)) es
  | [] => (T.except _).pure _
  | e :: es =>
    (T.except _).sequence (T.expectExpression (rebuild e)) fun _ =>
      (T.except _).sequence (rebuildExpressions es) fun _ => (T.except _).pure _
termination_by structural es => es

theorem rebuildPairs [LawfulMonad m] [LawfulMonad m'] : ∀ ps : List (Node × Node),
    (T.except _).apply (Node.rebuildPairs f ps) =
      Node.rebuildPairs (fun n => T.apply (f n)) ps
  | [] => (T.except _).pure _
  | (k, v) :: ps =>
    (T.except _).sequence (T.expectExpression (rebuild k)) fun _ =>
      (T.except _).sequence (T.expectExpression (rebuild v)) fun _ =>
        (T.except _).sequence (rebuildPairs ps) fun _ => (T.except _).pure _
termination_by structural ps => ps

theorem rebuildElse [LawfulMonad m] [LawfulMonad m'] : ∀ e : Option (List Node),
    (T.except _).apply (Node.rebuildElse f e) = Node.rebuildElse (fun n => T.apply (f n)) e
  | none => (T.except _).pure _
  | some ss =>
    (T.except _).sequence (T.rebuildBlock f (rebuildStatements ss)) fun _ => (T.except _).pure _
termination_by structural e => e

end

end Rebuilding
end Translation

/-- A course of questions: each is a tree, and is answered by a tree before the next is asked. -/
inductive Dialogue (α : Type) where
  | done (answer : α)
  | ask (question : Node) (resume : Node → Dialogue α)

namespace Dialogue

/-- Continues a dialogue with `f` once it is done. -/
def bind {α β : Type} : Dialogue α → (α → Dialogue β) → Dialogue β
  | done a, f => f a
  | ask n resume, f => ask n fun n' => (resume n').bind f

instance : Monad Dialogue where
  pure := done
  bind := bind

theorem bind_done {α : Type} (x : Dialogue α) : x.bind done = x := by
  induction x with
  | done a => rfl
  | ask n resume ih => simp only [bind, ih]

protected theorem bind_assoc {α β γ : Type} (x : Dialogue α) (f : α → Dialogue β)
    (g : β → Dialogue γ) : (x.bind f).bind g = x.bind fun a => (f a).bind g := by
  induction x with
  | done a => rfl
  | ask n resume ih => simp only [bind, ih]

instance : LawfulMonad Dialogue :=
  LawfulMonad.mk' Dialogue bind_done (fun _ _ => rfl) Dialogue.bind_assoc

/-- Asks for a tree. -/
def question (n : Node) : Dialogue Node := ask n done

section Lead
variable {m : Type → Type} [Monad m] (answer : Node → m Node)

/-- Has the questions answered by `answer`. -/
def lead {α : Type} : Dialogue α → m α
  | done a => return a
  | ask n resume => do
    let n' ← answer n
    (resume n').lead

variable [LawfulMonad m]

/-- Having questions answered goes through sequence. -/
def leading : Translation Dialogue m where
  apply x := x.lead answer
  pure _ := rfl
  bind {α β} x f := by
    show (x.bind f).lead answer = _
    induction x with
    | done a => exact (pure_bind a fun a => (f a).lead answer).symm
    | ask n resume ih => simp only [bind, lead, ih, bind_assoc]

theorem lead_question (n : Node) : (question n).lead answer = answer n :=
  bind_pure (answer n)

/-- A tree that is rebuilt in a dialogue, with the questions answered, is rebuilt with the answers. -/
theorem lead_rebuildM (f : Node → Dialogue Node) (n : Node) :
    (n.rebuildM f).run.lead answer = (n.rebuildM fun n => (f n).lead answer).run :=
  congrArg ExceptT.run ((leading answer).rebuild f n)

/-- A tree is rebuilt by asking for each of its trees in turn. -/
theorem lead_rebuildM_question (n : Node) :
    (n.rebuildM question).run.lead answer = (n.rebuildM answer).run := by
  simp only [lead_rebuildM, lead_question]

end Lead

/-! ## What is asked -/

/-- All questions are `ok`, as long as the answers are those that are expected, and the outcome
satisfies `post`. -/
def Asks (ok : Node → Prop) (answers : Node → Node → Prop) {α : Type} (post : α → Prop) :
    Dialogue α → Prop
  | done a => post a
  | ask n resume => ok n ∧ ∀ n', answers n n' → (resume n').Asks ok answers post

/-- Where all questions and all outcomes will do, they are as they should be. -/
theorem asks_of_forall {ok : Node → Prop} {answers : Node → Node → Prop} {α : Type}
    {post : α → Prop} (hok : ∀ n, ok n) (hpost : ∀ a, post a) (x : Dialogue α) :
    x.Asks ok answers post := by
  induction x with
  | done a => exact hpost a
  | ask n resume ih => exact ⟨hok n, fun n' _ => ih n'⟩

/-- The judgement on the questions of dialogues. -/
def asking (ok : Node → Prop) (answers : Node → Node → Prop) : Judgement Dialogue where
  holds x post := x.Asks ok answers post
  pure h := h
  bind {α β x f mid post} hx hf := by
    show (x.bind f).Asks ok answers post
    induction x with
    | done a => exact hf a hx
    | ask n resume ih => exact ⟨hx.1, fun n' hn => ih n' (hx.2 n' hn)⟩
  mono {α x mid post} hx h := by
    induction x with
    | done a => exact h a hx
    | ask n resume ih => exact ⟨hx.1, fun n' hn => ih n' (hx.2 n' hn)⟩

end Dialogue
end Monkey
