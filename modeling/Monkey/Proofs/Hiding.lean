import Monkey.Proofs.UnquoteFree

/-!
# Trees that do not see some names

A tree that is *discreet* holds no `return`. If it is also *veiled*, it names none of
some hidden names, and it unquotes nothing. Whether hidden names are bound around it
makes no difference to a veiled tree: it looks none of them up, and what it quotes
stays as it stands, so it does not evaluate trees that it does not hold.

## Main definitions

* `Node.ReturnFree`, `Node.Avoids`, `Node.Discreet` — such trees.
* `Node.Quotable` — the trees that are quoted, if all that is evaluated is discreet.

## Main results

* `Node.asks_discreet` — what is asked when a discreet tree is rebuilt for a quotation.
-/

namespace Monkey

namespace Node

/-- No `return` stands in the tree. -/
def ReturnFree (n : Node) : Prop := ∀ t ∈ n.subtrees, ∀ e, t ≠ .returnStmt e

/-- None of the names stands in the tree to be looked up. -/
def Avoids (names : List String) (n : Node) : Prop :=
  ∀ t ∈ n.subtrees, ∀ name ∈ names, t ≠ .ident name

/-- The tree holds no `return`; and if it is veiled, it holds no call of `unquote` either, and
names none of the hidden names. -/
structure Discreet (hidden : List String) (veiled : Bool) (n : Node) : Prop where
  returnFree : n.ReturnFree
  avoids : veiled = true → n.Avoids hidden
  unquoteFree : veiled = true → n.UnquoteFree

theorem returnFree_iff {n : Node} :
    n.ReturnFree ↔ (∀ e, n ≠ .returnStmt e) ∧ ∀ c ∈ n.children, c.ReturnFree :=
  forall_subtrees_iff

theorem avoids_iff {names : List String} {n : Node} :
    n.Avoids names ↔ (∀ name ∈ names, n ≠ .ident name) ∧ ∀ c ∈ n.children, c.Avoids names :=
  forall_subtrees_iff

theorem Discreet.child {hidden : List String} {veiled : Bool} {n c : Node}
    (h : n.Discreet hidden veiled) (hc : c ∈ n.children) : c.Discreet hidden veiled where
  returnFree := (returnFree_iff.1 h.returnFree).2 c hc
  avoids hv := (avoids_iff.1 (h.avoids hv)).2 c hc
  unquoteFree hv := (unquoteFree_iff.1 (h.unquoteFree hv)).2 c hc

/-- Trees that may be quoted: every part is of the sort that its place asks for, and there is no
`return` in them. -/
def Quotable (n : Node) : Prop := n.WellSorted ∧ n.ReturnFree

/-- A tree may be quoted when it is no `return` and is made of parts in fitting places that may. -/
theorem quotable_iff {n : Node} :
    n.Quotable ↔ n.Built Quotable ∧ ∀ e, n ≠ .returnStmt e := by
  constructor
  · rintro ⟨hsorted, hfree⟩
    have hbuilt := wellSorted_iff.1 hsorted
    obtain ⟨hn, hbelow⟩ := returnFree_iff.1 hfree
    refine ⟨⟨fun e he => ?_, fun s hs => ?_, fun ss hss => ?_⟩, hn⟩
    · exact (hbuilt.operands e he).imp_right (⟨·, hbelow e (mem_children.2 (.inl he))⟩)
    · exact (hbuilt.listed s hs).imp_right (⟨·, hbelow s (mem_children.2 (.inr (.inl hs)))⟩)
    · exact ⟨hbuilt.bodies ss hss, hbelow _ (mem_children.2 (.inr (.inr ⟨ss, hss, rfl⟩)))⟩
  · rintro ⟨hbuilt, hn⟩
    refine ⟨wellSorted_iff.2 ⟨fun e he => (hbuilt.operands e he).imp_right And.left,
      fun s hs => (hbuilt.listed s hs).imp_right And.left, fun ss hss => (hbuilt.bodies ss hss).1⟩,
      returnFree_iff.2 ⟨hn, fun c hc => ?_⟩⟩
    rcases mem_children.1 hc with he | hs | ⟨ss, hss, rfl⟩
    · exact (hbuilt.operands c he).2.2
    · exact (hbuilt.listed c hs).2.2
    · exact (hbuilt.bodies ss hss).2

end Node

/-- A value is spliced in as a quotable expression, if the trees that are quoted in it are
quotable. -/
theorem Value.quotable_toNode {v : Value} {e : Node} (hv : v.Every (Quotes Node.Quotable))
    (h : v.toNode = .ok e) : e.Quotable := by
  refine ⟨(wellSorted_toNode v e (hv.imp fun _ hu i n hn => (hu i n hn).1) h).2, ?_⟩
  refine forall_subtrees_toNode ?_ (hv.imp fun _ hu i n hn => (hu i n hn).2) h
  rintro n hn e rfl
  cases hn

/-- A discreet tree is rebuilt for a quotation to a quotable tree. What is unquoted in it is
a quotable expression, and if it is veiled, nothing is. -/
theorem Node.asks_discreet {hidden : List String} {veiled : Bool} {arg : Node}
    (harg : arg.Discreet hidden veiled) {ok : Node → Prop}
    (hok : veiled = false → ∀ e : Node, e.isExpression = true → e.Quotable → ok e) :
    (Dialogue.asking (fun n => ∀ e, n = .call (.ident "unquote") [e] → ok e)
      (Node.Unquotes Node.Quotable)).holds (arg.rebuildM Dialogue.question).run
        (Judgement.Either (fun _ => True) Node.Quotable) := by
  let rel (n n' : Node) : Prop := n'.Quotable ∧ (veiled = true → n' = n)
  have hrewriting : (Dialogue.asking (fun n => ∀ e, n = .call (.ident "unquote") [e] → ok e)
      (Node.Unquotes Node.Quotable)).Rewriting Dialogue.question (Node.Discreet hidden veiled) rel
        fun _ => True := by
    refine ⟨fun n hn c hc => hn.child hc, fun n n' hn hlift => ?_, fun _ _ _ _ _ _ => .inr trivial,
      fun _ _ _ _ _ _ => .inr trivial, fun _ _ _ _ => .inr trivial⟩
    have hbuilt : n'.Built Node.Quotable := hlift.built fun c c' hc => hc.1
    have hsame : veiled = true → n' = n := fun hv => hlift.eq_self fun c _ c' hc => hc.2 hv
    have hplain : ∀ e, n' = .call (.ident "unquote") [e] → veiled = false := by
      intro e he
      refine Bool.eq_false_iff.2 fun hv => ?_
      exact (unquoteFree_iff.1 (hn.unquoteFree hv)).1 e ((hsame hv).symm.trans he)
    refine ⟨fun e he => ?_, fun n'' hanswer => ?_⟩
    · subst he
      obtain ⟨hexpression, hquotable⟩ := hbuilt.operands e (by simp)
      exact hok (hplain e rfl) e hexpression hquotable
    · cases hanswer with
      | splice hv hnode =>
        refine ⟨Value.quotable_toNode hv hnode, fun hveiled => ?_⟩
        exact absurd hveiled (by rw [hplain _ rfl]; decide)
      | stays =>
        refine ⟨quotable_iff.2 ⟨hbuilt, ?_⟩, hsame⟩
        rintro e rfl
        cases hlift with
        | returnStmt => exact (returnFree_iff.1 hn.returnFree).1 _ rfl
  refine Judgement.mono _ (Judgement.rebuild hrewriting arg harg) fun r hr => ?_
  cases r with
  | ok n => exact hr.1
  | error e => trivial

end Monkey
