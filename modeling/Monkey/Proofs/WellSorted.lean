import Monkey.Proofs.Subtrees

/-!
# Trees with every part in a fitting place

`Node` is one type for programs, statements and expressions, so a tree may hold
a statement where only an expression makes sense. `Node.WellSorted` excludes
that: statements stand in lists of statements and expressions everywhere else.

## Main results

* `Node.wellSorted_iff`, `Node.wellSorted_iff_subtrees` — a tree is well sorted
  when it is made of well-sorted parts in fitting places, and when all its
  subtrees have parts of fitting sorts.
-/

namespace Monkey

namespace Node

/-- The tree is made of good parts, each of the sort that its place asks for. -/
structure Built (good : Node → Prop) (n : Node) : Prop where
  operands : ∀ e ∈ n.operands, e.isExpression = true ∧ good e
  listed : ∀ s ∈ n.listed, s.isStatement = true ∧ good s
  bodies : ∀ ss ∈ n.bodies, good (block ss)

/-- In the tree and in all trees below it, every part is of the sort that its place asks for. -/
inductive WellSorted : Node → Prop where
  | intro {n : Node} (operands : ∀ e ∈ n.operands, e.isExpression = true)
      (listed : ∀ s ∈ n.listed, s.isStatement = true)
      (below : ∀ c ∈ n.children, WellSorted c) : WellSorted n

/-- A tree is well sorted when it is made of well-sorted parts in fitting places. -/
theorem wellSorted_iff {n : Node} : n.WellSorted ↔ n.Built WellSorted := by
  constructor
  · rintro ⟨ho, hl, below⟩
    exact ⟨fun e he => ⟨ho e he, below e (mem_children.2 (.inl he))⟩,
      fun s hs => ⟨hl s hs, below s (mem_children.2 (.inr (.inl hs)))⟩,
      fun ss hss => below _ (mem_children.2 (.inr (.inr ⟨ss, hss, rfl⟩)))⟩
  · rintro ⟨ho, hl, hb⟩
    refine .intro (fun e he => (ho e he).1) (fun s hs => (hl s hs).1) fun c hc => ?_
    rcases mem_children.1 hc with he | hs | ⟨ss, hss, rfl⟩
    · exact (ho c he).2
    · exact (hl c hs).2
    · exact hb ss hss

theorem Built.mono {good good' : Node → Prop} {n : Node} (h : n.Built good)
    (hgood : ∀ n, good n → good' n) : n.Built good' where
  operands e he := (h.operands e he).imp_right (hgood e)
  listed s hs := (h.listed s hs).imp_right (hgood s)
  bodies ss hss := hgood _ (h.bodies ss hss)

/-- What a tree is made of is in its children. -/
theorem Built.child {good : Node → Prop} {n : Node} (h : n.Built good) :
    ∀ c ∈ n.children, good c := by
  intro c hc
  rcases mem_children.1 hc with he | hs | ⟨ss, hss, rfl⟩
  · exact (h.operands c he).2
  · exact (h.listed c hs).2
  · exact h.bodies ss hss

/-- Without statements in it, a tree is as well sorted as its operands. -/
theorem wellSorted_of_operands {n : Node}
    (ho : ∀ e ∈ n.operands, e.isExpression = true ∧ e.WellSorted)
    (hl : n.listed = []) (hb : n.bodies = []) : n.WellSorted := by
  refine wellSorted_iff.2 ⟨ho, ?_, ?_⟩
  · rw [hl]
    nofun
  · rw [hb]
    nofun

/-- Whether the direct parts of a tree are of the sorts that their places ask for. -/
def fits (n : Node) : Bool := n.operands.all isExpression && n.listed.all isStatement

theorem fits_iff {n : Node} : n.fits = true ↔
    (∀ e ∈ n.operands, e.isExpression = true) ∧ ∀ s ∈ n.listed, s.isStatement = true := by
  simp [fits]

theorem wellSorted_iff_subtrees {n : Node} : n.WellSorted ↔ ∀ t ∈ n.subtrees, t.fits = true := by
  constructor
  · intro h
    induction h with
    | intro ho hl _ ih =>
      intro t ht
      rcases mem_subtrees.1 ht with rfl | ⟨c, hc, ht⟩
      · exact fits_iff.2 ⟨ho, hl⟩
      · exact ih c hc t ht
  · intro h
    induction n using child_induction with
    | h n ih =>
      have hn := fits_iff.1 (h n (self_mem_subtrees n))
      refine .intro hn.1 hn.2 fun c hc => ih c hc fun t ht => ?_
      exact h t (mem_subtrees.2 (.inr ⟨c, hc, ht⟩))

theorem WellSorted.child {n c : Node} (h : n.WellSorted) (hc : c ∈ n.children) : c.WellSorted :=
  (wellSorted_iff.1 h).child c hc

theorem WellSorted.of_mem_subtrees {n t : Node} (h : n.WellSorted) (ht : t ∈ n.subtrees) :
    t.WellSorted :=
  wellSorted_iff_subtrees.2 fun u hu => wellSorted_iff_subtrees.1 h u (mem_subtrees_trans ht hu)

instance : DecidablePred WellSorted := fun _ => decidable_of_iff _ wellSorted_iff_subtrees.symm

end Node

end Monkey
