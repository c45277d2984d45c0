import Monkey.Proofs.Rebuilding
import Monkey.Proofs.Splicing

/-!
# Where `return` may stand

An `if` is an expression, and its branches may hold a `return`. A tree is
*disciplined* when every `if` with a `return` in it is a statement of its own. Then
no operand ever holds a `return`, except in the function and macro literals inside
it, which are returned from on their own.

Quoting keeps trees disciplined. What is put in for an `unquote` is a tree without
a `return`, and everything else in a quotation keeps its place.

## Main definitions

* `Node.Returns` — a tree that holds a `return` of its own.
* `Node.Disciplined`, `Node.Orderly` — trees in which operands do not.

## Main results

* `Node.Orderly.operand` — operands hold no `return`.
* `Node.Orderly.of_lifts` — trees stay orderly when they are rebuilt.
-/

namespace Monkey

namespace Node

/-- The tree holds a `return` that is not inside a function or macro literal in it. -/
inductive Returns : Node → Prop where
  | here {e : Node} : Returns (returnStmt e)
  | inside {n c : Node} : (∀ ps body, n ≠ fnLit ps body ∧ n ≠ macroLit ps body) →
    c ∈ n.children → Returns c → Returns n

/-- Whether a tree is an `if`. -/
def isIf : Node → Bool
  | ifExpr _ _ _ => true
  | _ => false

/-- Every `if` in the tree that holds a `return` is the whole expression of a statement. -/
def Disciplined (n : Node) : Prop :=
  ∀ t ∈ n.subtrees, ∀ c ∈ t.operands, c.isIf = true → c.Returns → t = exprStmt c

theorem disciplined_iff {n : Node} : n.Disciplined ↔
    (∀ c ∈ n.operands, c.isIf = true → c.Returns → n = exprStmt c) ∧
      ∀ c ∈ n.children, c.Disciplined :=
  forall_subtrees_iff

/-- Well sorted and disciplined. -/
structure Orderly (n : Node) : Prop where
  wellSorted : n.WellSorted
  disciplined : n.Disciplined

namespace Orderly
variable {n : Node} (h : n.Orderly)
include h

theorem child {c : Node} (hc : c ∈ n.children) : c.Orderly where
  wellSorted := h.wellSorted.child hc
  disciplined := (disciplined_iff.1 h.disciplined).2 c hc

/-- An expression holds no `return` if it is no `if`. -/
theorem not_returns (he : n.isExpression = true) (hif : n.isIf = false) : ¬ n.Returns := by
  intro hret
  induction hret with
  | here => cases he
  | @inside n c hbody hc _ ih =>
    have hoperand : c ∈ n.operands := by
      cases n with
      | fnLit ps body => exact absurd rfl (hbody ps body).1
      | macroLit ps body => exact absurd rfl (hbody ps body).2
      | program | letStmt | returnStmt | exprStmt | block => cases he
      | ifExpr => cases hif
      | ident | int | str | bool => simp [children] at hc
      | _ => simpa [children] using hc
    have hce : c.isExpression = true := ((wellSorted_iff.1 h.wellSorted).operands c hoperand).1
    cases hcif : c.isIf with
    | true =>
      obtain rfl := (disciplined_iff.1 h.disciplined).1 c hoperand hcif ‹_›
      cases he
    | false => exact ih (h.child hc) hce hcif

/-- An operand holds no `return`, unless it is a statement's whole expression. -/
theorem operand {c : Node} (hc : c ∈ n.operands) (hn : n ≠ exprStmt c) :
    c.isExpression = true ∧ c.Orderly ∧ ¬ c.Returns := by
  have hce : c.isExpression = true := ((wellSorted_iff.1 h.wellSorted).operands c hc).1
  have hoc : c.Orderly := h.child (mem_children.2 (.inl hc))
  refine ⟨hce, hoc, fun hret => ?_⟩
  cases hcif : c.isIf with
  | true => exact hn ((disciplined_iff.1 h.disciplined).1 c hc hcif hret)
  | false => exact hoc.not_returns hce hcif hret

end Orderly

/-- Trees without a `return` of their own that are orderly all the same. -/
def Calm (n : Node) : Prop := n.Orderly ∧ ¬ n.Returns

/-- Expressions of calm parts are calm. -/
theorem calm_of_built {n : Node} (he : n.isExpression = true) (hn : n.Built Calm) : n.Calm := by
  have hchildren : ∀ c ∈ n.children, c.Calm := by
    intro c hc
    rcases mem_children.1 hc with ho | hs | ⟨ss, hss, rfl⟩
    · exact (hn.operands c ho).2
    · exact (hn.listed c hs).2
    · exact hn.bodies ss hss
  refine ⟨⟨wellSorted_iff.2 ?_, disciplined_iff.2 ⟨?_, ?_⟩⟩, ?_⟩
  · exact ⟨fun e h => ⟨(hn.operands e h).1, (hn.operands e h).2.1.wellSorted⟩,
      fun s h => ⟨(hn.listed s h).1, (hn.listed s h).2.1.wellSorted⟩,
      fun ss h => (hn.bodies ss h).1.wellSorted⟩
  · exact fun c hc _ hret => absurd hret (hn.operands c hc).2.2
  · exact fun c hc => (hchildren c hc).1.disciplined
  · intro hret
    cases hret with
    | here => cases he
    | inside _ hc hret => exact (hchildren _ hc).2 hret

/-- Where a tree is put for another: it is orderly, and holds a `return` only if the other does. -/
def Keeps (n n' : Node) : Prop := n'.Orderly ∧ (n'.Returns → n.Returns)

/-- An orderly tree with parts that are put for its own is put for it. -/
theorem Orderly.of_lifts {n n' : Node} (h : n.Orderly) (hlift : n.Lifts Keeps n') :
    n.Keeps n' := by
  refine ⟨⟨?_, disciplined_iff.2 ⟨?_, ?_⟩⟩, ?_⟩
  · exact wellSorted_iff.2 (hlift.built fun _ _ hc => hc.1.wellSorted)
  · intro c' hc' _ hret
    obtain ⟨c, hc, -, hkeeps⟩ := hlift.operand c' hc'
    by_cases hn : n = exprStmt c
    · subst hn
      cases hlift with
      | exprStmt _ => rw [List.mem_singleton.1 hc']
    · exact absurd (hkeeps.2 hret) (h.operand hc hn).2.2
  · intro c' hc'
    obtain ⟨c, -, hkeeps⟩ := hlift.child c' hc'
    exact hkeeps.1.disciplined
  · intro hret
    cases hret with
    | here =>
      cases hlift with
      | returnStmt _ => exact .here
    | @inside _ c' hbody hc' hret =>
      obtain ⟨c, hc, hkeeps⟩ := hlift.child c' hc'
      refine .inside (fun ps body => ⟨?_, ?_⟩) hc (hkeeps.2 hret)
      · rintro rfl
        cases hlift with
        | fnLit _ => exact (hbody _ _).1 rfl
      · rintro rfl
        cases hlift with
        | macroLit _ => exact (hbody _ _).2 rfl

end Node

/-- A value is spliced in as a calm expression, if the trees that are quoted in it are calm. -/
theorem Value.calm_toNode {shape : Value → Prop}
    (hquote : ∀ i n, shape (.quote i n) → n.Calm) {v : Value} {e : Node} (hv : v.Every shape)
    (h : v.toNode = .ok e) : e.Calm := by
  refine (good_toNode ?_ (fun _ => Node.calm_of_built) v e hv h).2
  intro i n e hq hspliced
  have hn := hquote i n hq
  refine ⟨(Node.wellSorted_asSpliced hn.1.wellSorted hspliced).1, ?_⟩
  unfold Node.asSpliced at hspliced
  split at hspliced
  · next e' =>
    obtain rfl := Except.ok.inj hspliced
    have hchild : e' ∈ (Node.exprStmt e').children := by simp [Node.children]
    exact ⟨hn.1.child hchild, fun hret => hn.2 (.inside (by simp) hchild hret)⟩
  · split at hspliced
    · obtain rfl := Except.ok.inj hspliced
      exact hn
    · cases hspliced

end Monkey
