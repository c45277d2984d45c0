import Mathlib.Data.List.Chain
import Monkey.Node.Render
import Monkey.Token.Lexer
import Monkey.Proofs.WellSorted

/-!
# Legible trees

Not every tree has a written form that can be read back. Numbers, names, strings
and operators must be such as the grammar has, and statements must not run into
each other. A text leaves out the semicolons behind expression statements, so the
parser goes on with such a statement for as long as it can. In a block nothing but
a bracket can continue it, and in a program anything can, because there is not even
a space behind it. The condition of an `if` gets its brackets from its own written
form, so it must have some.

## Main definitions

* `Node.Legible` — trees that can be read back if their parts can.
* `Node.Tidy` — well-sorted trees that are legible everywhere.

## Main results

* `Node.writable_of_legible` — legible trees can be written.
-/

namespace Monkey

open Monkey.Lexer

/-- Words of the form of names that are no keywords. -/
def isName (name : String) : Bool :=
  match name.toList with
  | [] => false
  | c :: more => isWordStart c && more.all isWordPart && TokenKind.ofWord name == .ident

theorem isName_iff {name : String} : isName name = true ↔ ∃ c more, name.toList = c :: more ∧
    isWordStart c = true ∧ more.all isWordPart = true ∧ TokenKind.ofWord name = .ident := by
  unfold isName
  split
  · next hchars => simp [hchars]
  · next c more hchars =>
    simp only [hchars, Bool.and_eq_true, beq_iff_eq, List.cons.injEq]
    constructor
    · rintro ⟨⟨hc, hmore⟩, hkind⟩
      exact ⟨c, more, ⟨rfl, rfl⟩, hc, hmore, hkind⟩
    · rintro ⟨_, _, ⟨rfl, rfl⟩, hc, hmore, hkind⟩
      exact ⟨⟨hc, hmore⟩, hkind⟩

namespace Node

/-- The constructs whose written form has round brackets around it. -/
def isEnclosed : Node → Bool
  | index _ _ | prefixOp _ _ | infixOp _ _ _ => true
  | _ => false

/-- Expressions that stand as statements, the only ones without a semicolon behind them. -/
def isExprStmt : Node → Bool
  | exprStmt _ => true
  | _ => false

/-- The written form starts with a bracket that an expression in front of it goes on with. -/
def OpensBracket (n : Node) : Prop :=
  n.render.toList.head? = some '(' ∨ n.render.toList.head? = some '['

instance : DecidablePred OpensBracket := fun _ => inferInstanceAs (Decidable (_ ∨ _))

/-- No expression statement of a list goes on with the statement behind it. -/
def Separate (ss : List Node) : Prop :=
  ss.IsChain fun s s' => s.isExprStmt = true → ¬ s'.OpensBracket

instance : DecidablePred Separate := fun _ => inferInstanceAs (Decidable (List.IsChain _ _))

/-- The tree can be read back from its written form, if its parts can: its names, numbers and
operators are such as the grammar has, and its statements do not run into each other. -/
def Legible : Node → Prop
  | ident name => isName name = true
  | int n => 0 ≤ n ∧ Numeral.Writable n
  | str s => '"' ∉ s.toList
  | prefixOp op _ => op ∈ ["!", "-"]
  | infixOp _ op _ => op ∈ ["==", "!=", "<", ">", "+", "-", "*", "/"]
  | ifExpr c _ _ => c.isEnclosed = true
  | fnLit names _ | macroLit names _ => ∀ name ∈ names, isName name = true
  | letStmt name _ => isName name = true
  | block ss => (∀ s ∈ ss, s.isBlock = false) ∧ Separate ss
  | program ss => (∀ s ∈ ss, s.isBlock = false) ∧ ∀ s ∈ ss.dropLast, s.isExprStmt = false
  | _ => True

instance : DecidablePred Legible
  | ident name | letStmt name _ => inferInstanceAs (Decidable (isName name = true))
  | int n => inferInstanceAs (Decidable (0 ≤ n ∧ Numeral.Writable n))
  | str s => inferInstanceAs (Decidable ('"' ∉ s.toList))
  | prefixOp op _ => inferInstanceAs (Decidable (op ∈ _))
  | infixOp _ op _ => inferInstanceAs (Decidable (op ∈ _))
  | ifExpr c _ _ => inferInstanceAs (Decidable (c.isEnclosed = true))
  | fnLit names _ | macroLit names _ =>
    inferInstanceAs (Decidable (∀ name ∈ names, isName name = true))
  | block ss => inferInstanceAs (Decidable ((∀ s ∈ ss, s.isBlock = false) ∧ Separate ss))
  | program ss => inferInstanceAs
    (Decidable ((∀ s ∈ ss, s.isBlock = false) ∧ ∀ s ∈ ss.dropLast, s.isExprStmt = false))
  | returnStmt _ | exprStmt _ | bool _ | array _ | hash _ | index _ _ | call _ _ => .isTrue trivial

/-- Well sorted, and legible everywhere. -/
structure Tidy (n : Node) : Prop where
  wellSorted : n.WellSorted
  legible : ∀ t ∈ n.subtrees, t.Legible

namespace Tidy
variable {n : Node} (h : n.Tidy)
include h

theorem here : n.Legible := h.legible n (self_mem_subtrees n)

theorem child {c : Node} (hc : c ∈ n.children) : c.Tidy where
  wellSorted := h.wellSorted.child hc
  legible t ht := h.legible t (mem_subtrees.2 (.inr ⟨c, hc, ht⟩))

theorem operand {e : Node} (he : e ∈ n.operands) : e.isExpression = true :=
  ((wellSorted_iff.1 h.wellSorted).operands e he).1

theorem statement {s : Node} (hs : s ∈ n.listed) : s.isStatement = true :=
  ((wellSorted_iff.1 h.wellSorted).listed s hs).1

end Tidy

/-! ## Legible trees can be written -/

theorem writablePairs_eq_all (ps : List (Node × Node)) :
    writablePairs ps = (hash ps).operands.all writable := by
  induction ps with
  | nil => rfl
  | cons p ps ih =>
    rw [writablePairs, ih]
    simp [Bool.and_assoc]

/-- A tree can be written if all its parts can, and it is no number that is too long. -/
theorem writable_of_children {n : Node} (h : ∀ c ∈ n.children, c.writable = true)
    (hint : ∀ k, n = int k → Numeral.Writable k) : n.writable = true := by
  cases n with
  | int k => exact decide_eq_true (hint k rfl)
  | hash ps =>
    rw [writable, writablePairs_eq_all]
    exact List.all_eq_true.2 fun e he => h e (mem_children.2 (.inl he))
  | ifExpr c t e => cases e <;> simp_all [children, writable, writableElse]
  | _ => simp_all [children, writable, writableList_eq_all]

/-- Legible trees can be written. -/
theorem writable_of_legible {n : Node} (h : ∀ t ∈ n.subtrees, t.Legible) : n.writable = true := by
  induction n using child_induction with
  | h n ih =>
    refine writable_of_children (fun c hc => ih c hc fun t ht => ?_) ?_
    · exact h t (mem_subtrees.2 (.inr ⟨c, hc, ht⟩))
    · rintro k rfl
      exact (h (int k) (self_mem_subtrees _)).2

end Node

end Monkey
