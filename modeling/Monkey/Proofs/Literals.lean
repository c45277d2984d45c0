import Monkey.Proofs.RoundTrip
import Monkey.Proofs.Splicing

/-!
# Literals read back

Data are written as literals, and literals of numbers below zero are not part of the
grammar: what is written as `-5` is read as an operator in front of `5`. So the written
form of a literal is not always read as the tree that was written, but as the one where
each negative number has become such an operation. Nothing else changes, because inside
a literal an operator never stands next to another one.

An operation is not as tight as an operand, and it does not end the statement in front
of it. In the places that literals have for their parts neither matters.

## Main definitions

* `Node.Literal` — trees of literals that can be read back.
* `Node.signed` — what they are read as.

## Main results

* `Node.Literal.readAs` — literals are read with their signs taken off.
* `Source.parse_literal` — a text that is a literal is a program.
-/

namespace Monkey

open Monkey.Parser Monkey.Lexer

namespace Node

/-- The tree is a literal, and at the top it can be read back: a number has a numeral, and a text
holds no double quotes. -/
def LiteralHead : Node → Prop
  | int n => Numeral.Writable n
  | str s => '"' ∉ s.toList
  | bool _ | array _ | hash _ => True
  | _ => False

/-- The tree consists of literals that can be read back. -/
def Literal (n : Node) : Prop := ∀ t ∈ n.subtrees, t.LiteralHead

theorem literal_iff {n : Node} : n.Literal ↔ n.LiteralHead ∧ ∀ c ∈ n.children, c.Literal :=
  forall_subtrees_iff

/-- Literals that can be read back can be written. -/
theorem Literal.writable {n : Node} (h : n.Literal) : n.writable = true := by
  induction n using child_induction with
  | h n ih =>
    obtain ⟨hhead, hchildren⟩ := literal_iff.1 h
    refine writable_of_children (fun c hc => ih c hc (hchildren c hc)) ?_
    rintro k rfl
    exact hhead

mutual

/-- The expression that the written form of a literal is read as. -/
def signed : Node → Node
  | int n => if n < 0 then prefixOp "-" (int n.natAbs) else int n
  | array es => array (signedList es)
  | hash ps => hash (signedPairs ps)
  | n => n

/-- What the members of a list are read as. -/
def signedList : List Node → List Node
  | [] => []
  | e :: es => e.signed :: signedList es

/-- What the keys and the values of pairs are read as. -/
def signedPairs : List (Node × Node) → List (Node × Node)
  | [] => []
  | (k, v) :: ps => (k.signed, v.signed) :: signedPairs ps

end

theorem signedList_eq_map (es : List Node) : signedList es = es.map signed := by
  induction es with
  | nil => rfl
  | cons e es ih => rw [signedList, ih, List.map_cons]

theorem signedPairs_eq_map (ps : List (Node × Node)) :
    signedPairs ps = ps.map fun p => (p.1.signed, p.2.signed) := by
  induction ps with
  | nil => rfl
  | cons p ps ih => rw [signedPairs, ih, List.map_cons]

@[simp] theorem signed_array (es : List Node) : (array es).signed = array (es.map signed) := by
  rw [signed, signedList_eq_map]

@[simp] theorem signed_hash (ps : List (Node × Node)) :
    (hash ps).signed = hash (ps.map fun p => (p.1.signed, p.2.signed)) := by
  rw [signed, signedPairs_eq_map]

/-- What a literal is read as consists of literals and of minus signs. -/
theorem Literal.signed_cases {n : Node} (h : n.Literal) :
    ∀ t ∈ n.signed.subtrees, t.isLiteral = true ∨ ∃ r, t = prefixOp "-" r := by
  induction n using child_induction with
  | h n ih =>
    obtain ⟨hhead, hchildren⟩ := literal_iff.1 h
    have hoperand : ∀ e ∈ n.operands, ∀ t ∈ e.signed.subtrees,
        t.isLiteral = true ∨ ∃ r, t = prefixOp "-" r := fun e he =>
      have hchild : e ∈ n.children := mem_children.2 (.inl he)
      ih e hchild (hchildren e hchild)
    cases n with
    | int n =>
      rw [signed]
      split <;> simp [subtrees, isLiteral]
    | str s => simp [signed, subtrees, isLiteral]
    | bool b => simp [signed, subtrees, isLiteral]
    | array es =>
      rw [signed_array]
      refine forall_subtrees_iff.2 ⟨.inl rfl, fun c hc => ?_⟩
      obtain ⟨e, he, rfl⟩ : ∃ e ∈ es, e.signed = c := by simpa [children] using hc
      exact hoperand e he
    | hash ps =>
      rw [signed_hash]
      refine forall_subtrees_iff.2 ⟨.inl rfl, fun c hc => ?_⟩
      obtain ⟨p, hp, hc⟩ : ∃ p ∈ ps, c = p.1.signed ∨ c = p.2.signed := by
        simpa using mem_children_hash.1 hc
      obtain ⟨hk, hv⟩ := mem_operands_hash hp
      rcases hc with rfl | rfl
      · exact hoperand p.1 hk
      · exact hoperand p.2 hv
    | _ => exact hhead.elim

/-! ## Literals and their words -/

/-- A number below zero is read as a minus sign and a number. -/
theorem ReadAs.negative {n : Int} (hn : n < 0) (hwritable : Numeral.Writable n) :
    ∃ ws, (int n).ReadAs 5 (prefixOp "-" (int n.natAbs)) ws := by
  obtain ⟨m, rfl⟩ := Int.eq_negSucc_of_lt_zero hn
  obtain ⟨k, hk, hsign⟩ := words_prefix (show "-" ∈ ["!", "-"] by simp)
  obtain ⟨ws, h⟩ := Rereads.int (n := ((m + 1 : Nat) : Int)) (by omega) hwritable
  refine ⟨(k, "-") :: ws, ?_, h.completes.tighter.prefixOp hk⟩
  intro rest ws' hrest hwords
  have hnumber := h.spells rest ws' hrest hwords
  obtain ⟨c, more, -, -, -, htext, -, hc, -⟩ := h.begins
  have hrender : (int (.negSucc m)).render.toList = "-".toList ++ c :: more := by
    rw [← htext]
    simp [render, Numeral.render]
  rw [hrender]
  rw [htext] at hnumber
  simpa using hsign _ _ _ hc hnumber

/-- A literal is read with the signs of its numbers taken off. -/
theorem Literal.readAs {n : Node} (h : n.Literal) : ∃ ws, n.ReadAs 1 n.signed ws := by
  induction n using child_induction with
  | h n ih =>
    obtain ⟨hhead, hchildren⟩ := literal_iff.1 h
    have hoperand : ∀ e ∈ n.operands, ∃ ws, e.ReadAs 1 e.signed ws := fun e he =>
      have hchild : e ∈ n.children := mem_children.2 (.inl he)
      ih e hchild (hchildren e hchild)
    cases n with
    | int n =>
      rw [signed]
      split
      · next hneg =>
        obtain ⟨ws, hread⟩ := ReadAs.negative hneg hhead
        exact ⟨ws, hread.lower (by decide)⟩
      · next hpos =>
        obtain ⟨ws, hread⟩ := Rereads.int (Int.not_lt.1 hpos) hhead
        exact ⟨ws, hread.readAs⟩
    | str s =>
      obtain ⟨ws, hread⟩ := Rereads.str hhead
      exact ⟨ws, hread.readAs⟩
    | bool b =>
      obtain ⟨ws, hread⟩ := Rereads.bool b
      exact ⟨ws, hread.readAs⟩
    | array es =>
      obtain ⟨ws, hread, -⟩ := ReadAs.array hoperand
      rw [signed_array]
      exact ⟨ws, hread.lower (by decide)⟩
    | hash ps =>
      obtain ⟨ws, hread, -⟩ := ReadAs.hash hoperand
      rw [signed_hash]
      exact ⟨ws, hread.lower (by decide)⟩
    | _ => exact hhead.elim

end Node

theorem Parser.Completes.ne_nil {e : Node} {ws : List Word} (h : Completes (.expr 1 e) ws) :
    ws ≠ [] := by
  rintro rfl
  obtain ⟨st, operand, inner, hread, hready, -⟩ := h [.paren] (Nat.le_refl 1)
  obtain rfl := Option.some.inj hread
  cases hready

/-- The text of a literal is a program, which consists of the literal. -/
theorem Source.parse_literal {n : Node} (h : n.Literal) :
    parse n.render = .ok (.program [.exprStmt n.signed]) := by
  obtain ⟨ws, hread⟩ := h.readAs
  have hwords : Words n.render.toList ws := by
    simpa using hread.spells [] [] breaks_nil .nil
  obtain ⟨st, hst, hfinish⟩ := finish_exprStatement hread.completes hread.completes.ne_nil []
  exact parse_of_words hwords hst hfinish

end Monkey
