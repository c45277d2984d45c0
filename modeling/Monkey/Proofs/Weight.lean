import Monkey.Proofs.ParserSound
import Monkey.Proofs.Subtrees

/-!
# How much is written

Brackets, signs and semicolons can be written or left out without a change to the tree,
but names, keywords, numbers and strings cannot. So how many of these a text has, and
how long its strings are, can be told from the tree: the weight of a tree is that of the
words that it is made of. Two texts of the same program have the same weight.

## Main definitions

* `Word.weight` — what a word counts for: a name, a keyword or a number counts for one, a string
  for as many as there are characters between its quotes.
* `Node.weight`, `Phrase.weight` — the weight of what a tree, or a part of a program, is written
  with.

## Main results

* `Derives.weight_eq` — the words of a phrase have the weight of the phrase.
* `Source.weights_of_parse` — the words of a text have the weight of the program that it is.
-/

namespace Monkey

open Monkey.Parser

/-- Keywords and names. -/
def TokenKind.isWord : TokenKind → Bool
  | .kwLet | .kwReturn | .kwFn | .kwMacro | .kwIf | .kwElse | .kwTrue | .kwFalse | .ident => true
  | _ => false

/-- What the members of a list count for together. -/
def total {α : Type} (f : α → Nat) : List α → Nat
  | [] => 0
  | a :: as => f a + total f as

theorem total_append {α : Type} (f : α → Nat) (as bs : List α) :
    total f (as ++ bs) = total f as + total f bs := by
  induction as with
  | nil => simp [total]
  | cons a as ih => simp [total, ih, Nat.add_assoc]

theorem total_flatMap {α β : Type} (f : β → Nat) (g : α → List β) (as : List α) :
    total f (as.flatMap g) = total (fun a => total f (g a)) as := by
  induction as with
  | nil => rfl
  | cons a as ih => rw [List.flatMap_cons, total_append, ih, total]

/-- What a word counts for. -/
def Word.weight (w : Word) : Nat :=
  if w.1 = .string then w.2.toList.length - 2 else if w.1.isWord ∨ w.1 = .int then 1 else 0

@[simp] theorem Word.weight_int (text : String) : Word.weight (.int, text) = 1 := rfl

theorem Word.weight_string (inner : List Char) :
    Word.weight (.string, String.ofList ('"' :: (inner ++ ['"']))) = inner.length := by
  simp [Word.weight]

/-- What a list of words counts for. -/
def Word.weights : List Word → Nat := total Word.weight

@[simp] theorem Word.weights_nil : Word.weights [] = 0 := rfl

@[simp] theorem Word.weights_cons (w : Word) (ws : List Word) :
    Word.weights (w :: ws) = Word.weight w + Word.weights ws := rfl

@[simp] theorem Word.weights_append (ws ws' : List Word) :
    Word.weights (ws ++ ws') = Word.weights ws + Word.weights ws' := total_append ..

namespace Node

/-- What a tree is written with besides its parts: names, keywords and numbers count for one, and
so does every character of a string. -/
def ownWeight : Node → Nat
  | ident _ | int _ | bool _ | returnStmt _ => 1
  | str s => s.length
  | letStmt _ _ => 2
  | ifExpr _ _ e => 1 + e.toList.length
  | fnLit names _ | macroLit names _ => 1 + names.length
  | _ => 0

/-- What a tree is written with. -/
def weight (n : Node) : Nat := total ownWeight n.subtrees

/-- What some trees are written with. -/
def weights : List Node → Nat := total weight

@[simp] theorem weights_nil : weights [] = 0 := rfl

@[simp] theorem weights_cons (n : Node) (ns : List Node) :
    weights (n :: ns) = n.weight + weights ns := rfl

theorem weight_eq (n : Node) : n.weight = weights n.children + n.ownWeight := by
  rw [weight, subtrees_eq, total_append, total_flatMap]
  rfl

attribute [local simp] children ownWeight

variable (name op s : String) (names : List String) (k : Int) (b : Bool) (e l i r c callee : Node)
  (ss es args body t : List Node) (ps : List (Node × Node))

@[simp] theorem weight_program : (program ss).weight = weights ss := by
  simp [weight_eq (program ss)]

@[simp] theorem weight_block : (block ss).weight = weights ss := by
  simp [weight_eq (block ss)]

@[simp] theorem weight_letStmt : (letStmt name e).weight = e.weight + 2 := by
  simp [weight_eq (letStmt name e)]

@[simp] theorem weight_returnStmt : (returnStmt e).weight = e.weight + 1 := by
  simp [weight_eq (returnStmt e)]

@[simp] theorem weight_exprStmt : (exprStmt e).weight = e.weight := by
  simp [weight_eq (exprStmt e)]

@[simp] theorem weight_ident : (ident name).weight = 1 := by
  simp [weight_eq (ident name)]

@[simp] theorem weight_int : (int k).weight = 1 := by
  simp [weight_eq (int k)]

@[simp] theorem weight_str : (str s).weight = s.length := by
  simp [weight_eq (str s)]

@[simp] theorem weight_bool : (bool b).weight = 1 := by
  simp [weight_eq (bool b)]

@[simp] theorem weight_array : (array es).weight = weights es := by
  simp [weight_eq (array es)]

@[simp] theorem weight_hash : (hash ps).weight = weights (hash ps).operands := by
  simp [weight_eq (hash ps)]

@[simp] theorem weight_index : (index l i).weight = l.weight + i.weight := by
  simp [weight_eq (index l i)]

@[simp] theorem weight_prefixOp : (prefixOp op r).weight = r.weight := by
  simp [weight_eq (prefixOp op r)]

@[simp] theorem weight_infixOp : (infixOp l op r).weight = l.weight + r.weight := by
  simp [weight_eq (infixOp l op r)]

@[simp] theorem weight_fnLit : (fnLit names body).weight = weights body + (1 + names.length) := by
  simp [weight_eq (fnLit names body)]

@[simp] theorem weight_macroLit : (macroLit names body).weight = weights body + (1 + names.length) := by
  simp [weight_eq (macroLit names body)]

@[simp] theorem weight_call : (call callee args).weight = callee.weight + weights args := by
  simp [weight_eq (call callee args)]

@[simp] theorem weight_ifExpr (alternative : Option (List Node)) :
    (ifExpr c t alternative).weight =
      c.weight + weights t + weights (alternative.getD []) + (1 + alternative.toList.length) := by
  cases alternative <;> simp [weight_eq (ifExpr c t _), Nat.add_assoc]

end Node

/-- What a part of a program is written with. -/
def Phrase.weight : Phrase → Nat
  | program p => p.weight
  | statements ss | block ss => Node.weights ss
  | statement s => s.weight
  | expr _ e => e.weight
  | args es | list es => Node.weights es
  | pairs ps | entries ps => Node.weights (Node.hash ps).operands
  | params ns | names ns => ns.length

/-- The words of a phrase have the weight of the phrase. -/
theorem Derives.weight_eq {strict : Bool} {p : Phrase} {ws : List Word} (h : Derives strict p ws) :
    Word.weights ws = p.weight := by
  have hterminator : ∀ {wt : List Word}, Terminator strict wt → Word.weights wt = 0 := by
    intro wt ht
    cases ht <;> rfl
  have hbinary : ∀ {k : TokenKind} {level : Nat} {op : String}, Infix k level →
      Word.weight (k, op) = 0 := by
    intro k level op hk
    cases hk <;> rfl
  induction h with
  | letStmt _ ht ih | returnStmt _ ht ih =>
    simp [hterminator ht, ih, Phrase.weight, Word.weight, TokenKind.isWord]
    omega
  | exprStmt _ ht ih => simp [hterminator ht, ih, Phrase.weight]
  | infixOp hk _ _ ihl ihr => simp [hbinary hk, ihl, ihr, Phrase.weight]
  | prefixOp hk _ ih =>
    rcases hk with rfl | rfl <;> simp [ih, Phrase.weight, Word.weight, TokenKind.isWord]
  | str => simp [Phrase.weight, Word.weight, Nat.sub_sub]
  | @literal _ _ _ form _ _ _ _ _ _ ihn ihb =>
    cases form <;>
    · simp [ihn, ihb, Phrase.weight, Word.weight, TokenKind.isWord, Form.keyword, Form.literal]
      omega
  | ifExpr _ _ ihc iht =>
    simp [ihc, iht, Phrase.weight, Word.weight, TokenKind.isWord]
    omega
  | ifElse _ _ _ ihc iht ihe =>
    simp [ihc, iht, ihe, Phrase.weight, Word.weight, TokenKind.isWord]
    omega
  | _ => simp_all [Phrase.weight, Word.weight, TokenKind.isWord, Nat.add_comm]

/-- The words of a text have the weight of the program that it is. -/
theorem Source.weights_of_parse {source : String} {p : Node} (h : parse source = .ok p) :
    Word.weights ((lex source).tokens.map Token.word) = p.weight := by
  obtain ⟨ws, ⟨-, rfl⟩, hderives⟩ := parse_sound h
  exact hderives.weight_eq

end Monkey
