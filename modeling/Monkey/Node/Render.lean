import Monkey.Node
import Monkey.Text.Numeral

/-!
# The written form of syntax trees

Every tree has one written form. Operators are fully parenthesised, so the text
shows how a program was grouped; statements inside a block are separated by one
space, statements of a program by nothing; strings are quoted but not escaped.

A number of more than `Numeral.maxDigits` digits has no numeral, so a tree that
holds one is not writable. Rendering is kept total, and `Node.writable` is the
question to ask before showing its result.

## Main definitions

* `Node.render` — the written form.
* `Node.writable` — all numbers in the tree can be written.
* `Node.renderDepth` — how deeply the written form nests.
-/

namespace Monkey.Node

/-- A list in round brackets after a word: `fn(a, b)`. -/
def renderHead (word : String) (params : List String) : String :=
  word ++ "(" ++ ", ".intercalate params ++ ") "

mutual

/-- The written form of a tree. -/
def render : Node → String
  | .program ss => String.join (renderList ss)
  | .letStmt name value => "let " ++ name ++ " = " ++ value.render ++ ";"
  | .returnStmt value => "return " ++ value.render ++ ";"
  | .exprStmt e => e.render
  | .block ss => renderBlock ss
  | .ident name => name
  | .int n => Numeral.render n
  | .str s => "\"" ++ s ++ "\""
  | .bool b => if b then "true" else "false"
  | .array es => "[" ++ ", ".intercalate (renderList es) ++ "]"
  | .hash ps => "\x7b" ++ ", ".intercalate (renderPairs ps) ++ "\x7d"
  | .index l i => "(" ++ l.render ++ "[" ++ i.render ++ "])"
  | .prefixOp op r => "(" ++ op ++ r.render ++ ")"
  | .infixOp l op r => "(" ++ l.render ++ " " ++ op ++ " " ++ r.render ++ ")"
  | .ifExpr c t e => "if " ++ c.render ++ " " ++ renderBlock t ++ renderElse e
  | .fnLit ps body => renderHead "fn" ps ++ renderBlock body
  | .call f as => f.render ++ "(" ++ ", ".intercalate (renderList as) ++ ")"
  | .macroLit ps body => renderHead "macro" ps ++ renderBlock body

/-- The written forms of the trees of a list, in order. -/
def renderList : List Node → List String
  | [] => []
  | n :: ns => n.render :: renderList ns

/-- The written forms `key: value` of the pairs of a list, in order. -/
def renderPairs : List (Node × Node) → List String
  | [] => []
  | (k, v) :: ps => (k.render ++ ": " ++ v.render) :: renderPairs ps

/-- The written form of a list of statements as a block. -/
def renderBlock : List Node → String
  | [] => "\x7b \x7d"
  | s :: ss => "\x7b " ++ " ".intercalate (s.render :: renderList ss) ++ " \x7d"

/-- The written form of an `else` branch, empty when there is none. -/
def renderElse : Option (List Node) → String
  | none => ""
  | some ss => " else " ++ renderBlock ss

end

mutual

/-- Whether every number in a tree has a numeral. -/
def writable : Node → Bool
  | .int n => decide (Numeral.Writable n)
  | .ident _ | .str _ | .bool _ => true
  | .program ss | .block ss | .array ss => writableList ss
  | .letStmt _ e | .returnStmt e | .exprStmt e | .prefixOp _ e => e.writable
  | .hash ps => writablePairs ps
  | .index l r | .infixOp l _ r => l.writable && r.writable
  | .ifExpr c t e => c.writable && writableList t && writableElse e
  | .fnLit _ body | .macroLit _ body => writableList body
  | .call f as => f.writable && writableList as

/-- Whether every number in a list of trees has a numeral. -/
def writableList : List Node → Bool
  | [] => true
  | n :: ns => n.writable && writableList ns

/-- Whether every number in a list of pairs has a numeral. -/
def writablePairs : List (Node × Node) → Bool
  | [] => true
  | (k, v) :: ps => k.writable && v.writable && writablePairs ps

/-- Whether every number in an optional branch has a numeral. -/
def writableElse : Option (List Node) → Bool
  | none => true
  | some ss => writableList ss

end

mutual

/-- How deeply the written form of a tree nests: one level for each tree in it, blocks included. -/
def renderDepth : Node → Nat
  | .ident _ | .int _ | .str _ | .bool _ => 1
  | .program ss | .block ss | .array ss => renderDepthList ss + 1
  | .letStmt _ e | .returnStmt e | .exprStmt e | .prefixOp _ e => e.renderDepth + 1
  | .hash ps => renderDepthPairs ps + 1
  | .index l r | .infixOp l _ r => max l.renderDepth r.renderDepth + 1
  | .ifExpr c t e => max c.renderDepth (max (renderDepthList t + 1) (renderDepthElse e)) + 1
  | .fnLit _ body | .macroLit _ body => renderDepthList body + 2
  | .call f as => max f.renderDepth (renderDepthList as) + 1

/-- How deeply the written forms of the trees of a list nest. -/
def renderDepthList : List Node → Nat
  | [] => 0
  | n :: ns => max n.renderDepth (renderDepthList ns)

/-- How deeply the written forms of the pairs of a list nest. -/
def renderDepthPairs : List (Node × Node) → Nat
  | [] => 0
  | (k, v) :: ps => max (max k.renderDepth v.renderDepth) (renderDepthPairs ps)

/-- How deeply the written form of an `else` branch nests. -/
def renderDepthElse : Option (List Node) → Nat
  | none => 0
  | some ss => renderDepthList ss + 1

end

theorem renderList_eq_map (ns : List Node) : renderList ns = ns.map render := by
  induction ns with
  | nil => rfl
  | cons n ns ih => simp [renderList, ih]

theorem renderPairs_eq_map (ps : List (Node × Node)) :
    renderPairs ps = ps.map fun p => p.1.render ++ ": " ++ p.2.render := by
  induction ps with
  | nil => rfl
  | cons p ps ih => rw [renderPairs, ih, List.map_cons]

theorem writableList_eq_all (ns : List Node) : writableList ns = ns.all writable := by
  induction ns with
  | nil => rfl
  | cons n ns ih => simp [writableList, ih]

end Monkey.Node
