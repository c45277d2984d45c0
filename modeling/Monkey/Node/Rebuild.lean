import Monkey.Node

/-!
# Rebuilding syntax trees from the leaves up

`Node.rebuildM f` hands every tree to `f`, sub-trees before the tree that holds
them and from left to right, and puts the answers in place of what was handed
in. Nothing that `f` answers is visited again. The names of `let` statements and
parameters are not trees and are left alone.

A place in a tree accepts only trees of its sort: a block takes a block's place,
a statement takes a place in a list of statements, and an expression takes every
other place below the root. An answer of another sort ends the rebuilding with
a `SortError` that names the answer. The root accepts anything, unless it is
a block.

## Main definitions

* `SortError` — the three ways in which an answer can be of the wrong sort.
* `Node.rebuildM` — the rebuilding, for an `f` with effects.
-/

namespace Monkey

/-- A tree was answered for another in whose place it cannot stand. -/
inductive SortError where
  /-- A block was answered with the tree `found`. -/
  | blockExpected (found : Node)
  /-- A statement was answered with the tree `found`. -/
  | statementExpected (found : Node)
  /-- An expression was answered with the tree `found`. -/
  | expressionExpected (found : Node)

/-- The text of a sort error. -/
def SortError.message : SortError → String
  | blockExpected found => "block rewritten into " ++ found.kindName
  | statementExpected found => "statement rewritten into " ++ found.kindName
  | expressionExpected found => "expression rewritten into " ++ found.kindName

namespace Node

/-- Accepts a block and yields its statements. -/
def asBlock : Node → Except SortError (List Node)
  | block ss => .ok ss
  | n => .error (.blockExpected n)

/-- Accepts a statement. -/
def asStatement (n : Node) : Except SortError Node :=
  if n.isStatement then .ok n else .error (.statementExpected n)

/-- Accepts an expression. -/
def asExpression (n : Node) : Except SortError Node :=
  if n.isExpression then .ok n else .error (.expressionExpected n)

section
variable {m : Type → Type} [Monad m] (f : Node → m Node)

/-- Rebuilds a tree in a place where an expression must stand. -/
@[always_inline, inline] def expectExpression (answer : ExceptT SortError m Node) :
    ExceptT SortError m Node := do
  let e ← answer
  e.asExpression

/-- Rebuilds a tree in a place where a statement must stand. -/
@[always_inline, inline] def expectStatement (answer : ExceptT SortError m Node) :
    ExceptT SortError m Node := do
  let s ← answer
  s.asStatement

/-- Hands in the block of the rebuilt statements; the answer must be a block again. -/
@[specialize] def rebuildBlock (statements : ExceptT SortError m (List Node)) :
    ExceptT SortError m (List Node) := do
  let ss ← statements
  let answer ← f (.block ss)
  answer.asBlock

mutual

/-- Rebuilds a tree from the leaves up, with the answer of `f` for each tree in its place. -/
@[specialize] def rebuildM : Node → ExceptT SortError m Node
  | .program ss => do
    let ss ← rebuildStatements ss
    f (.program ss)
  | .letStmt name value => do
    let value ← expectExpression (rebuildM value)
    f (.letStmt name value)
  | .returnStmt value => do
    let value ← expectExpression (rebuildM value)
    f (.returnStmt value)
  | .exprStmt e => do
    let e ← expectExpression (rebuildM e)
    f (.exprStmt e)
  | .block ss => do
    let ss ← rebuildBlock f (rebuildStatements ss)
    return .block ss
  | .ident name => f (.ident name)
  | .int n => f (.int n)
  | .str s => f (.str s)
  | .bool b => f (.bool b)
  | .array es => do
    let es ← rebuildExpressions es
    f (.array es)
  | .hash ps => do
    let ps ← rebuildPairs ps
    f (.hash ps)
  | .index l i => do
    let l ← expectExpression (rebuildM l)
    let i ← expectExpression (rebuildM i)
    f (.index l i)
  | .prefixOp op r => do
    let r ← expectExpression (rebuildM r)
    f (.prefixOp op r)
  | .infixOp l op r => do
    let l ← expectExpression (rebuildM l)
    let r ← expectExpression (rebuildM r)
    f (.infixOp l op r)
  | .ifExpr c t e => do
    let c ← expectExpression (rebuildM c)
    let t ← rebuildBlock f (rebuildStatements t)
    let e ← rebuildElse e
    f (.ifExpr c t e)
  | .fnLit ps body => do
    let body ← rebuildBlock f (rebuildStatements body)
    f (.fnLit ps body)
  | .call callee args => do
    let callee ← expectExpression (rebuildM callee)
    let args ← rebuildExpressions args
    f (.call callee args)
  | .macroLit ps body => do
    let body ← rebuildBlock f (rebuildStatements body)
    f (.macroLit ps body)
termination_by structural n => n

/-- Rebuilds a list of statements, each of which must stay a statement. -/
@[specialize] def rebuildStatements : List Node → ExceptT SortError m (List Node)
  | [] => return []
  | s :: ss => do
    let s ← expectStatement (rebuildM s)
    let ss ← rebuildStatements ss
    return s :: ss
termination_by structural ns => ns

/-- Rebuilds a list of expressions, each of which must stay an expression. -/
@[specialize] def rebuildExpressions : List Node → ExceptT SortError m (List Node)
  | [] => return []
  | e :: es => do
    let e ← expectExpression (rebuildM e)
    let es ← rebuildExpressions es
    return e :: es
termination_by structural ns => ns

/-- Rebuilds a list of pairs, each key before its value. -/
@[specialize] def rebuildPairs : List (Node × Node) → ExceptT SortError m (List (Node × Node))
  | [] => return []
  | (k, v) :: ps => do
    let k ← expectExpression (rebuildM k)
    let v ← expectExpression (rebuildM v)
    let ps ← rebuildPairs ps
    return (k, v) :: ps
termination_by structural ps => ps

/-- Rebuilds the branch after `else`, if there is one. -/
@[specialize] def rebuildElse : Option (List Node) → ExceptT SortError m (Option (List Node))
  | none => return none
  | some ss => do
    let ss ← rebuildBlock f (rebuildStatements ss)
    return some ss
termination_by structural e => e

end
end

end Node
end Monkey
