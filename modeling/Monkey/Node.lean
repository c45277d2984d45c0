/-!
# Syntax trees

One type `Node` holds programs, statements and expressions. A single type is
the right one here because trees are also *data* of the language: `quote` turns
a tree into a value, `unquote` and macros put values back into trees, and what
they put in may be any tree whatever. Which places may hold which trees is a
property of a tree (`Node.isStatement` and the checks of `Monkey.Node.Rebuild`),
not of the type.

Bodies are the exception: the branches of an `if` and the body of a function or
macro literal are lists of statements, so they are blocks by construction.

## Main definitions

* `Node` — the trees.
* `Node.kindName` — the name of a tree's outermost construct, as messages and
  listings spell it.
* `Node.isStatement`, `Node.isCallTo`, `Node.isMacroDefinition` — the questions
  that evaluation and macro expansion ask of a tree.
-/

namespace Monkey

/-- A syntax tree: a whole program, a statement or an expression. -/
inductive Node where
  /-- A whole program. -/
  | program (statements : List Node)
  /-- `let name = value;` -/
  | letStmt (name : String) (value : Node)
  /-- `return value;` -/
  | returnStmt (value : Node)
  /-- An expression that stands as a statement. -/
  | exprStmt (expression : Node)
  /-- `{ … }` as a statement of its own. -/
  | block (statements : List Node)
  /-- A name. -/
  | ident (name : String)
  /-- A whole number of any size; spliced values may make it negative. -/
  | int (value : Int)
  /-- A string literal, without its quotes. -/
  | str (value : String)
  /-- `true` or `false`. -/
  | bool (value : Bool)
  /-- `[a, b, …]` -/
  | array (elements : List Node)
  /-- `{k: v, …}` -/
  | hash (pairs : List (Node × Node))
  /-- `left[position]` -/
  | index (left position : Node)
  /-- An operator in front of its operand. -/
  | prefixOp (operator : String) (right : Node)
  /-- An operator between its operands. -/
  | infixOp (left : Node) (operator : String) (right : Node)
  /-- `if (condition) { … }`, with or without `else { … }`. -/
  | ifExpr (condition : Node) (consequence : List Node) (alternative : Option (List Node))
  /-- `fn(params) { … }` -/
  | fnLit (params : List String) (body : List Node)
  /-- `callee(arguments)` -/
  | call (callee : Node) (arguments : List Node)
  /-- `macro(params) { … }` -/
  | macroLit (params : List String) (body : List Node)
  deriving Inhabited

namespace Node

/-- The name of a tree's outermost construct. -/
def kindName : Node → String
  | program _ => "Program"
  | letStmt _ _ => "LetStatement"
  | returnStmt _ => "ReturnStatement"
  | exprStmt _ => "ExpressionStatement"
  | block _ => "BlockStatement"
  | ident _ => "Identifier"
  | int _ => "IntegerLiteral"
  | str _ => "StringLiteral"
  | bool _ => "BooleanLiteral"
  | array _ => "ArrayLiteral"
  | hash _ => "HashLiteral"
  | index _ _ => "IndexExpression"
  | prefixOp _ _ => "PrefixExpression"
  | infixOp _ _ _ => "InfixExpression"
  | ifExpr _ _ _ => "IfExpression"
  | fnLit _ _ => "FunctionLiteral"
  | call _ _ => "CallExpression"
  | macroLit _ _ => "MacroLiteral"

/-- Statements are the trees that a program or block may list. -/
def isStatement : Node → Bool
  | letStmt _ _ | returnStmt _ | exprStmt _ | block _ => true
  | _ => false

/-- A whole program, told apart from everything that can be nested in one. -/
def isProgram : Node → Bool
  | program _ => true
  | _ => false

/-- Blocks, the only trees that may stand as a body. -/
def isBlock : Node → Bool
  | block _ => true
  | _ => false

/-- Expressions are all trees that are neither statements nor programs. -/
def isExpression (n : Node) : Bool :=
  !n.isProgram && !n.isStatement

/-- The bare name `name`. -/
def isIdent (name : String) : Node → Bool
  | ident other => other == name
  | _ => false

/-- A call whose callee is the bare name `name`. -/
def isCallTo (name : String) : Node → Bool
  | call callee _ => callee.isIdent name
  | _ => false

/-- A `let` that binds a macro literal. -/
def isMacroDefinition : Node → Bool
  | letStmt _ (macroLit _ _) => true
  | _ => false

/-- A `let` statement, whatever it binds. -/
def isLet : Node → Bool
  | letStmt _ _ => true
  | _ => false

/-- The statements that a program lists; any other tree lists none. -/
def statements : Node → List Node
  | program ss => ss
  | _ => []

theorem isIdent_iff {name : String} {n : Node} : n.isIdent name = true ↔ n = ident name := by
  cases n <;> simp [isIdent]

end Node
end Monkey
