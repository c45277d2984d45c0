import Monkey.Value

/-!
# Values as syntax

`unquote` puts a value into a syntax tree. Numbers, booleans and strings become
literals, arrays and hashes become literals of their items, and quoted syntax
becomes itself. Quoted statements give up the expression that they consist of,
if they consist of one; nothing else has a place in a tree.

## Main definitions

* `Node.asSpliced` — the expression that quoted syntax stands for.
* `Value.toNode` — the tree of a value.
-/

namespace Monkey

/-- The expression that stands for a quoted tree where an expression must stand. -/
def Node.asSpliced : Node → Except Fault Node
  | .exprStmt e => .ok e
  | n => if n.isExpression then .ok n else .error (.notExpression n)

/-- The literal of a hash key. -/
def Key.toNode : Key → Node
  | int n => .int n
  | str s => .str s
  | bool b => .bool b

namespace Value

mutual

/-- The syntax tree of a value. -/
def toNode : Value → Except Fault Node
  | .int n => .ok (.int n)
  | .bool b => .ok (.bool b)
  | .str s => .ok (.str s)
  | .quote _ node => node.asSpliced
  | .array _ items => do
    let es ← toNodes items
    return .array es
  | .hash _ entries => do
    let ps ← toPairs entries
    return .hash ps
  | .error _ fault => .error fault
  | .null => .error (.notSyntax .null)
  | .function _ _ _ _ => .error (.notSyntax .function)
  | .macroFn _ _ _ _ => .error (.notSyntax .macroFn)
  | .builtin _ => .error (.notSyntax .builtin)
  | .returned _ _ => .error (.notSyntax .returnValue)

/-- The syntax trees of the values of a list. -/
def toNodes : List Value → Except Fault (List Node)
  | [] => .ok []
  | v :: vs => do
    let e ← toNode v
    let es ← toNodes vs
    return e :: es

/-- The pairs of syntax trees of the entries of a hash. -/
def toPairs : List (Key × Value) → Except Fault (List (Node × Node))
  | [] => .ok []
  | (k, v) :: entries => do
    let e ← toNode v
    let ps ← toPairs entries
    return (k.toNode, e) :: ps

end

end Value
end Monkey
