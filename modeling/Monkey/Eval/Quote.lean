import Monkey.Eval.Attempt
import Monkey.Value.Splice

/-!
# Quoting

`quote(e)` yields the tree `e` as a value, with one exception: each call
`unquote(x)` in it is replaced by the value of `x` as syntax. Trees are rebuilt
from the leaves up, so an `unquote` inside another is replaced first, and what
has been put in is not searched again.

## Main definitions

* `unquoteStep` — the replacement of one tree.
* `evalQuote` — the value of `quote(e)`.
-/

namespace Monkey

open Monkey.Computation

/-- Replaces `unquote(x)` by the value of `x` as syntax, and leaves any other tree alone. -/
def unquoteStep (sc : Scope) : Node → Attempt Node
  | .call (.ident "unquote") [arg] => do
    let v ← Attempt.need arg sc
    Attempt.check v.toNode
  | n => return n

/-- A quoted tree, as a new value. -/
def newQuote (n : Node) : Computation Value := do
  let i ← fresh
  return .quote i n

/-- The value of `quote(n)` in a scope. -/
def evalQuote (n : Node) (sc : Scope) : Attempt Value := do
  match ← (n.rebuildM (unquoteStep sc)).run with
  | .ok n => newQuote n
  | .error e => fail (.illSorted e)

end Monkey
