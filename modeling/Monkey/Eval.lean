import Monkey.Eval.Call
import Monkey.Eval.Quote
import Monkey.Value.Operators

/-!
# Evaluation

The meaning of every tree. `evalRule` says for each construct how its value is
made from the values of its parts, in which order these are asked for, and in
which scope. Trees of any sort have a meaning in any place, so hand-made trees
need no special care.

* A program and a block run their statements in order and yield the last value.
  A program runs in the scope it is given and takes off a `return`; a block makes
  a scope of its own and passes a `return` on.
* Anything that needs the value of a part is cut short by an error, and yields it.
* A name means its binding in the nearest scope that has one, or else the builtin
  of that name.
* `quote` is a construct, not a function, unless the name is bound.

## Main definitions

* `evalRule` — the meaning of trees.
* `Node.evaluate` — evaluation with a bound on how deeply it may nest.
-/

namespace Monkey

open Monkey.Computation Monkey.Attempt

/-- Runs statements in order, up to the first that ends in an error or a `return`; yields the
value of the last one that ran, or `otherwise` if there is none. -/
def evalStatements (sc : Scope) (otherwise : Value) : List Node → Computation Value
  | [] => return otherwise
  | s :: ss => do
    let v ← eval s sc
    if v.stopsBlock then return v else evalStatements sc v ss

/-- The value of a name: its binding in the scope, or else the builtin of that name. -/
def evalName (name : String) (sc : Scope) : Computation Value := do
  match ← reading (·.lookup name sc) with
  | some v => return v
  | none =>
    match Builtin.ofName? name with
    | some b => return .builtin b
    | none => raise (.unboundName name)

/-- Whether no scope around binds a name. -/
def isUnbound (name : String) (sc : Scope) : Computation Bool :=
  reading fun st => (st.lookup name sc).isNone

/-- The entries of a hash literal: each key before its value, and a key that comes again
keeps its place and changes its value. -/
def evalEntries (sc : Scope) (entries : Table Key Value) :
    List (Node × Node) → Attempt (Table Key Value)
  | [] => return entries
  | (k, v) :: ps => do
    let k ← need k sc
    let key ← check k.key?
    let v ← need v sc
    evalEntries sc (entries.insert key v) ps

/-- The value of a call that is not a quotation. -/
def evalCall (callee : Node) (args : List Node) (sc : Scope) : Attempt Value := do
  let f ← need callee sc
  let vs ← needAll sc args
  f.call vs

/-- The value of a call of `quote`, which is a quotation unless a scope around binds the name. -/
def evalQuoteCall (callee : Node) (args : List Node) (sc : Scope) : Attempt Value := do
  if ← isUnbound "quote" sc then
    match args with
    | [arg] => evalQuote arg sc
    | args => reject (.quoteArity args.length)
  else evalCall callee args sc

/-- The value of a tree in a scope, by way of the values of its parts. -/
def evalRule : Rule := fun node sc =>
  match node with
  | .program ss => do
    let v ← evalStatements sc .null ss
    return v.unwrapped
  | .block ss => do
    let inner ← openScope sc []
    evalStatements inner .null ss
  | .exprStmt e => eval e sc
  | .letStmt name e => settle do
    let v ← need e sc
    modify (Store.define sc name v)
    return .null
  | .returnStmt e => settle do
    let v ← need e sc
    let i ← fresh
    return .returned i v
  | .ident name => evalName name sc
  | .int n => return .int n
  | .str s => return .str s
  | .bool b => return .bool b
  | .array es => settle do
    let vs ← needAll sc es
    newArray vs
  | .hash ps => settle do
    let entries ← evalEntries sc [] ps
    let i ← fresh
    return .hash i entries
  | .index l i => settle do
    let l ← need l sc
    let i ← need i sc
    check (l.applyIndex i)
  | .prefixOp op r => settle do
    let r ← need r sc
    check (r.applyPrefix op)
  | .infixOp l op r => settle do
    let l ← need l sc
    let r ← need r sc
    check (Value.applyInfix op l r)
  | .ifExpr c t e => settle do
    let c ← need c sc
    if c.isTruthy then eval (.block t) sc
    else match e with
      | some ss => eval (.block ss) sc
      | none => return .null
  | .fnLit params body => do
    let i ← fresh
    return .function i params (.block body) sc
  | .macroLit params body => do
    let i ← fresh
    return .macroFn i params (.block body) sc
  | .call callee args => settle
    (if callee.isIdent "quote" then evalQuoteCall callee args sc else evalCall callee args sc)

/-- Evaluates a tree in a scope, with evaluation nested at most `depth` deep. -/
def Node.evaluate (depth : Nat) (n : Node) (sc : Scope) : Store → Outcome Value :=
  (eval n sc).run evalRule depth

end Monkey
