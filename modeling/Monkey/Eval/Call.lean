import Monkey.Eval.Attempt
import Monkey.Value.Inspect

/-!
# Calls

A function runs its body in a new scope inside the scope it was made in, with
its parameters bound in order; a `return` that reaches the end of the body stops
there. The builtins compute directly, and only `puts` has an effect.

## Main definitions

* `Builtin.call` — a call of a builtin.
* `Value.call` — a call of any value.
-/

namespace Monkey

open Monkey.Computation

/-- Prints the text of each value on a line of its own. -/
def putLines : List Value → Computation Unit
  | [] => return ()
  | v :: vs => do
    match v.inspect? with
    | some text => modify (Store.printLine text)
    | none => fail .unwritableNumber
    putLines vs

/-- The array of these items, as a new value. -/
def newArray (items : List Value) : Computation Value := do
  let i ← fresh
  return .array i items

namespace Builtin

/-- What a builtin yields for as many arguments as it takes. -/
def apply : Builtin → List Value → Computation Value
  | len, [v] =>
    match v with
    | .str s => return .int s.length
    | .array _ items => return .int items.length
    | v => raise (.noLength v.kind)
  | puts, vs => do
    putLines vs
    return .null
  | first, [v] =>
    match v with
    | .array _ items => return items.head?.getD .null
    | v => raise (.arrayExpected first.name v.kind)
  | last, [v] =>
    match v with
    | .array _ items => return items.getLast?.getD .null
    | v => raise (.arrayExpected last.name v.kind)
  | rest, [v] =>
    match v with
    | .array _ [] => return .null
    | .array _ (_ :: items) => newArray items
    | v => raise (.arrayExpected rest.name v.kind)
  | push, [v, item] =>
    match v with
    | .array _ items => newArray (items ++ [item])
    | v => raise (.arrayExpected push.name v.kind)
  | b, args => raise (.builtinArity (b.arity.getD 0) args.length)

/-- Calls a builtin, which must be given as many arguments as it takes. -/
def call (b : Builtin) (args : List Value) : Computation Value :=
  match b.arity with
  | some want =>
    if args.length = want then b.apply args else raise (.builtinArity want args.length)
  | none => b.apply args

end Builtin

/-- The bindings of parameters to arguments; of two parameters of one name the later counts. -/
def bindParams (params : List String) (args : List Value) : Table String Value :=
  Table.insertAll (params.zip args) []

/-- Calls a value. -/
def Value.call (callee : Value) (args : List Value) : Computation Value :=
  match callee with
  | .function _ params body sc =>
    if args.length = params.length then do
      let inner ← openScope sc (bindParams params args)
      let v ← eval body inner
      return v.unwrapped
    else raise (.functionArity params.length args.length)
  | .builtin b => b.call args
  | v => raise (.notCallable v.kind)

end Monkey
