import Monkey.Eval

/-!
# Macros

Between parsing and evaluation a program's macros are taken out and their calls
replaced. Only a `let` at the top level of a program whose value is a macro
literal defines a macro. A macro gets its arguments as quoted trees, unevaluated,
and must yield a quoted tree, which takes the place of the call.

Calls are replaced from the leaves up, so a macro sees its arguments already
expanded; what a macro yields is not expanded again.

What is worth noting is noted as it happens. How a note is taken is a parameter, by
which taking it may end the run.

## Main definitions

* `defineMacros` — takes the macro definitions out of a list of statements.
* `expandMacros` — replaces the macro calls in a program.
-/

namespace Monkey

open Monkey.Computation

/-- A computation that may fail because a macro call cannot be replaced. -/
abbrev Expansion := ExceptT Fault Computation

/-- Binds the macros that statements define, and yields the other statements. -/
def defineMacros (sc : Scope) (ss : List Node) (log : Note → Computation Unit := takeNote) :
    Computation (List Node) :=
  match ss with
  | [] => return []
  | .letStmt name (.macroLit params body) :: ss => do
    let i ← fresh
    modify (Store.define sc name (.macroFn i params (.block body) sc))
    log (.defined name params)
    defineMacros sc ss log
  | s :: ss => do
    let kept ← defineMacros sc ss log
    return s :: kept

/-- The parameters, body and scope of the macro that a name is bound to. -/
def findMacro (name : String) (sc : Scope) : Computation (Option (List String × Node × Scope)) :=
  reading fun st =>
    match st.lookup name sc with
    | some (.macroFn _ params body inner) => some (params, body, inner)
    | _ => none

/-- Trees as quoted values. -/
def quoteAll : List Node → Computation (List Value)
  | [] => return []
  | n :: ns => do
    let q ← newQuote n
    let qs ← quoteAll ns
    return q :: qs

/-- The tree that takes the place of the call of a macro. -/
def expandCall (name : String) (args : List Node) (params : List String) (body : Node)
    (sc : Scope) (log : Note → Computation Unit := takeNote) : Expansion Node := do
  if args.length ≠ params.length then throw (.macroArity params.length args.length)
  let quotes ← quoteAll args
  let inner ← openScope sc (bindParams params quotes)
  let v ← eval body inner
  match v.unwrapped with
  | .error _ fault => throw (.inMacro name fault)
  | .quote _ n =>
    log (.expanded (.call (.ident name) args) n)
    return n
  | v => throw (.macroYield name v.kind)

/-- Replaces a tree that is a macro call, and leaves any other tree alone. -/
def expandStep (sc : Scope) (n : Node) (log : Note → Computation Unit := takeNote) :
    Expansion Node :=
  match n with
  | .call (.ident name) args => do
    match ← (findMacro name sc : Computation _) with
    | some (params, body, inner) => expandCall name args params body inner log
    | none => return .call (.ident name) args
  | n => return n

/-- Replaces all macro calls in a program. -/
def expandMacros (sc : Scope) (program : Node) (log : Note → Computation Unit := takeNote) :
    Expansion Node := do
  match ← (program.rebuildM fun n => expandStep sc n log).run with
  | .ok n => return n
  | .error e => fail (.illSorted e)

end Monkey
