import Monkey.Node
import Monkey.Text.Numeral

/-!
# Faults of a running program

A program that goes wrong does not stop the interpreter: it yields an error
value. `Fault` lists what can go wrong, by cause, and `Fault.message` words it.
Faults name the kinds of the values involved, never the values, so that wording
a fault cannot itself go wrong.

## Main definitions

* `Kind` and `Kind.name` — the kinds of values.
* `Fault` and `Fault.message` — the causes and their texts.
-/

namespace Monkey

/-- The kinds of values. -/
inductive Kind where
  | null | integer | string | boolean | array | hash
  | function | macroFn | builtin | quote | returnValue | error
  deriving DecidableEq, Inhabited

/-- A kind, as programs and messages spell it. -/
def Kind.name : Kind → String
  | null => "NULL"
  | integer => "INTEGER"
  | string => "STRING"
  | boolean => "BOOLEAN"
  | array => "ARRAY"
  | hash => "HASH"
  | function => "FUNCTION"
  | macroFn => "MACRO"
  | builtin => "BUILTIN"
  | quote => "QUOTE"
  | returnValue => "RETURN_VALUE"
  | error => "ERROR"

/-- What can go wrong while a program runs or its macros are expanded. -/
inductive Fault where
  /-- No scope and no builtin has the name. -/
  | unboundName (name : String)
  /-- An operator between values of different kinds. -/
  | typeMismatch (left : Kind) (operator : String) (right : Kind)
  /-- An operator that values of this kind do not have. -/
  | unknownInfix (left : Kind) (operator : String) (right : Kind)
  /-- An operator that does not go in front of values of this kind. -/
  | unknownPrefix (operator : String) (right : Kind)
  /-- A division by zero. -/
  | divisionByZero
  /-- A call of something that cannot be called. -/
  | notCallable (callee : Kind)
  /-- A function called with the wrong number of arguments. -/
  | functionArity (want got : Nat)
  /-- A builtin called with the wrong number of arguments. -/
  | builtinArity (want got : Nat)
  /-- `quote` used with other than one argument. -/
  | quoteArity (got : Nat)
  /-- A macro called with the wrong number of arguments. -/
  | macroArity (want got : Nat)
  /-- An index into something that has none. -/
  | notIndexable (left : Kind)
  /-- A hash key of a kind that cannot be one. -/
  | unusableKey (key : Kind)
  /-- `len` of something without a length. -/
  | noLength (argument : Kind)
  /-- A builtin that works on arrays was given something else. -/
  | arrayExpected (builtin : String) (argument : Kind)
  /-- A value that has no written form as syntax. -/
  | notSyntax (value : Kind)
  /-- Quoted syntax that cannot stand where an expression must stand. -/
  | notExpression (found : Node)
  /-- A fault inside the body of a macro. -/
  | inMacro (name : String) (cause : Fault)
  /-- A macro that yields something other than quoted syntax. -/
  | macroYield (name : String) (found : Kind)
  /-- A fault that is known by its text alone. -/
  | stated (text : String)
  deriving Inhabited

/-- The text of a fault. -/
def Fault.message : Fault → String
  | unboundName name => "identifier not found: " ++ name
  | typeMismatch l op r => "type mismatch: " ++ l.name ++ " " ++ op ++ " " ++ r.name
  | unknownInfix l op r => "unknown operator: " ++ l.name ++ " " ++ op ++ " " ++ r.name
  | unknownPrefix op r => "unknown operator: " ++ op ++ r.name
  | divisionByZero => "division by zero"
  | notCallable k => "not a function: " ++ k.name
  | functionArity want got =>
    "wrong number of arguments: want=" ++ Numeral.render want ++ ", got=" ++ Numeral.render got
  | builtinArity want got =>
    "wrong number of arguments. got=" ++ Numeral.render got ++ ", want=" ++ Numeral.render want
  | quoteArity got =>
    "wrong number of arguments to quote: got=" ++ Numeral.render got ++ ", want=1"
  | macroArity want got =>
    "wrong number of macro arguments: want=" ++ Numeral.render want ++
      ", got=" ++ Numeral.render got
  | notIndexable k => "index operator not supported: " ++ k.name
  | unusableKey k => "unusable as hash key: " ++ k.name
  | noLength k => "argument to `len` not supported, got " ++ k.name
  | arrayExpected b k => "argument to `" ++ b ++ "` must be ARRAY, got " ++ k.name
  | notSyntax k => "unquote: cannot convert " ++ k.name ++ " to a syntax node"
  | notExpression found => "unquote: cannot splice " ++ found.kindName ++ " into an expression"
  | inMacro name cause => "macro " ++ name ++ ": " ++ cause.message
  | macroYield name k => "macro " ++ name ++ " must return a quoted syntax tree, got " ++ k.name
  | stated text => text

end Monkey
