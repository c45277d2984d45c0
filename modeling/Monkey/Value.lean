import Monkey.Fault
import Monkey.Table
import Monkey.Node.Render

/-!
# Values

What programs compute with. Numbers and strings are compared by content;
everything else is compared by *identity*: an array literal that is evaluated
twice makes two arrays, and they are different even when they hold the same
items. `Identity` is the number that tells such values apart; the two booleans,
`null` and the builtins exist once and need none.

Functions and macros remember the scope they were made in, by its place in the
store (`Monkey.Store`).

A `return` that has run, but has not yet reached the end of its call, travels as
a value of its own (`Value.returned`); so does an error (`Value.error`).

## Main definitions

* `Key` — what can be a hash key, and `Value.key?`, which values are keys.
* `Builtin` — the builtin functions.
* `Value`, `Value.kind`, `Value.isTruthy`, `Value.identical`.
-/

namespace Monkey

/-- A scope: the place of its frame in the store. -/
structure Scope where
  /-- The number of frames made before this scope's frame. -/
  index : Nat
  deriving DecidableEq, Inhabited

/-- Tells apart values that look alike but were made separately. -/
abbrev Identity := Nat

/-- A hash key: a number, a string or a boolean. Keys of different kinds never match. -/
inductive Key where
  | int (n : Int)
  | str (s : String)
  | bool (b : Bool)
  deriving DecidableEq, Inhabited

/-- The builtin functions. -/
inductive Builtin where
  | len | puts | first | last | rest | push
  deriving DecidableEq, Inhabited

/-- All builtins. -/
def Builtin.all : List Builtin := [.len, .puts, .first, .last, .rest, .push]

/-- The name under which programs find a builtin. -/
def Builtin.name : Builtin → String
  | len => "len"
  | puts => "puts"
  | first => "first"
  | last => "last"
  | rest => "rest"
  | push => "push"

/-- How many arguments a builtin takes; `puts` takes any number. -/
def Builtin.arity : Builtin → Option Nat
  | len | first | last | rest => some 1
  | push => some 2
  | puts => none

/-- The builtin of a name. -/
def Builtin.ofName? (name : String) : Option Builtin :=
  Builtin.all.find? (·.name == name)

/-- A value of the language. -/
inductive Value where
  | null
  | int (n : Int)
  | str (s : String)
  | bool (b : Bool)
  | array (identity : Identity) (items : List Value)
  | hash (identity : Identity) (entries : List (Key × Value))
  | function (identity : Identity) (params : List String) (body : Node) (scope : Scope)
  | macroFn (identity : Identity) (params : List String) (body : Node) (scope : Scope)
  | builtin (b : Builtin)
  | quote (identity : Identity) (node : Node)
  /-- A value on its way to the end of the call or program that it returns from. -/
  | returned (identity : Identity) (value : Value)
  | error (identity : Identity) (fault : Fault)
  deriving Inhabited

/-- The value that a key was made from. -/
def Key.toValue : Key → Value
  | int n => .int n
  | str s => .str s
  | bool b => .bool b

namespace Value

/-- The kind of a value. -/
def kind : Value → Kind
  | null => .null
  | int _ => .integer
  | str _ => .string
  | bool _ => .boolean
  | array _ _ => .array
  | hash _ _ => .hash
  | function _ _ _ _ => .function
  | macroFn _ _ _ _ => .macroFn
  | builtin _ => .builtin
  | quote _ _ => .quote
  | returned _ _ => .returnValue
  | error _ _ => .error

/-- Errors, which no computation continues past. -/
def isError : Value → Bool
  | error _ _ => true
  | _ => false

/-- Values at which a list of statements stops: errors and values being returned. -/
def stopsBlock : Value → Bool
  | error _ _ | returned _ _ => true
  | _ => false

/-- Takes off one layer of a value being returned. -/
def unwrapped : Value → Value
  | returned _ v => v
  | v => v

/-- Only `false` and `null` count as false. -/
def isTruthy : Value → Bool
  | bool b => b
  | null => false
  | _ => true

/-- The hash key that a value is, if it can be one. -/
def key? : Value → Except Fault Key
  | int n => .ok (.int n)
  | str s => .ok (.str s)
  | bool b => .ok (.bool b)
  | v => .error (.unusableKey v.kind)

/-- What a hash holds for a key, `null` if nothing. -/
def lookupKey (entries : List (Key × Value)) (key : Key) : Value :=
  (Table.find? key entries).getD .null

/--
Whether two values are one and the same. Booleans, `null` and builtins exist
once each; numbers and strings are never asked, because they are compared by
content; all others carry their identity.
-/
def identical : Value → Value → Bool
  | null, null => true
  | bool a, bool b => a == b
  | int a, int b => a == b
  | str a, str b => a == b
  | builtin a, builtin b => a == b
  | array i _, array j _
  | hash i _, hash j _
  | function i _ _ _, function j _ _ _
  | macroFn i _ _ _, macroFn j _ _ _
  | quote i _, quote j _
  | returned i _, returned j _
  | error i _, error j _ => i == j
  | _, _ => false

@[simp] theorem unwrapped_returned (i : Identity) (v : Value) : (returned i v).unwrapped = v := rfl

@[simp] theorem key?_toValue (k : Key) : k.toValue.key? = .ok k := by
  cases k <;> rfl

end Value
end Monkey
