import Monkey.Value

/-!
# The text of values

`Value.inspect` is the text that `puts` and the prompt show for a value. A value
on its way out of a call shows as the value itself. As with syntax trees, a
number of too many digits has no text, and `Value.showable` asks whether a value
is free of such numbers.

## Main definitions

* `Value.inspect`, `Value.showable` and `Value.inspect?`, which joins the two.
* `Value.inspectDepth` — how deeply the text nests.
-/

namespace Monkey.Value

/-- The text of a hash key. -/
def inspectKey : Key → String
  | .int n => Numeral.render n
  | .str s => s
  | .bool b => if b then "true" else "false"

mutual

/-- The text of a value. -/
def inspect : Value → String
  | .null => "null"
  | .int n => Numeral.render n
  | .str s => s
  | .bool b => if b then "true" else "false"
  | .array _ items => "[" ++ ", ".intercalate (inspectList items) ++ "]"
  | .hash _ entries => "\x7b" ++ ", ".intercalate (inspectEntries entries) ++ "\x7d"
  | .function _ params body _ => Node.renderHead "fn" params ++ body.render
  | .macroFn _ params body _ => Node.renderHead "macro" params ++ body.render
  | .builtin b => "builtin function " ++ b.name
  | .quote _ node => "QUOTE(" ++ node.render ++ ")"
  | .returned _ v => v.inspect
  | .error _ fault => "ERROR: " ++ fault.message

/-- The texts of the values of a list, in order. -/
def inspectList : List Value → List String
  | [] => []
  | v :: vs => v.inspect :: inspectList vs

/-- The texts `key: value` of the entries of a hash, in order. -/
def inspectEntries : List (Key × Value) → List String
  | [] => []
  | (k, v) :: es => (inspectKey k ++ ": " ++ v.inspect) :: inspectEntries es

end

/-- Whether a hash key has a text. -/
def showableKey : Key → Bool
  | .int n => decide (Numeral.Writable n)
  | _ => true

mutual

/-- Whether every number in a value has a numeral. -/
def showable : Value → Bool
  | .int n => decide (Numeral.Writable n)
  | .array _ items => showableList items
  | .hash _ entries => showableEntries entries
  | .function _ _ body _ | .macroFn _ _ body _ => body.writable
  | .quote _ node => node.writable
  | .returned _ v => v.showable
  | .null | .str _ | .bool _ | .builtin _ | .error _ _ => true

/-- Whether every number in a list of values has a numeral. -/
def showableList : List Value → Bool
  | [] => true
  | v :: vs => v.showable && showableList vs

/-- Whether every number in the entries of a hash has a numeral. -/
def showableEntries : List (Key × Value) → Bool
  | [] => true
  | (k, v) :: es => showableKey k && v.showable && showableEntries es

end

mutual

/-- How deeply the text of a value nests: one level for each value in it, and the levels of the
trees that it holds. -/
def inspectDepth : Value → Nat
  | .null | .int _ | .str _ | .bool _ | .builtin _ | .error _ _ => 1
  | .array _ items => inspectDepthList items + 1
  | .hash _ entries => inspectDepthEntries entries + 1
  | .function _ _ body _ | .macroFn _ _ body _ => body.renderDepth + 1
  | .quote _ node => node.renderDepth + 1
  | .returned _ v => v.inspectDepth + 1

/-- How deeply the texts of the values of a list nest. -/
def inspectDepthList : List Value → Nat
  | [] => 0
  | v :: vs => max v.inspectDepth (inspectDepthList vs)

/-- How deeply the texts of the entries of a hash nest. -/
def inspectDepthEntries : List (Key × Value) → Nat
  | [] => 0
  | (_, v) :: es => max v.inspectDepth (inspectDepthEntries es)

end

/-- The text of a value, if it has one. -/
def inspect? (v : Value) : Option String :=
  if v.showable then some v.inspect else none

end Monkey.Value
