import Monkey.Value

/-!
# Operators on values

The operators work on values that are already known. Numbers are unbounded and
division rounds toward zero. Two strings can be joined, and nothing else can be
done with them, not even comparison. Every other pair of values has `==` and
`!=`, which ask whether both sides are one and the same value.

## Main definitions

* `Value.quotient` — division of numbers.
* `Value.applyPrefix`, `Value.applyInfix`, `Value.applyIndex`.
-/

namespace Monkey.Value

/-- `!v` and `-v`. -/
def applyPrefix (op : String) (v : Value) : Except Fault Value :=
  if op = "!" then .ok (.bool !v.isTruthy)
  else match op, v with
    | "-", .int n => .ok (.int (-n))
    | _, _ => .error (.unknownPrefix op v.kind)

/-- The quotient of two numbers, rounded toward zero: that of their magnitudes, negative if only one
of the numbers is. -/
def quotient (a b : Int) : Int :=
  let q : Int := a.natAbs / b.natAbs
  if a < 0 ↔ b < 0 then q else -q

/-- An operator between two numbers. -/
def applyToInts (op : String) (a b : Int) : Except Fault Value :=
  match op with
  | "+" => .ok (.int (a + b))
  | "-" => .ok (.int (a - b))
  | "*" => .ok (.int (a * b))
  | "/" => if b = 0 then .error .divisionByZero else .ok (.int (quotient a b))
  | "<" => .ok (.bool (decide (a < b)))
  | ">" => .ok (.bool (decide (a > b)))
  | "==" => .ok (.bool (a == b))
  | "!=" => .ok (.bool (a != b))
  | _ => .error (.unknownInfix .integer op .integer)

/-- An operator between two strings. -/
def applyToStrs (op : String) (a b : String) : Except Fault Value :=
  if op = "+" then .ok (.str (a ++ b)) else .error (.unknownInfix .string op .string)

/-- An operator between values that are neither two numbers nor two strings. -/
def applyToOthers (op : String) (l r : Value) : Except Fault Value :=
  match op with
  | "==" => .ok (.bool (identical l r))
  | "!=" => .ok (.bool !identical l r)
  | _ =>
    if l.kind = r.kind then .error (.unknownInfix l.kind op r.kind)
    else .error (.typeMismatch l.kind op r.kind)

/-- An operator between two values. -/
def applyInfix (op : String) (l r : Value) : Except Fault Value :=
  match l, r with
  | .int a, .int b => applyToInts op a b
  | .str a, .str b => applyToStrs op a b
  | l, r => applyToOthers op l r

/-- `left[position]`: an item of an array, or what a hash holds for a key; `null` if there is
none. -/
def applyIndex (left position : Value) : Except Fault Value :=
  match left, position with
  | .array _ items, .int n =>
    if n < 0 then .ok .null else .ok ((items[n.toNat]?).getD .null)
  | .hash _ entries, k => do
    let key ← k.key?
    return lookupKey entries key
  | l, _ => .error (.notIndexable l.kind)

end Monkey.Value
