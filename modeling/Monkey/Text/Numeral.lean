/-!
# Numerals

Whole numbers are written in decimal, with a minus sign in front of a negative
one and no other decoration. Reading and writing share one bound: a numeral may
have at most `Numeral.maxDigits` digits. A literal that is longer is refused
when it is read (leading zeros count, because the bound is on the text), and a
number that would need more digits is refused when it is written.

## Main definitions

* `Numeral.render` — the text of a number.
* `Numeral.ofDigits` — the number that a run of digits denotes.
* `Numeral.Writable` — the number has at most `maxDigits` digits.
-/

namespace Monkey.Numeral

/-- The longest numeral that is read or written. -/
def maxDigits : Nat := 4300

/-- The first natural number that needs more than `maxDigits` digits. -/
def bound : Nat := Nat.pow 10 maxDigits

/-- Numbers whose numeral keeps to `maxDigits`, the sign not counted. -/
def Writable (n : Int) : Prop := n.natAbs < bound

instance (n : Int) : Decidable (Writable n) :=
  inferInstanceAs (Decidable (n.natAbs < bound))

/-- The decimal text of a number. -/
def render (n : Int) : String :=
  match n with
  | .ofNat k => k.repr
  | .negSucc k => "-" ++ (k + 1).repr

/-- The number that a text of digits `0` to `9` denotes, most significant digit first. -/
def ofDigits (digits : List Char) : Nat :=
  digits.foldl (fun n c => 10 * n + (c.toNat - '0'.toNat)) 0

end Monkey.Numeral
