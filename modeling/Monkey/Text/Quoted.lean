import Monkey.Text.Printable

/-!
# Quoted text

A text in quotes, for use in messages: every character that could be mistaken
for something else, or not be seen, is written as an escape, so the result is
always one line. Single quotes are used unless the text has single quotes and
no double ones.

## Main definitions

* `Text.quoted`.
-/

namespace Monkey.Text

/-- A number in lower-case hexadecimal, with zeros in front up to `width` digits. -/
def hex (width n : Nat) : List Char :=
  let digits := Nat.toDigits 16 n
  List.replicate (width - digits.length) '0' ++ digits

/-- The escape for a character by its number: two, four or eight hexadecimal digits, the fewest
that hold it. -/
def numericEscape (n : Nat) : List Char :=
  if n < 0x100 then '\\' :: 'x' :: hex 2 n
  else if n < 0x10000 then '\\' :: 'u' :: hex 4 n
  else '\\' :: 'U' :: hex 8 n

/-- A character as it is written between quotes of the kind `quote`. -/
def escaped (quote c : Char) : List Char :=
  if c = quote ∨ c = '\\' then ['\\', c]
  else if c = '\n' then ['\\', 'n']
  else if c = '\r' then ['\\', 'r']
  else if c = '\t' then ['\\', 't']
  else if isPrintable c then [c]
  else numericEscape c.toNat

/-- The quotes to put around a text. -/
def quoteFor (cs : List Char) : Char :=
  if cs.contains '\'' && !cs.contains '"' then '"' else '\''

/-- A text in quotes. -/
def quoted (s : String) : String :=
  let cs := s.toList
  let q := quoteFor cs
  String.ofList (q :: cs.flatMap (escaped q) ++ [q])

end Monkey.Text
