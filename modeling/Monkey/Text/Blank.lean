/-!
# Blank characters

The characters that count as blank when the edges of a line are cleaned up and
when a command is split from its argument: the Unicode separators together with
the controls that move the writing position.

## Main definitions

* `Text.isBlank`, `Text.strip` and `Text.splitWord`.
-/

namespace Monkey.Text

/-- The runs of blank code points, first and last of each. -/
def blankRanges : List (Nat × Nat) :=
  [(0x9, 0xd), (0x1c, 0x20), (0x85, 0x85), (0xa0, 0xa0), (0x1680, 0x1680), (0x2000, 0x200a),
   (0x2028, 0x2029), (0x202f, 0x202f), (0x205f, 0x205f), (0x3000, 0x3000)]

/-- Whether a code point lies in one of the runs. -/
def inRanges (ranges : List (Nat × Nat)) (n : Nat) : Bool :=
  ranges.any fun r => r.1 ≤ n && n ≤ r.2

/-- Whether a character is blank. -/
def isBlank (c : Char) : Bool := inRanges blankRanges c.toNat

/-- The characters of a text without the blank ones at its end. -/
def dropBlankEnd (cs : List Char) : List Char :=
  (cs.reverse.dropWhile isBlank).reverse

/-- A text without the blank characters at both ends. -/
def strip (s : String) : String :=
  String.ofList (dropBlankEnd (s.toList.dropWhile isBlank))

/-- The first word of a text, up to the first blank character, and what follows the blank
characters after it. -/
def splitWord (s : String) : String × String :=
  let cs := s.toList
  (String.ofList (cs.takeWhile (!isBlank ·)),
    String.ofList ((cs.dropWhile (!isBlank ·)).dropWhile isBlank))

end Monkey.Text
