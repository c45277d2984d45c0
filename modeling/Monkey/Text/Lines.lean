/-!
# Lines

Two notions of line are in use. Source text and highlighted text are divided at
line feeds only. Messages are cut at the first character that any convention
takes for the end of a line.

## Main definitions

* `Text.splitLines` — the lines of a text, divided at line feeds.
* `Text.firstLine` — a text up to its first line end of any kind.
* `Text.unifyNewlines` — a text with every line end of a file made a line feed.

## Main results

* `Text.joinLines_splitLines` — joining the lines with line feeds gives the text
  back.
-/

namespace Monkey.Text

/-- The lines of a text, divided at line feeds; there is always at least one. -/
def splitLines : List Char → List (List Char)
  | [] => [[]]
  | c :: cs =>
    if c = '\n' then [] :: splitLines cs
    else match splitLines cs with
      | [] => [[c]]
      | l :: ls => (c :: l) :: ls

/-- Lines put together with a line feed between each two. -/
def joinLines : List (List Char) → List Char
  | [] => []
  | [l] => l
  | l :: ls => l ++ '\n' :: joinLines ls

theorem splitLines_ne_nil (cs : List Char) : splitLines cs ≠ [] := by
  cases cs with
  | nil => simp [splitLines]
  | cons c cs =>
    rw [splitLines]
    split
    · simp
    · split <;> simp

theorem joinLines_splitLines (cs : List Char) : joinLines (splitLines cs) = cs := by
  induction cs with
  | nil => rfl
  | cons c cs ih =>
    rw [splitLines]
    split
    next h =>
      cases hl : splitLines cs with
      | nil => exact absurd hl (splitLines_ne_nil cs)
      | cons l ls => rw [hl] at ih; simp [joinLines, ih, h]
    next =>
      cases hl : splitLines cs with
      | nil => exact absurd hl (splitLines_ne_nil cs)
      | cons l ls =>
        rw [hl] at ih
        cases ls <;> simp_all [joinLines]

/-- The characters that some convention takes for the end of a line. -/
def lineEnds : List Char :=
  ['\n', '\x0b', '\x0c', '\r', '\x1c', '\x1d', '\x1e', '\u0085', '\u2028', '\u2029']

/-- A text up to its first line end of any kind. -/
def firstLine (s : String) : String :=
  String.ofList (s.toList.takeWhile (!lineEnds.contains ·))

/-- Makes each carriage return, and each carriage return with a line feed after it, a line
feed. -/
def unifyNewlines : List Char → List Char
  | '\r' :: '\n' :: cs => '\n' :: unifyNewlines cs
  | c :: cs => (if c = '\r' then '\n' else c) :: unifyNewlines cs
  | [] => []

end Monkey.Text
