/-!
# Editing lines

What the prompt does while a line is typed, on a buffer that is a text and a
cursor: Enter goes on to another line as long as a bracket is open, Backspace
deletes, and commands to the console are completed.

## Main definitions

* `Editor.openDepth` — how many brackets are open at the end of a text.
* `Editor.Buffer`, `Editor.enter`, `Editor.backspace`.
* `Editor.completions`.
-/

namespace Monkey.Editor

/-- How many brackets of any kind are open, and whether a string is. -/
structure Brackets where
  depth : Nat
  inString : Bool
  deriving DecidableEq

/-- The brackets that are open behind one more character. Brackets inside strings do not count,
closing brackets need not fit the brackets they close, and surplus ones are ignored. -/
def Brackets.next (b : Brackets) (c : Char) : Brackets :=
  if c = '"' then { b with inString := !b.inString }
  else if b.inString then b
  else if c = '(' ∨ c = '[' ∨ c = '\x7b' then { b with depth := b.depth + 1 }
  else if c = ')' ∨ c = ']' ∨ c = '\x7d' then { b with depth := b.depth - 1 }
  else b

/-- How many brackets are open at the end of a text. -/
def openDepth (text : List Char) : Nat :=
  (text.foldl Brackets.next ⟨0, false⟩).depth

/-- A text that is being typed, and how many of its characters are before the cursor. -/
structure Buffer where
  text : List Char
  cursor : Nat
  deriving DecidableEq

/-- What a key sets off besides changing the buffer. -/
inductive Effect where
  /-- The text is handed over. -/
  | submit
  /-- Completions are offered. -/
  | complete
  deriving DecidableEq

/-- Puts characters in at the cursor. -/
def Buffer.insert (b : Buffer) (cs : List Char) : Buffer :=
  ⟨b.text.take b.cursor ++ cs ++ b.text.drop b.cursor, b.cursor + cs.length⟩

/-- Deletes the character before the cursor, if there is one. -/
def Buffer.deleteBefore (b : Buffer) : Buffer :=
  ⟨b.text.take (b.cursor - 1) ++ b.text.drop b.cursor, b.cursor - 1⟩

/-- The Enter key: another line while a bracket is open, else the text is handed over. -/
def enter (b : Buffer) : Buffer × List Effect :=
  if 0 < openDepth b.text then (b.insert "\n    ".toList, []) else (b, [.submit])

/-- The Backspace key; completions are offered for what may become a command. -/
def backspace (b : Buffer) : Buffer × List Effect :=
  let b := b.deleteBefore
  (b, if b.text.head? = some '/' then [.complete] else [])

/-- The commands to the console, with what they do. -/
def commands : List (String × String) :=
  [("/clear", "Clear the terminal screen"),
   ("/py-traceback", "Toggle Python traceback on errors"),
   ("/reset", "Reset the REPL environment")]

/-- A completion: the text to put in, where it starts relative to the cursor, and what the command
does. -/
structure Completion where
  text : String
  start : Int
  description : String
  deriving DecidableEq

/-- The commands that start with what is before the cursor, which must start with a slash. -/
def completions (b : Buffer) : List Completion :=
  let typed := b.text.take b.cursor
  if typed.head? = some '/' then
    (commands.filter fun c => typed.isPrefixOf c.1.toList).map fun c =>
      ⟨c.1, -typed.length, c.2⟩
  else []

end Monkey.Editor
