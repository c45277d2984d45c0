import Monkey.Token.Lexer
import Monkey.Text.Lines

/-!
# Highlighting

Text that is being typed is shown in colours, line by line: each token in the
style of its group, layout between tokens unstyled, and what cannot be read as an
error. Each line is read on its own, so a string that runs over a line end is an
error in the line where it starts.

## Main definitions

* `Highlight.Fragment` — a piece of text with a style.
* `Highlight.line` — the fragments of one line.
* `Highlight.document` — the fragments of all lines of a text.
-/

namespace Monkey.Highlight

/-- The groups of tokens that are shown alike. -/
inductive Group where
  | keyword | boolean | number | string | identifier | builtin | operator | punctuation | error
  deriving DecidableEq

/-- How a group is shown. -/
def Group.style : Group → String
  | keyword => "bold ansicyan"
  | boolean => "ansicyan"
  | number => "ansimagenta"
  | string => "ansigreen"
  | identifier => ""
  | builtin => "bold ansiyellow"
  | operator => ""
  | punctuation => ""
  | error => "bold ansired"

/-- The names that are shown as builtin. -/
def builtinNames : List String :=
  ["len", "puts", "first", "last", "rest", "push", "quote", "unquote"]

/-- The group of a token. -/
def group (t : Token) : Group :=
  match t.kind with
  | .kwTrue | .kwFalse => .boolean
  | .kwLet | .kwReturn | .kwFn | .kwMacro | .kwIf | .kwElse => .keyword
  | .int => .number
  | .string => .string
  | .ident => if builtinNames.contains t.text then .builtin else .identifier
  | .eq | .notEq | .lt | .gt | .plus | .minus | .star | .slash | .bang | .assign => .operator
  | .semicolon | .comma | .colon | .lparen | .rparen | .lbracket | .rbracket | .lbrace
  | .rbrace => .punctuation

/-- A piece of text with a style. -/
structure Fragment where
  style : String
  text : List Char
  deriving DecidableEq

/-- Unstyled text, left out when it is empty. -/
def plain (text : List Char) : List Fragment :=
  if text.isEmpty then [] else [⟨"", text⟩]

/-- The fragments of `text`, which starts at offset `offset` of its line, when `tokens` are the
tokens in it and `readable` says whether it can be read to its end. -/
def fragments (readable : Bool) (offset : Nat) (text : List Char) :
    List Token → List Fragment
  | [] => if readable then plain text else [⟨Group.error.style, text⟩]
  | t :: ts =>
    let gap := t.start.offset - offset
    let size := t.text.length
    plain (text.take gap) ++ ⟨(group t).style, (text.drop gap).take size⟩ ::
      fragments readable t.finish.offset ((text.drop gap).drop size) ts

/-- The fragments of one line; an empty line is one empty fragment. -/
def line (text : List Char) : List Fragment :=
  if text.isEmpty then [⟨"", []⟩]
  else
    let lexing := lexFrom .start text
    fragments lexing.stop.isNone 0 text lexing.tokens

/-- The fragments of all lines of a text. -/
def document (text : List Char) : List (List Fragment) :=
  (Text.splitLines text).map line

end Monkey.Highlight
