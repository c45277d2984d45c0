/-!
# Tokens

The words of a source text: keywords, names, numbers, strings and signs, each
with its text and the place where it stands.

## Main definitions

* `TokenKind`, `TokenKind.name` and `TokenKind.ofWord`.
* `Position` and `Position.after`, the position behind some text.
* `Token`.
-/

namespace Monkey

/-- The kinds of tokens. -/
inductive TokenKind where
  | kwLet | kwReturn | kwFn | kwMacro | kwIf | kwElse | kwTrue | kwFalse
  | ident | int | string
  | eq | notEq | lt | gt | plus | minus | star | slash | bang | assign
  | semicolon | comma | colon
  | lparen | rparen | lbracket | rbracket | lbrace | rbrace
  deriving DecidableEq, Inhabited

/-- A kind of token, as messages and listings spell it. -/
def TokenKind.name : TokenKind → String
  | kwLet => "_LET"
  | kwReturn => "_RETURN"
  | kwFn => "_FN"
  | kwMacro => "_MACRO"
  | kwIf => "_IF"
  | kwElse => "_ELSE"
  | kwTrue => "TRUE"
  | kwFalse => "FALSE"
  | ident => "IDENT"
  | int => "INT"
  | string => "STRING"
  | eq => "EQ"
  | notEq => "NOT_EQ"
  | lt => "LT"
  | gt => "GT"
  | plus => "PLUS"
  | minus => "MINUS"
  | star => "STAR"
  | slash => "SLASH"
  | bang => "BANG"
  | assign => "EQUAL"
  | semicolon => "SEMICOLON"
  | comma => "COMMA"
  | colon => "COLON"
  | lparen => "LPAR"
  | rparen => "RPAR"
  | lbracket => "LSQB"
  | rbracket => "RSQB"
  | lbrace => "LBRACE"
  | rbrace => "RBRACE"

namespace TokenKind

/-- The words that are not names, and what they are instead. -/
def keywords : List (String × TokenKind) :=
  [("let", .kwLet), ("return", .kwReturn), ("fn", .kwFn), ("macro", .kwMacro), ("if", .kwIf),
   ("else", .kwElse), ("true", .kwTrue), ("false", .kwFalse)]

/-- The kind of a word: a keyword only if the whole word is one. -/
def ofWord (word : String) : TokenKind :=
  ((keywords.find? (·.1 == word)).map (·.2)).getD .ident

end TokenKind

/-- A place in a text. Offsets count characters from zero, lines and columns from one; a line
ends at a line feed and nowhere else. -/
structure Position where
  offset : Nat
  line : Nat
  column : Nat
  deriving DecidableEq, Inhabited

namespace Position

/-- The start of a text. -/
def start : Position := ⟨0, 1, 1⟩

/-- The position behind one character. -/
def next (p : Position) (c : Char) : Position :=
  if c = '\n' then ⟨p.offset + 1, p.line + 1, 1⟩ else ⟨p.offset + 1, p.line, p.column + 1⟩

/-- The position behind some text. -/
def after (p : Position) (cs : List Char) : Position := cs.foldl next p

@[simp] theorem after_nil (p : Position) : p.after [] = p := rfl

@[simp] theorem after_cons (p : Position) (c : Char) (cs : List Char) :
    p.after (c :: cs) = (p.next c).after cs := rfl

theorem after_append (p : Position) (cs ds : List Char) :
    p.after (cs ++ ds) = (p.after cs).after ds :=
  List.foldl_append ..

theorem offset_after (p : Position) (cs : List Char) :
    (p.after cs).offset = p.offset + cs.length := by
  induction cs generalizing p with
  | nil => rfl
  | cons c cs ih =>
    rw [after_cons, ih, next]
    split <;> simp <;> omega

end Position

/-- A token: its kind and text, and where it starts and ends. -/
structure Token where
  kind : TokenKind
  text : String
  start : Position
  finish : Position
  deriving DecidableEq, Inhabited

end Monkey
