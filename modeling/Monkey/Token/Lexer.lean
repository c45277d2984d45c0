import Monkey.Token

/-!
# Lexing

A text is read from left to right. Layout (spaces, tabs, form feeds, carriage
returns and line feeds) separates tokens and is skipped. At any other character
the longest token that starts there is taken; where no token starts, reading
stops.

Words and numbers are made of ASCII characters only. A string runs to the next
double quote, over line ends too, and has no escapes.

## Main definitions

* `Lexer.scan` — the token that starts at a character.
* `Lexing` — all tokens up to the end of a text, or up to where reading stopped.
* `lex` — the reading of a text.

## Main results

* `Lexer.scan_append` — a token and what follows it are the text it was taken
  from.
-/

namespace Monkey

namespace Lexer

/-- The characters between tokens. -/
def isLayout (c : Char) : Bool :=
  c == ' ' || c == '\t' || c == '\x0c' || c == '\r' || c == '\n'

/-- The characters that start a word: ASCII letters and the underscore. -/
def isWordStart (c : Char) : Bool :=
  ('a' ≤ c && c ≤ 'z') || ('A' ≤ c && c ≤ 'Z') || c == '_'

/-- The ASCII digits. -/
def isNumeric (c : Char) : Bool := '0' ≤ c && c ≤ '9'

/-- The characters that continue a word. -/
def isWordPart (c : Char) : Bool := isWordStart c || isNumeric c

/-- The signs that consist of one character. -/
def sign? : Char → Option TokenKind
  | '=' => some .assign
  | '!' => some .bang
  | '<' => some .lt
  | '>' => some .gt
  | '+' => some .plus
  | '-' => some .minus
  | '*' => some .star
  | '/' => some .slash
  | ';' => some .semicolon
  | ',' => some .comma
  | ':' => some .colon
  | '(' => some .lparen
  | ')' => some .rparen
  | '[' => some .lbracket
  | ']' => some .rbracket
  | '\x7b' => some .lbrace
  | '\x7d' => some .rbrace
  | _ => none

/-- A token as it is cut from a text: its kind, its characters after the first, and the
text behind it. -/
structure Cut where
  kind : TokenKind
  more : List Char
  rest : List Char

/-- The token that starts with the character `c`, when `cs` follows. -/
def scan (c : Char) (cs : List Char) : Option Cut :=
  if isWordStart c then
    let more := cs.takeWhile isWordPart
    some ⟨TokenKind.ofWord (String.ofList (c :: more)), more, cs.dropWhile isWordPart⟩
  else if isNumeric c then
    some ⟨.int, cs.takeWhile isNumeric, cs.dropWhile isNumeric⟩
  else if c = '"' then
    match cs.dropWhile (· != '"') with
    | q :: rest => some ⟨.string, cs.takeWhile (· != '"') ++ [q], rest⟩
    | [] => none
  else match c, cs with
    | '=', '=' :: rest => some ⟨.eq, ['='], rest⟩
    | '!', '=' :: rest => some ⟨.notEq, ['='], rest⟩
    | c, cs => (sign? c).map fun k => ⟨k, [], cs⟩

theorem scan_append {c : Char} {cs : List Char} {cut : Cut} (h : scan c cs = some cut) :
    cut.more ++ cut.rest = cs := by
  unfold scan at h
  split at h
  · obtain rfl := Option.some.inj h; simp
  split at h
  · obtain rfl := Option.some.inj h; simp
  split at h
  · split at h
    next q rest hq =>
      obtain rfl := Option.some.inj h
      have := List.takeWhile_append_dropWhile (p := (· != '"')) (l := cs)
      rw [hq] at this
      simpa using this
    next => simp at h
  split at h
  · obtain rfl := Option.some.inj h; rfl
  · obtain rfl := Option.some.inj h; rfl
  · obtain ⟨k, _, rfl⟩ := Option.map_eq_some_iff.1 h; rfl

theorem length_rest_le {c : Char} {cs : List Char} {cut : Cut} (h : scan c cs = some cut) :
    cut.rest.length ≤ cs.length := by
  rw [← scan_append h]; simp

end Lexer

/-- The tokens of a text, and the character at which reading stopped, if it did not reach the
end. -/
structure Lexing where
  tokens : List Token
  stop : Option (Char × Position)
  deriving Inhabited

/-- Reads the characters from a position on. -/
def lexFrom (p : Position) (text : List Char) : Lexing :=
  match text with
  | [] => ⟨[], none⟩
  | c :: cs =>
    if Lexer.isLayout c then lexFrom (p.next c) cs
    else match _h : Lexer.scan c cs with
      | none => ⟨[], some (c, p)⟩
      | some cut =>
        let finish := p.after (c :: cut.more)
        let later := lexFrom finish cut.rest
        ⟨⟨cut.kind, String.ofList (c :: cut.more), p, finish⟩ :: later.tokens, later.stop⟩
termination_by text.length
decreasing_by
  · simp
  · have := Lexer.length_rest_le _h
    simp only [List.length_cons]; omega

/-- Reads a text. -/
def lex (source : String) : Lexing := lexFrom .start source.toList

end Monkey
