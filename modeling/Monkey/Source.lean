import Monkey.Node.Parser
import Monkey.Token.Lexer
import Monkey.Text.Lines
import Monkey.Text.Quoted

/-!
# Source text

From the text of a program to its tree, with everything that can be wrong with
a text. Reading and parsing go hand in hand: of a token that does not fit and
a character that starts no token, the one that comes first is reported. Only
a text without either can be refused for a number that is too long.

## Main definitions

* `ParseError` and `ParseError.message` — a text that is no program.
* `Source.parse` — the tree of a text.
-/

namespace Monkey

/-- Why a text is no program. -/
inductive ParseError where
  /-- A token that no program has at this place. -/
  | unexpected (token : Token)
  /-- The text ends, but no program ends here; `last` is where its last token starts. -/
  | unexpectedEnd (last : Position)
  /-- A character that starts no token. -/
  | unreadable (c : Char) (place : Position)

namespace ParseError

/-- The place that an error is reported at. -/
def place : ParseError → Position
  | unexpected t => t.start
  | unexpectedEnd p => p
  | unreadable _ p => p

/-- The text for a token that does not fit. -/
def tokenMessage (kind text : String) (p : Position) : String :=
  "Unexpected token Token('" ++ kind ++ "', " ++ Text.quoted text ++ ") at line " ++
    Numeral.render p.line ++ ", column " ++ Numeral.render p.column ++ "."

/-- What is wrong, in one line. -/
def summary : ParseError → String
  | unexpected t => tokenMessage t.kind.name t.text t.start
  | unexpectedEnd p => tokenMessage "$END" "" p
  | unreadable c p => Text.firstLine <|
    "No terminal matches '" ++ c.toString ++ "' in the current parser context, at line " ++
      Numeral.render p.line ++ " col " ++ Numeral.render p.column

/-- What is wrong, and where. -/
def message (e : ParseError) : String :=
  e.summary ++ " at line " ++ Numeral.render e.place.line ++ ", col " ++
    Numeral.render e.place.column

end ParseError

/-- Why a text has no tree. -/
inductive SourceError where
  | malformed (e : ParseError)
  /-- A number literal has more than `Numeral.maxDigits` digits. -/
  | literalTooLong

namespace Source

/-- The tree of a text by the grammar alone, however long its numbers are. -/
def parseGrammar (lexing : Lexing) : Except ParseError Node :=
  match Parser.steps .initial lexing.tokens with
  | .error t => .error (.unexpected t)
  | .ok st =>
    match lexing.stop with
    | some (c, p) => .error (.unreadable c p)
    | none =>
      match Parser.finish st with
      | some program => .ok program
      | none => .error (.unexpectedEnd ((lexing.tokens.getLast?.map (·.start)).getD .start))

/-- Whether a token is a number that is too long to read. -/
def isTooLong (t : Token) : Bool :=
  t.kind = .int && Numeral.maxDigits < t.text.length

/-- The program that a text is. -/
def parse (source : String) : Except SourceError Node :=
  let lexing := lex source
  match parseGrammar lexing with
  | .error e => .error (.malformed e)
  | .ok program =>
    if lexing.tokens.any isTooLong then .error .literalTooLong else .ok program

theorem parseGrammar_eq_ok {lexing : Lexing} {p : Node} : parseGrammar lexing = .ok p ↔
    lexing.stop = none ∧ ∃ st, Parser.steps .initial lexing.tokens = .ok st ∧
      Parser.finish st = some p := by
  unfold parseGrammar
  split
  · simp_all
  · split
    · simp_all
    · split <;> simp_all

theorem parse_eq_ok {source : String} {p : Node} : parse source = .ok p ↔
    parseGrammar (lex source) = .ok p ∧ (lex source).tokens.any isTooLong = false := by
  simp only [parse]
  cases parseGrammar (lex source) with
  | error e => simp
  | ok program => by_cases hlong : (lex source).tokens.any isTooLong <;> simp [hlong]

/-- Programs can be compared, and so it can be decided which program a text is. -/
theorem parse_of_toOption {source : String} {p : Node} (h : (parse source).toOption = some p) :
    parse source = .ok p := by
  cases hparse : parse source with
  | error e =>
    rw [hparse] at h
    cases h
  | ok q =>
    rw [hparse] at h
    exact congrArg Except.ok (Option.some.inj h)

end Source
end Monkey
