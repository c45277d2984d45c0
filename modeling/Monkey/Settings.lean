import Monkey.Text.Digit
import Monkey.Text.Numeral

/-!
# Settings

Two settings come from the environment, as texts: how much to log, and whether
the prompt shows where inside the interpreter an error came about.

A log level is a number, or a name in any mixture of cases. A number may be
written in the decimal digits of any script, and is subject to the bound on
numerals. A text of digits of which some are not decimal is neither a number nor
a name, and is refused; every other text that names no level stands for the
default.

## Main definitions

* `Settings.logLevel` — the log level that a text sets.
* `Settings.isOn` — whether a text switches something on.
-/

namespace Monkey.Settings

/-- The level from which on messages about macro expansion are shown. -/
def debugLevel : Int := 10

/-- The level when none is set. -/
def defaultLevel : Int := 30

/-- The names of levels. -/
def levelNames : List (String × Int) :=
  [("CRITICAL", 50), ("FATAL", 50), ("ERROR", 40), ("WARN", 30), ("WARNING", 30), ("INFO", 20),
   ("DEBUG", debugLevel), ("NOTSET", 0)]

/-- The upper case of a character, as far as names of levels can tell: the ASCII letters, and the
two other letters whose upper case is an ASCII letter. -/
def upperCase (c : Char) : Char :=
  if c = 'ı' then 'I' else if c = 'ſ' then 'S' else c.toUpper

/-- Why a text sets no level. -/
inductive LevelError where
  /-- The text consists of digits, but is no number that can be read. -/
  | unreadableNumber
  deriving DecidableEq

/-- The level that the characters of a text set. -/
def levelOf (otherwise : Int) (cs : List Char) : Except LevelError Int :=
  if !cs.isEmpty && cs.all Text.isDigit then
    match Text.decimalNumber? cs with
    | some n => if cs.length ≤ Numeral.maxDigits then .ok n else .error .unreadableNumber
    | none => .error .unreadableNumber
  else
    let name := String.ofList (cs.map upperCase)
    .ok (((levelNames.find? (·.1 == name)).map (·.2)).getD otherwise)

/-- The log level that a text sets; no text, and the empty text, set the default. -/
def logLevel (otherwise : Int) : Option String → Except LevelError Int
  | none => .ok otherwise
  | some raw =>
    if raw.isEmpty then .ok otherwise else levelOf otherwise (Text.strip raw).toList

/-- The words that switch something on. -/
def onWords : List String := ["1", "true", "yes", "on"]

/-- The words that switch something off. -/
def offWords : List String := ["0", "false", "no", "off"]

/-- The lower case of a text, as far as the words above can tell. -/
def lowerCase (s : String) : String := s.map Char.toLower

/-- Whether a text, or its absence, switches something on. -/
def isOn (raw : Option String) : Bool :=
  onWords.contains (lowerCase (Text.strip (raw.getD "")))

end Monkey.Settings
