import Monkey.Session
import Monkey.Settings
import Monkey.Value.Inspect

/-!
# The console

The interactive prompt without the terminal: lines go in, texts for the two
output channels come out. A line is first freed of invisible characters. A blank
line does nothing, a line that starts with a slash is a command to the console,
and every other line is a program that runs in the console's session.

Programs that do not parse and programs that nest too deeply are reported, and the
console goes on; what else can break off a program breaks off the console. So does
a value that cannot be shown, whether it has no text or nests too deeply: it is shown
when the program is over. The log level is that of a console for which none is set, so
notes are taken and not logged.

## Main definitions

* `Console`, `Console.Turn` and `Console.respond`, the answer to one line.
* `Command`, `Console.obey` and `Console.handleCommand` — the commands.
* `Console.evalAndPrint` — the running of a program.
* `Console.transcript` — the whole dialogue.
-/

namespace Monkey

/-- The commands to the console. -/
inductive Command where
  /-- Clears the screen. -/
  | clear
  /-- Sets whether errors come with a trace of the interpreter, by an argument. -/
  | trace (argument : String)
  /-- Forgets everything. -/
  | reset
  /-- No command at all. -/
  | unknown (name : String)
  deriving DecidableEq

/-- The command that a line is, if it starts with a slash. -/
def Command.ofLine? (line : String) : Option Command :=
  let line := Text.strip line
  if line.startsWith "/" then
    let (name, argument) := Text.splitWord line
    some <|
      if name = "/clear" then .clear
      else if name = "/py-traceback" then .trace argument
      else if name = "/reset" then .reset
      else .unknown name
  else none

/-- The console between two lines. -/
structure Console where
  session : Session
  /-- Whether errors come with a trace of the interpreter. -/
  traced : Bool

namespace Console

/-- The console at the start. -/
def new : Console := ⟨.new, false⟩

/-- What one line brings about. -/
structure Turn where
  out : String
  err : String
  /-- What broke off the console, if anything. -/
  rejection : Option Rejection
  console : Console

/-- The characters that are taken out of every line: those of no width and the carriage
return. -/
def invisible : List Char :=
  ['\u200b', '\u200c', '\u200d', '\ufeff', '\u00a0', '\r']

/-- A line without its invisible characters. -/
def normalize (line : String) : String :=
  String.ofList (line.toList.filter (!invisible.contains ·))

/-- The state that an argument of the trace command asks for. -/
def traceSetting (argument : String) (traced : Bool) : Option Bool :=
  let word := Settings.lowerCase argument
  if Settings.onWords.contains word then some true
  else if Settings.offWords.contains word then some false
  else if argument.isEmpty then some (!traced)
  else none

/-- Carries out a command. -/
def obey (c : Console) : Command → Turn
  | .clear => ⟨"<clear>\n", "", none, c⟩
  | .trace argument => match traceSetting argument c.traced with
    | some traced =>
      ⟨"Python traceback: " ++ (if traced then "on" else "off") ++ "\n", "", none,
        { c with traced := traced }⟩
    | none => ⟨"", "Usage: /py-traceback [on|off]\n", none, c⟩
  | .reset => ⟨"Environment reset.\n", "", none, { c with session := c.session.reset }⟩
  | .unknown name => ⟨"", "Unknown command: " ++ name ++ "\n", none, c⟩

/-- The report on an error, up to where the trace of the interpreter begins. -/
def errorReport (traced : Bool) (message : String) : String :=
  "Error: " ++ message ++ "\n" ++ (if traced then "\nPython traceback:\n" else "")

/-- Runs a program and prints its value, unless the program ends in a `let`. -/
def evalAndPrint (c : Console) (source : String) (host : Host := {}) : Turn :=
  let sub := c.session.submit source host.depth
  let after := { c with session := sub.session }
  match sub.result with
  | .ok (_, true) => ⟨sub.output, "", none, after⟩
  | .ok (v, false) => match host.display v with
    | .ok text => ⟨sub.output ++ text ++ "\n", "", none, after⟩
    | .error e => ⟨sub.output, "", some (.failure e), after⟩
  | .error (.source (.malformed e)) =>
    ⟨sub.output, errorReport c.traced e.message, none, after⟩
  | .error (.failure .depthExceeded) =>
    ⟨sub.output, errorReport c.traced "maximum recursion depth exceeded", none, after⟩
  | .error e => ⟨sub.output, "", some e, after⟩

/-- The answer to a line that asks for nothing. -/
def idle (c : Console) : Turn := ⟨"", "", none, c⟩

/-- Carries out the command that a line is, and says whether it is one. -/
def handleCommand (c : Console) (line : String) : Bool × Turn :=
  match Command.ofLine? line with
  | some command => (true, c.obey command)
  | none => (false, c.idle)

/-- The answer to a line. -/
def respond (c : Console) (line : String) : Turn :=
  let line := normalize line
  if (Text.strip line).isEmpty then c.idle
  else match c.handleCommand line with
    | (true, turn) => turn
    | (false, _) => c.evalAndPrint line

/-- What can happen at a prompt. -/
inductive Event where
  | line (text : String)
  /-- The line is abandoned. -/
  | interrupt
  /-- There are no more lines. -/
  | endOfInput

/-- What is written for one event: on the output channel and on the error channel. -/
structure Written where
  out : String
  err : String
  deriving DecidableEq

/-- A dialogue: what was written at the start and after each event, and what broke it off. -/
structure Transcript where
  written : List Written
  rejection : Option Rejection

/-- The text that greets the user. -/
def banner : String := "monkey repl - Ctrl-D to exit, / for commands\n"

/-- The dialogue from a state of the console on. The input ends with the list of events. -/
def dialogue (c : Console) : List Event → Transcript
  | [] | .endOfInput :: _ => ⟨[⟨"\n", ""⟩], none⟩
  | .interrupt :: events =>
    let later := dialogue c events
    { later with written := ⟨"KeyboardInterrupt\n", ""⟩ :: later.written }
  | .line text :: events =>
    let turn := c.respond text
    let here := ⟨turn.out, turn.err⟩
    match turn.rejection with
    | some e => ⟨[here], some e⟩
    | none =>
      let later := dialogue turn.console events
      { later with written := here :: later.written }

/-- The whole dialogue. -/
def transcript (events : List Event) : Transcript :=
  let later := dialogue .new events
  { later with written := ⟨banner, ""⟩ :: later.written }

end Console
end Monkey
