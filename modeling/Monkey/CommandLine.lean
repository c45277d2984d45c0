import Monkey.FileTree
import Monkey.Session
import Monkey.Settings
import Monkey.Text.Lines

/-!
# The command line

The command takes at most one argument. Without one, or with `-`, the program is
read from standard input; an argument that names a file stands for the text in the
file; any other argument is itself the program. The program's value is printed,
and the exit status says whether it is an error.

At a low enough level notes are logged, each when it is taken. The line of a note that
is too deep to be written is not the only thing to go wrong then: it breaks the run
off, in the middle of the expansion of macros.

## Main definitions

* `CommandLine.Invocation`, `CommandLine.Exit`, `CommandLine.Report`.
* `CommandLine.logNote` — the taking of a note that is logged.
* `CommandLine.Exit.code` — the exit status.
* `CommandLine.execute` — what the command does.
-/

namespace Monkey

open Monkey.Computation

namespace CommandLine

/-- Everything that the command is given. -/
structure Invocation where
  arguments : List String
  /-- The text of standard input. -/
  input : String
  /-- What the one argument names. -/
  locate : String → Located
  /-- The setting of the log level. -/
  logLevel : Option String

/-- Why an argument cannot be looked up. -/
inductive LookupError where
  /-- It is too long. -/
  | tooLong
  /-- It leads through a directory in which nothing may be looked up. -/
  | denied
  deriving DecidableEq

/-- Why the command broke off. -/
inductive Crash where
  /-- The log level is set to something that is no level. -/
  | logLevel (e : Settings.LevelError)
  /-- The argument names a directory. -/
  | directory
  /-- The argument cannot be looked up. -/
  | lookup (e : LookupError)
  /-- The program gave no value, or one that cannot be shown. -/
  | rejection (e : Rejection)

/-- The argument cannot be looked up, for whatever reason. -/
@[match_pattern] def Crash.pathTooLong {e : LookupError} : Crash := .lookup e

/-- How the command ends. -/
inductive Exit where
  /-- With an exit status. -/
  | status (code : Nat)
  /-- With a message. -/
  | message (text : String)
  /-- Broken off. -/
  | crash (c : Crash)

/-- The exit status: a message, and whatever the command breaks off with, is a failure. -/
def Exit.code : Exit → Nat
  | status code => code
  | message _ | crash _ => 1

/-- What the command writes, and how it ends. -/
structure Report where
  out : String
  err : String
  exit : Exit

/-- The line logged for a note; none if the note holds a number that cannot be written, in which
case a complaint of the log itself, which is not shown here, takes its place. -/
def noteLine? : Note → Option String
  | .parsed n => some ("monkey_ref.runner: parsed " ++ Numeral.render n ++ " statement(s)")
  | .defined name params => some <|
    "monkey_ref.macro_expansion: defined macro " ++ name ++ "(" ++ ", ".intercalate params ++ ")"
  | .expanded call result =>
    if call.writable && result.writable then some <|
      "monkey_ref.macro_expansion: expanded " ++ call.render ++ " into " ++ result.render
    else none
  | .expansionFailed fault => some <|
    "monkey_ref.runner: macro expansion failed: " ++ fault.message

/-- How deeply the line of a note nests. -/
def noteDepth : Note → Nat
  | .expanded call result => max call.renderDepth result.renderDepth
  | .parsed _ | .defined _ _ | .expansionFailed _ => 1

/-- At a level the line of a note can be logged: none is logged at this level, or the line does not
nest too deeply. -/
def loggable (host : Host) (level : Int) (n : Note) : Bool :=
  decide (Settings.debugLevel < level) || decide (noteDepth n ≤ host.logged)

/-- Takes a note. If it is to be logged its line is written at once, and if that nests too deeply it
breaks the run off. -/
def logNote (host : Host) (level : Int) (n : Note) : Computation Unit :=
  if loggable host level n then takeNote n else fail .depthExceeded

/-- The lines logged when the builtins are registered and the parser is made, which is done before
the first text of a process is read. -/
def setUpLines (host : Host) : List String :=
  match host.grammar with
  | some path =>
    ["monkey_ref.runtime: registered builtins: " ++
        ", ".intercalate ((Builtin.all.map Builtin.name).mergeSort fun a b => decide (a ≤ b)),
      "monkey_ref.parser: building LALR parser from " ++ path]
  | none => []

/-- The lines logged for a run that takes some notes, at a log level. -/
def logLines (host : Host) (level : Int) (notes : List Note) : String :=
  if level ≤ Settings.debugLevel then
    String.join ((setUpLines host ++ notes.filterMap noteLine?).map fun l => "DEBUG " ++ l ++ "\n")
  else ""

/-- The program that the command is to run. -/
def source (inv : Invocation) : Except Exit String :=
  match inv.arguments with
  | [] | ["-"] =>
    if inv.input.isEmpty then .error (.message "No input provided on stdin") else .ok inv.input
  | [arg] => match inv.locate arg with
    | .file text => .ok (String.ofList (Text.unifyNewlines text.toList))
    | .directory => .error (.crash .directory)
    | .tooLong => .error (.crash (.lookup .tooLong))
    | .denied => .error (.crash (.lookup .denied))
    | .absent => .ok arg
  | _ :: extra :: _ => .error (.message ("Unexpected argument: " ++ extra))

/-- What the command reports on a text that has been run. -/
def report (host : Host) (level : Int) (sub : Submission Value) : Report :=
  let log := logLines host level sub.notes
  match sub.result with
  | .ok v => match host.display v with
    | .ok text => ⟨sub.output ++ text ++ "\n", log, .status (if v.isError then 1 else 0)⟩
    | .error e => ⟨sub.output, log, .crash (.rejection (.failure e))⟩
  | .error (.source (.malformed e)) =>
    ⟨sub.output, log ++ "Error: " ++ e.message ++ "\n", .status 1⟩
  | .error (.failure .depthExceeded) =>
    ⟨sub.output, log ++ "Error: maximum recursion depth exceeded\n", .status 1⟩
  | .error e => ⟨sub.output, log, .crash (.rejection e)⟩

/-- What the command does. -/
def execute (inv : Invocation) (host : Host := {}) : Report :=
  match Settings.logLevel Settings.defaultLevel inv.logLevel with
  | .error e => ⟨"", "", .crash (.logLevel e)⟩
  | .ok level => match source inv with
    | .error exit => ⟨"", "", exit⟩
    | .ok text => report host level (run text host.depth (logNote host level))

end CommandLine
end Monkey
