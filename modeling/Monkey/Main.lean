import Monkey.CommandLine

/-!
# The program

The outer layer of the command line: it gathers what the command is given, and
carries out what `CommandLine.execute` reports.
-/

namespace Monkey.CommandLine

/-- The text of standard input from here on, put behind what has been read. -/
partial def readInput (input : IO.FS.Stream) (sofar : String) : IO String := do
  let line ← input.getLine
  if line.isEmpty then return sofar else readInput input (sofar ++ line)

/-- What a path names in the file system. -/
def lookUp (path : String) : IO Located := do
  if path.toList.contains '\x00' then return .absent
  try
    let text ← IO.FS.readFile (FileTree.normal path)
    return .file text
  catch e => match e with
    | .noFileOrDirectory _ _ _ => return .absent
    | .inappropriateType _ code _ => return if code = 21 then .directory else .absent
    | .invalidArgument _ _ _ => return .tooLong
    | .permissionDenied _ _ _ => return .denied
    | e => throw e

/-- What is told about a command that broke off. -/
def Crash.text : Crash → String
  | logLevel _ => "the log level is not a number"
  | directory => "the argument is a directory"
  | pathTooLong => "the argument cannot be looked up"
  | rejection (.source _) => "a number has too many digits to be read"
  | rejection (.failure (.illSorted e)) => e.message
  | rejection (.failure .depthExceeded) => "the value nests too deeply to be written"
  | rejection (.failure _) => "a number has too many digits to be written"

end Monkey.CommandLine

open Monkey CommandLine in
/-- Runs the command. -/
def main (arguments : List String) : IO UInt32 := do
  let input ← if arguments = [] || arguments = ["-"] then
      readInput (← IO.getStdin) ""
    else pure ""
  let located ← match arguments with
    | [path] => if path = "-" then pure .absent else lookUp path
    | _ => pure .absent
  let r := execute ⟨arguments, input, fun _ => located, ← IO.getEnv "MONKEY_LOG_LEVEL"⟩
    { grammar := some "grammar.lark" }
  IO.print r.out
  IO.eprint r.err
  match r.exit with
  | .status _ => pure ()
  | .message text => IO.eprintln text
  | .crash c => IO.eprintln ("Error: " ++ c.text)
  return r.exit.code.toUInt32
