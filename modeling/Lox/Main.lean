import Lox.CommandLine

/-!
# The program

All that the program decides is decided elsewhere; here it reads files and lines and prints.  The
environment variable `LOXDEBUG` asks for the tokens and the tree of each text.
-/

namespace Lox.Main

/-- Prints both channels of a transcript and gives the exit status, one if there is none. -/
def display (t : Transcript) : IO UInt32 := do
  IO.print t.stdout
  IO.eprint t.stderr
  return match t.exit with
    | .ok status => status.toUInt32
    | .error _ => 1

/-- Runs the lines that have been read, and reads more when there are none left. -/
partial def converse (debug : Bool) (s : Session) : List String → IO UInt32
  | [] => do
    (← IO.getStdout).flush
    let typed ← (← IO.getStdin).getLine
    if typed.isEmpty then
      IO.print Prompt.Ending.exhausted.text
      return 0
    else converse debug s (Text.lines typed)
  | line :: rest => do
    if Prompt.leaves line then return 0
    let out := Prompt.enter practicalRounds debug s line
    IO.print (Text.printLines out.printed)
    IO.eprint (reportLines out.reports)
    if out.halt?.isSome then return 1
    IO.print Prompt.mark
    converse debug out.session rest

end Lox.Main

open Lox in
/-- Runs the program. -/
def main (arguments : List String) : IO UInt32 := do
  let debug := ((← IO.getEnv "LOXDEBUG").getD "") ≠ ""
  match CommandLine.Request.ofArguments arguments with
  | .prompt =>
    IO.print (Text.printLines Prompt.banner ++ Prompt.mark)
    Main.converse debug {} []
  | .help => Main.display (CommandLine.showUsage Script.success)
  | .misuse => Main.display (CommandLine.showUsage Script.misuse)
  | .script path =>
    match Script.decode? (← IO.FS.readBinFile path) with
    | some text => Main.display (Script.run practicalRounds debug text)
    | none =>
      IO.eprintln "The script is not encoded in UTF-8."
      return 1
