import Lox.Session
import Lox.Text.Line

/-!
# Scripts

A script is the text of a file, run in a session of its own.  Its exit status says whether the text
had faults, the program failed, or all went well.
-/

namespace Lox

/-- What a program run from outside shows: an exit status, or why there is none, and the texts on
the two channels. -/
structure Transcript where
  exit : Except Halt Nat
  stdout : String
  stderr : String

/-- Reports as they are written for the user. -/
def reportLines (reports : List Report) : String :=
  Text.printLines ((reports.filter Report.isWritten).map Report.text)

/-- How many rounds a loop may make in practice; no machine makes so many. -/
def practicalRounds : Nat := Nat.pow 2 62

namespace Script

/-- The exit status after a run without mishap. -/
def success : Nat := 0

/-- The exit status after a misuse of the command line. -/
def misuse : Nat := 64

/-- The exit status after faults in the text. -/
def faulty : Nat := 65

/-- The exit status after a failure of the program. -/
def failed : Nat := 70

/-- The exit status that a log calls for. -/
def exitOf (log : Log) : Nat :=
  if log.hadFault then faulty else if log.hadFailure then failed else success

/-- The text of a file, which is refused unless it is encoded in UTF-8. -/
def decode? (bytes : ByteArray) : Option String := (String.fromUTF8? bytes).map Text.ofFile

/-- Runs a script. -/
def run (rounds : Nat) (debug : Bool) (text : String) : Transcript :=
  let out := Session.run rounds debug {} text
  { exit := match out.halt? with
      | some halt => .error halt
      | none => .ok (exitOf out.session.log)
    stdout := Text.printLines out.printed
    stderr := reportLines out.reports }

end Script

end Lox
