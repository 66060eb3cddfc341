import Lox.Prompt

/-!
# The command line

Without arguments there is a prompt; one argument names a script or asks for help; all else is a
misuse, and is answered with the usage.
-/

namespace Lox.CommandLine

/-- What the arguments ask for. -/
inductive Request
  | prompt
  | help
  | script (path : String)
  | misuse
deriving DecidableEq, Repr

/-- What a list of arguments asks for. -/
def Request.ofArguments : List String → Request
  | [] => .prompt
  | [argument] =>
    if argument = "-h" ∨ argument = "--help" then .help
    else if argument.startsWith "-" then .misuse
    else .script argument
  | _ => .misuse

/-- How the program is used. -/
def usage : List String :=
  ["",
   "Lox Language Interpreter",
   "",
   "Usage:",
   "    lox [script.lox]",
   "",
   "Arguments:",
   "    <script.lox>",
   "        Path to a Lox source file to execute.",
   "",
   "Example:",
   "    lox hello.lox",
   "",
   "Or run with no arguments to enter interactive mode (REPL).",
   "",
   "Options:",
   "    -h, --help",
   "        Show this help message and exit."]

/-- The usage, with an exit status. -/
def showUsage (exit : Nat) : Transcript := ⟨.ok exit, Text.printLines usage, ""⟩

/-- Why a text cannot be a path at all. -/
def pathFault? (path : String) : Option String :=
  if path.contains '\x00' then some "embedded null byte" else none

end Lox.CommandLine
