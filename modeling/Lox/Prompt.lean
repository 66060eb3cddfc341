import Lox.Script
import Lox.Text.Blank

/-!
# The prompt

At the prompt each line is a text of its own in one session, and the log is reset after it, so a bad
line does not spoil the next.  A line that says `exit` or `quit` ends the session, and so does the
end of the input.
-/

namespace Lox.Prompt

/-- What is printed first. -/
def banner : List String :=
  ["Lox Language Interpreter - REPL", "Type `exit` or `quit` to leave."]

/-- What is printed before a line is read. -/
def mark : String := "> "

/-- How the input can end: there is no more of it, or the user breaks off. -/
inductive Ending
  | exhausted
  | interrupted
deriving DecidableEq, Repr

/-- What is printed when the input ends. -/
def Ending.text : Ending → String
  | exhausted => "\n"
  | interrupted => "\nInterrupted.\n"

/-- Does the line end the session? -/
def leaves (line : String) : Bool := let word := Text.trim line; word = "exit" || word = "quit"

/-- Runs a line and resets the log. -/
def enter (rounds : Nat) (debug : Bool) (s : Session) (line : String) : Outcome :=
  let out := s.run rounds debug line
  if out.halt?.isSome then out else { out with session := out.session.reset }

/-- The outcomes of the lines entered, and whether a line ended the session.  A line that halts
without a report is the last one. -/
def outcomes (rounds : Nat) (debug : Bool) : Session → List String → List Outcome × Bool
  | _, [] => ([], false)
  | s, line :: rest =>
    if leaves line then ([], true)
    else
      let out := enter rounds debug s line
      if out.halt?.isSome then ([out], false)
      else
        let (outs, left) := outcomes rounds debug out.session rest
        (out :: outs, left)

/-- What a session shows, given the text typed and how the input ends. -/
def run (rounds : Nat) (debug : Bool) (ending : Ending) (typed : String) : Transcript :=
  let (outs, left) := outcomes rounds debug {} (Text.lines typed)
  let shown := Text.printLines banner ++
    String.join (outs.map fun out => mark ++ Text.printLines out.printed)
  let stderr := String.join (outs.map fun out => reportLines out.reports)
  match outs.getLast?.bind Outcome.halt? with
  | some halt => ⟨.error halt, shown, stderr⟩
  | none => ⟨.ok Script.success, shown ++ mark ++ (if left then "" else ending.text), stderr⟩

@[simp] theorem outcomes_nil (rounds : Nat) (debug : Bool) (s : Session) :
    outcomes rounds debug s [] = ([], false) := rfl

/-- What comes after a line that ends the session is not read. -/
theorem outcomes_of_leaves {rounds : Nat} {debug : Bool} {s : Session} {line : String}
    {rest : List String} (h : leaves line = true) :
    outcomes rounds debug s (line :: rest) = ([], true) := by
  simp [outcomes, h]

end Lox.Prompt
