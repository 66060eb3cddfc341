import Lox.Execution
import Lox.Grammar.Statement
import Lox.Log
import Lox.Token.Scan
import Lox.Tree.Polish

/-!
# Sessions

A session keeps the global bindings and a log over any number of texts.  Each text is scanned and
read as a whole, and runs only if the log holds no fault.  What a text prints and reports, and the
session after it, make up an `Outcome`.
-/

namespace Lox

/-- What a session keeps. -/
structure Session where
  globals : Bindings := {}
  log : Log := {}

/-- What a step of a session shows: the lines it prints, the reports it adds to the log, and why it
halts without a report, if it does. -/
structure Outcome where
  session : Session
  printed : List String := []
  reports : List Report := []
  halt? : Option Halt := none

/-- The failure to report when a program halts; a misfit, an integer with too many digits and an
unfinished loop are not reported. -/
def Halt.failure? : Halt → Option Failure
  | failure f => some f
  | tooDeep => some .tooDeep
  | _ => none

namespace Session

/-- Adds reports to the log. -/
def report (s : Session) (reports : List Report) : Session := { s with log := s.log.add reports }

/-- Resets the log. -/
def reset (s : Session) : Session := { s with log := s.log.reset }

/-- The outcome of a computation that has changed the globals and halts, if it does, with a
failure or otherwise. -/
def settle (s : Session) (globals : Bindings) (printed : List String) (halt? : Option Halt) :
    Outcome :=
  let s := { s with globals }
  match halt? with
  | none => { session := s, printed }
  | some halt =>
    match halt.failure? with
    | some failure =>
      let reports := [.ofFailure failure]
      { session := s.report reports, printed, reports }
    | none => { session := s, printed, halt? := some halt }

/-- Runs a program in the globals, whatever the log holds. -/
def perform (rounds : Nat) (s : Session) (program : List Stmt) : Outcome :=
  match execute rounds program { scopes := [s.globals] } with
  | .ok _ m => s.settle (m.scopes.headD {}) m.printed.toList none
  | .error halt m => s.settle (m.scopes.headD {}) m.printed.toList (some halt)

/-- The value of an expression in the globals, as text. -/
def evaluate (s : Session) (e : Expr) : Outcome × Option String :=
  match e.evaluate nestingLimit [s.globals] with
  | .ok v c =>
    match v.text? with
    | some text => (s.settle (c.headD {}) [] none, some text)
    | none => (s.settle (c.headD {}) [] (some .tooLong), none)
  | .error halt c => (s.settle (c.headD {}) [] (some halt), none)

/-! ## Texts -/

/-- A text with its tokens, the declarations read from it, and all faults. -/
structure Reading where
  tokens : List Token
  program : List Stmt
  reports : List Report

/-- Scans and reads a text. -/
def read (source : String) : Reading :=
  let scanned := scan source
  let parsed := parse scanned.tokens
  ⟨scanned.tokens, parsed.program?.getD [], scanned.reports ++ parsed.reports⟩

/-- The statements in Polish form up to the first that has none, and whether that is all. -/
def polishLines : List Stmt → List String × Bool
  | [] => ([], true)
  | s :: ss =>
    match s.polish? with
    | none => ([], false)
    | some line => let (lines, whole) := polishLines ss; (line :: lines, whole)

/-- The lines that show the tokens and the tree of a text, and whether that is all. -/
def dump (r : Reading) : List String × Bool :=
  let (lines, whole) := polishLines r.program
  (["\nTokens:\n"] ++ r.tokens.map Token.record ++ ["\nAST:\n"] ++ lines ++
    (if whole then [" "] else []), whole)

/-- Runs a text that has been read, unless the log holds a fault. -/
def runReading (rounds : Nat) (s : Session) (r : Reading) : Outcome :=
  let s := s.report r.reports
  if s.log.hadFault then { session := s, reports := r.reports }
  else
    let out := s.perform rounds r.program
    { out with reports := r.reports ++ out.reports }

/-- With a fault in the log nothing runs. -/
theorem runReading_of_hadFault {rounds : Nat} {s : Session} {r : Reading}
    (h : (s.report r.reports).log.hadFault = true) :
    s.runReading rounds r = { session := s.report r.reports, reports := r.reports } := by
  simp [runReading, h]

/-- Runs a text.  With `debug` the tokens and the tree are printed first. -/
def run (rounds : Nat) (debug : Bool) (s : Session) (source : String) : Outcome :=
  let r := read source
  if debug then
    let (lines, whole) := dump r
    if whole then
      let out := s.runReading rounds r
      { out with printed := lines ++ out.printed }
    else
      { session := s.report r.reports, printed := lines, reports := r.reports,
        halt? := some .tooDeep }
  else s.runReading rounds r

/-! ## Questions -/

/-- What asking for the value of a text gives: its first statement may have no expression, or there
may be no statement, or no value. -/
inductive Answer
  | value (text : String)
  | nothing
  | noExpression (kind : String)
deriving DecidableEq, Repr

/-- What is said of a statement without an expression. -/
def noExpressionText (kind : String) : String :=
  "'" ++ kind ++ "' object has no attribute 'expression'"

/-- The expression of a statement that has just one. -/
def expression? : Stmt → Option Expr
  | .expression e | .print e => some e
  | _ => none

/-- Evaluates the expression of the first statement of a text. -/
def ask (s : Session) (source : String) : Outcome × Answer :=
  let r := read source
  let s := s.report r.reports
  match r.program with
  | [] => ({ session := s, reports := r.reports }, .nothing)
  | stmt :: _ =>
    match expression? stmt with
    | none => ({ session := s, reports := r.reports }, .noExpression stmt.kind)
    | some e =>
      let (out, text?) := s.evaluate e
      ({ out with reports := r.reports ++ out.reports }, (text?.map .value).getD .nothing)

end Session

end Lox
