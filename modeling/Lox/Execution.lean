import Lox.Evaluation
import Lox.Nesting

/-!
# Execution

A statement acts on a machine: the scopes its code runs in, and the lines printed so far.  A block
runs in a scope of its own, which is gone after it, however it ends.

A loop may run forever.  So execution is given a number of rounds that each loop may make, and a
loop that needs more is unfinished; a program that ends at all ends in the same way with any
sufficient number of rounds.
-/

namespace Lox

/-- What a program acts on. -/
structure Machine where
  scopes : Chain
  printed : Array String := #[]

/-- A computation of a machine. -/
abbrev Execution := EStateM Halt Machine

namespace Execution

/-- Evaluates an expression in the scopes of the machine. -/
def value (levels : Nat) (e : Expr) : Execution Value := fun m =>
  match e.evaluate levels m.scopes with
  | .ok v c => .ok v { m with scopes := c }
  | .error halt c => .error halt { m with scopes := c }

/-- Evaluates a condition. -/
def holds (levels : Nat) (e : Expr) : Execution Bool := Value.isTruthy <$> value levels e

/-- Prints a value as a line. -/
def emit (v : Value) : Execution Unit := fun m =>
  match v.text? with
  | some line => .ok () { m with printed := m.printed.push line }
  | none => .error .tooLong m

theorem emit_of_text {v : Value} {line : String} (h : v.text? = some line) (m : Machine) :
    emit v m = .ok () { m with printed := m.printed.push line } := by
  simp [emit, h]

theorem emit_of_no_text {v : Value} (h : v.text? = none) (m : Machine) :
    emit v m = .error .tooLong m := by
  simp [emit, h]

/-- Binds a name in the innermost scope. -/
def define (name : String) (v : Value) : Execution Unit := fun m =>
  .ok () { m with scopes := m.scopes.define name v }

/-- Runs code in a new innermost scope, which is gone after it. -/
def inNewScope (body : Execution Unit) : Execution Unit := fun m =>
  match body { m with scopes := {} :: m.scopes } with
  | .ok u m => .ok u { m with scopes := m.scopes.tail }
  | .error halt m => .error halt { m with scopes := m.scopes.tail }

/-- Runs `body` as long as `condition` holds, for at most so many rounds. -/
def repeatWhile (condition : Execution Bool) (body : Execution Unit) : Nat → Execution Unit
  | 0 => throw .unfinished
  | rounds + 1 => do
    if ← condition then
      body
      repeatWhile condition body rounds
    else return ()

/-- Runs statements one after the other. -/
def inOrder (statement : Stmt → Execution Unit) : List Stmt → Execution Unit
  | [] => return ()
  | s :: ss => do
    statement s
    inOrder statement ss

/-- Running statements is running some of them and then the others. -/
theorem inOrder_append (statement : Stmt → Execution Unit) (ss ts : List Stmt) :
    inOrder statement (ss ++ ts) = (inOrder statement ss >>= fun _ => inOrder statement ts) := by
  induction ss with
  | nil => simp [inOrder]
  | cons s ss ih => simp [inOrder, ih]

end Execution

open Execution in
/-- Executes a statement, with so many rounds for each loop and so many levels of nesting left. -/
def Stmt.execute (rounds : Nat) : Nat → Stmt → Execution Unit
  | 0, _ => throw .tooDeep
  | n + 1, .expression e => discard (value n e)
  | n + 1, .print e => do emit (← value n e)
  | _ + 1, .declare name none => define name.lexeme .nil
  | n + 1, .declare name (some e) => do define name.lexeme (← value n e)
  | 1, .block _ => throw .tooDeep
  | n + 2, .block body => inNewScope (inOrder (Stmt.execute rounds n) body)
  | n + 1, .ifThen condition thenBranch => do
    if ← holds n condition then thenBranch.execute rounds n else return ()
  | n + 1, .ifElse condition thenBranch elseBranch => do
    if ← holds n condition then thenBranch.execute rounds n else elseBranch.execute rounds n
  | n + 1, .loop condition body => repeatWhile (holds n condition) (body.execute rounds n) rounds
  | _ + 1, .misfit node => throw (.unknownStatement node.kind)

/-- Executes a program on top of the limit on nesting. -/
def execute (rounds : Nat) (program : List Stmt) : Execution Unit :=
  Execution.inOrder (Stmt.execute rounds nestingLimit) program

end Lox
