import Lox.Operator
import Lox.Scope.Chain
import Lox.Tree.Record

/-!
# Evaluation

An expression has a value in a chain of scopes, and may change the bindings there.  Operands are
evaluated from the left.  Each expression takes one level of nesting, and looking up a name one for
each scope on the way.
-/

namespace Lox

/-- A computation in a chain of scopes. -/
abbrev Evaluation := EStateM Halt Chain

/-- The outcome of an operator. -/
def Evaluation.ofOperator (result : Except Failure Value) : Evaluation Value :=
  match result with
  | .ok v => pure v
  | .error failure => throw (.failure failure)

/-- Reads a variable. -/
def Evaluation.read (levels : Nat) (name : Token) : Evaluation Value := fun c =>
  match c.read levels name with
  | .ok v => .ok v c
  | .error halt => .error halt c

/-- Assigns to a variable. -/
def Evaluation.write (levels : Nat) (name : Token) (v : Value) : Evaluation Unit := fun c =>
  match c.write levels name v with
  | .ok c => .ok () c
  | .error halt => .error halt c

/-- Does the left operand alone decide a logical operator?  `or` stops at a true one, `and` at a
false one. -/
def decidesLogical (operator : Token) (left : Value) : Bool :=
  if operator.kind = .orWord then left.isTruthy else !left.isTruthy

/-- Evaluates an expression, with so many levels of nesting left. -/
def Expr.evaluate : Nat → Expr → Evaluation Value
  | 0, _ => throw .tooDeep
  | _ + 1, .literal v => return v
  | n + 1, .grouping e => e.evaluate n
  | n + 1, .reference name => Evaluation.read n name
  | n + 1, .assign name e => do
    let v ← e.evaluate n
    Evaluation.write n name v
    return v
  | n + 1, .unary operator e => do
    let v ← e.evaluate n
    Evaluation.ofOperator (Operator.unary operator v)
  | n + 1, .binary left operator right => do
    let a ← left.evaluate n
    let b ← right.evaluate n
    Evaluation.ofOperator (Operator.binary operator a b)
  | n + 1, .logical left operator right => do
    let a ← left.evaluate n
    if decidesLogical operator a then return a else right.evaluate n
  | _ + 1, .misfit node => throw (.invalidExpression node.record)

end Lox
