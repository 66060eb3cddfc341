import Lox.Token

/-!
# Trees

A program is a list of statements over expressions.  Trees built by hand can have a node in a place
where no such node may stand, or none at all; a `Misfit` stands for it there.
-/

namespace Lox

/-- A node in a place where no such node may stand.  All that ever shows of it are the name of its
kind and its text as a record. -/
structure Misfit where
  kind : String
  record : String
deriving DecidableEq, Repr

/-- An expression. -/
inductive Expr
  | literal (value : Value)
  | grouping (inner : Expr)
  | unary (operator : Token) (operand : Expr)
  | binary (left : Expr) (operator : Token) (right : Expr)
  | logical (left : Expr) (operator : Token) (right : Expr)
  | reference (name : Token)
  | assign (name : Token) (value : Expr)
  | misfit (node : Misfit)
deriving DecidableEq

/-- A statement. -/
inductive Stmt
  | expression (e : Expr)
  | print (e : Expr)
  | declare (name : Token) (initializer : Option Expr)
  | block (body : List Stmt)
  | ifThen (condition : Expr) (thenBranch : Stmt)
  | ifElse (condition : Expr) (thenBranch elseBranch : Stmt)
  | loop (condition : Expr) (body : Stmt)
  | misfit (node : Misfit)

namespace Stmt

/-- A conditional with or without a branch for the other case. -/
def conditional (condition : Expr) (thenBranch : Stmt) : Option Stmt → Stmt
  | none => ifThen condition thenBranch
  | some elseBranch => ifElse condition thenBranch elseBranch

/-- A `for` loop is a loop whose body ends with the increment, in a block of its own with the
initializer in front.  A missing condition counts as true. -/
def forLoop (initializer : Option Stmt) (condition increment : Option Expr) (body : Stmt) : Stmt :=
  let body := match increment with
    | none => body
    | some e => block [body, expression e]
  let whole := loop (condition.getD (.literal (.bool true))) body
  match initializer with
  | none => whole
  | some s => block [s, whole]

end Stmt

end Lox
