import Lox.Nesting
import Lox.Tree.Record

/-!
# Trees in Polish form

A node is written in parentheses, its operator or keyword first and its parts after it.  A tree that
is higher than the limit on nesting has no text, and no more has a tree with an integer in it that
has too many digits.
-/

namespace Lox

/-- A head and its parts, in parentheses. -/
def parenthesize (head : String) (parts : List String) : String :=
  "(" ++ " ".intercalate (head :: parts) ++ ")"

namespace Expr

/-- An expression in Polish form. -/
def polish : Expr → String
  | literal value => value.polish
  | grouping inner => parenthesize "group" [inner.polish]
  | unary operator operand => parenthesize operator.lexeme [operand.polish]
  | binary left operator right => parenthesize operator.lexeme [left.polish, right.polish]
  | logical left operator right => parenthesize operator.lexeme [left.polish, right.polish]
  | reference name => name.lexeme
  | assign name value => parenthesize "=" [name.lexeme, value.polish]
  | misfit node => "<expr " ++ node.kind ++ ">"

/-- How many levels an expression has. -/
def height : Expr → Nat
  | literal _ | reference _ | misfit _ => 1
  | grouping e | unary _ e | assign _ e => e.height + 1
  | binary left _ right | logical left _ right => max left.height right.height + 1

/-- Have all integers in an expression few enough digits to be shown? -/
def isShort : Expr → Bool
  | literal value => value.text?.isSome
  | reference _ | misfit _ => true
  | grouping e | unary _ e | assign _ e => e.isShort
  | binary left _ right | logical left _ right => left.isShort && right.isShort

/-- An expression in Polish form, if it is not nested too deep and its integers can be shown. -/
def polish? (e : Expr) : Option String :=
  if e.height ≤ nestingLimit ∧ e.isShort then some e.polish else none

end Expr

namespace Stmt

mutual

/-- A statement in Polish form. -/
def polish : Stmt → String
  | expression e => parenthesize ";" [e.polish]
  | print e => parenthesize "print" [e.polish]
  | declare name none => parenthesize "var" [name.lexeme]
  | declare name (some e) => parenthesize "var" [name.lexeme, "=", e.polish]
  | block body => parenthesize "block" (polishAll body)
  | ifThen condition thenBranch => parenthesize "if" [condition.polish, thenBranch.polish]
  | ifElse condition thenBranch elseBranch =>
    parenthesize "if-else" [condition.polish, thenBranch.polish, elseBranch.polish]
  | loop condition body => parenthesize "while" [condition.polish, body.polish]
  | misfit node => "<stmt " ++ node.kind ++ ">"

/-- Statements in Polish form. -/
def polishAll : List Stmt → List String
  | [] => []
  | s :: ss => s.polish :: polishAll ss

end

mutual

/-- How many levels a statement has; a block is two levels by itself. -/
def height : Stmt → Nat
  | expression e | print e => e.height + 1
  | declare _ none | misfit _ => 1
  | declare _ (some e) => e.height + 1
  | block body => heightAll body + 2
  | ifThen condition thenBranch => max condition.height thenBranch.height + 1
  | ifElse condition thenBranch elseBranch =>
    max condition.height (max thenBranch.height elseBranch.height) + 1
  | loop condition body => max condition.height body.height + 1

/-- The height of the highest of some statements. -/
def heightAll : List Stmt → Nat
  | [] => 0
  | s :: ss => max s.height (heightAll ss)

end

mutual

/-- Have all integers in a statement few enough digits to be shown? -/
def isShort : Stmt → Bool
  | expression e | print e | declare _ (some e) => e.isShort
  | declare _ none | misfit _ => true
  | block body => areShort body
  | ifThen condition thenBranch => condition.isShort && thenBranch.isShort
  | ifElse condition thenBranch elseBranch =>
    condition.isShort && thenBranch.isShort && elseBranch.isShort
  | loop condition body => condition.isShort && body.isShort

/-- Have all integers in some statements few enough digits to be shown? -/
def areShort : List Stmt → Bool
  | [] => true
  | s :: ss => s.isShort && areShort ss

end

/-- A statement in Polish form, if it is not nested too deep and its integers can be shown. -/
def polish? (s : Stmt) : Option String :=
  if s.height ≤ nestingLimit ∧ s.isShort then some s.polish else none

end Stmt

end Lox
