import Lox.Grammar.Expression
import Lox.Nesting

/-!
# Statements and programs

A declaration is a variable with or without an initializer, or a statement.  A fault loses the
declaration it lies in, and reading goes on behind it; so one text shows all its faults at once.
The body of a conditional or a loop is a statement and not a declaration.
-/

namespace Lox.Grammar

/-! ## Statements without statements inside -/

/-- Reads what follows the word `var`. -/
def readVariable : Nat → Rule Stmt
  | 0 => throw .tooDeep
  | n + 1 => do
    let name ← expect n .variableName
    let initializer ← do
      match ← accept [.equal] with
      | none => pure none
      | some _ => some <$> readExpression n
    let _ ← expect n .endOfVariable
    return .declare name initializer

/-- Reads what follows the word `print`. -/
def readPrint : Nat → Rule Stmt
  | 0 => throw .tooDeep
  | n + 1 => do
    let e ← readExpression n
    let _ ← expect n .endOfPrint
    return .print e

/-- Reads an expression that stands for its effects. -/
def readEffect : Nat → Rule Stmt
  | 0 => throw .tooDeep
  | n + 1 => do
    let e ← readExpression n
    let _ ← expect n .endOfExpression
    return .expression e

/-- Reads the first clause of a `for` loop with the semicolon that ends it. -/
def readInitializer (n : Nat) : Rule (Option Stmt) := do
  if (← accept [.semicolon]).isSome then return none
  else if (← accept [.varWord]).isSome then some <$> readVariable n
  else some <$> readEffect n

/-- Reads an expression that may be missing in front of a token of kind `closing`. -/
def readOptional (closing : Kind) (n : Nat) : Rule (Option Expr) := do
  if ← isNext [closing] then return none
  else some <$> readExpression n

/-! ## Statements with statements inside -/

/-- Does a token of this kind end the declarations of a block? -/
def closesBlock (kind : Kind) : Bool := kind = .rightBrace || kind = .eof

mutual

/-- Reads a declaration. -/
def readDeclaration : Nat → Rule (Option Stmt)
  | 0 => throw .tooDeep
  | n + 1 => recover n do
    match ← accept [.varWord] with
    | some _ => readVariable n
    | none => readStatement n

/-- Reads a statement. -/
def readStatement : Nat → Rule Stmt
  | 0 => throw .tooDeep
  | n + 1 => do
    match (← peek).kind with
    | .printWord => skip; readPrint n
    | .ifWord => skip; readIf n
    | .whileWord => skip; readWhile n
    | .forWord => skip; readFor n
    | .leftBrace => skip; .block <$> readBlock n
    | _ => readEffect n

/-- Reads what follows the word `if`.  An `else` belongs to the nearest `if` before it. -/
def readIf : Nat → Rule Stmt
  | 0 => throw .tooDeep
  | n + 1 => do
    let _ ← expect n .startOfIf
    let condition ← readExpression n
    let _ ← expect n .endOfIf
    let thenBranch ← readStatement n
    match ← accept [.elseWord] with
    | none => return .ifThen condition thenBranch
    | some _ => return .ifElse condition thenBranch (← readStatement n)

/-- Reads what follows the word `while`. -/
def readWhile : Nat → Rule Stmt
  | 0 => throw .tooDeep
  | n + 1 => do
    let _ ← expect n .startOfWhile
    let condition ← readExpression n
    let _ ← expect n .endOfWhile
    return .loop condition (← readStatement n)

/-- Reads what follows the word `for`. -/
def readFor : Nat → Rule Stmt
  | 0 => throw .tooDeep
  | n + 1 => do
    let _ ← expect n .startOfFor
    let initializer ← readInitializer n
    let condition ← readOptional .semicolon n
    let _ ← expect n .endOfLoopCondition
    let increment ← readOptional .rightParen n
    let _ ← expect n .endOfClauses
    return .forLoop initializer condition increment (← readStatement n)

/-- Reads the declarations of a block and its closing brace. -/
def readBlock : Nat → Rule (List Stmt)
  | 0 => throw .tooDeep
  | n + 1 => do
    let body ← gather closesBlock (readDeclaration n) (← get).ahead
    let _ ← expect n .endOfBlock
    return body

end

/-! ## Programs -/

/-- Reads declarations up to the end. -/
def readProgram (levels : Nat) : Rule (List Stmt) := do
  gather (· = .eof) (readDeclaration levels) (← get).ahead

/-- The tokens of an empty list are an end on the first line. -/
def closed (tokens : List Token) : List Token :=
  if tokens.isEmpty then [Token.eof 1] else tokens

end Lox.Grammar

namespace Lox

/-- What reading a list of tokens as a program gives: the declarations without faults, and the
reports.  There are no declarations if the list has no end. -/
structure Parse where
  program? : Option (List Stmt)
  reports : List Report

/-- Reads a list of tokens as a program. -/
def parse (tokens : List Token) : Parse :=
  match Grammar.readProgram nestingLimit ⟨Grammar.closed tokens, []⟩ with
  | .ok program s => ⟨some program, s.reports⟩
  | .error _ s => ⟨none, s.reports⟩

end Lox
