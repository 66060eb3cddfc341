import Lox.Token

/-!
# Reports

All that can go wrong is a cause: a `Fault` of a text, found before the program runs, or a `Failure`
of a running program.  The wordings stand here and nowhere else.  A fault is reported with its line
and place; a failure with the line of the token it arose at, if there is one.
-/

namespace Lox

/-! ## Faults of a text -/

/-- A token that the grammar asks for at one place. -/
inductive Expectation
  | variableName
  | endOfVariable
  | endOfPrint
  | endOfExpression
  | endOfBlock
  | endOfGroup
  | startOfIf
  | endOfIf
  | startOfWhile
  | endOfWhile
  | startOfFor
  | endOfLoopCondition
  | endOfClauses
deriving DecidableEq, Repr

namespace Expectation

/-- The kind of the expected token. -/
def kind : Expectation → Kind
  | variableName => .identifier
  | endOfVariable | endOfPrint | endOfExpression | endOfLoopCondition => .semicolon
  | endOfBlock => .rightBrace
  | endOfGroup | endOfIf | endOfWhile | endOfClauses => .rightParen
  | startOfIf | startOfWhile | startOfFor => .leftParen

/-- What is said when another token stands there. -/
def text : Expectation → String
  | variableName => "Expect variable name."
  | endOfVariable => "Expect ';' after variable declaration."
  | endOfPrint => "Expect ';' after value."
  | endOfExpression => "Expect ';' after expression."
  | endOfBlock => "Expect '\x7d' after block."
  | endOfGroup => "Expect ')' after expression."
  | startOfIf => "Expect '(' after 'if'."
  | endOfIf => "Expect ')' after if condition."
  | startOfWhile => "Expect '(' after 'while'."
  | endOfWhile => "Expect ')' after condition."
  | startOfFor => "Expect '(' after 'for'."
  | endOfLoopCondition => "Expect ';' after loop condition."
  | endOfClauses => "Expect ')' after for clauses."

theorem kind_ne_eof (e : Expectation) : e.kind ≠ .eof := by cases e <;> decide

end Expectation

/-- What is said of a tree that is nested too deep, while it is read and while it runs. -/
def nestingText : String := "Expression nesting too deep."

/-- What is wrong with a text. -/
inductive Fault
  | strayCharacter (c : Char)
  | openString
  | missing (e : Expectation)
  | noExpression
  | badTarget
  | tooDeep
  | other (text : String)
deriving DecidableEq, Repr

/-- The wording of a fault. -/
def Fault.text : Fault → String
  | strayCharacter c => "Unexpected character '" ++ String.singleton c ++ "'."
  | openString => "Unterminated string."
  | missing e => e.text
  | noExpression => "Expect expression."
  | badTarget => "Invalid assignment target."
  | tooDeep => nestingText
  | other text => text

/-- Where in its line a fault lies. -/
inductive Place
  | unsaid
  | atEnd
  | atLexeme (lexeme : String)
  | other (text : String)
deriving DecidableEq, Repr

namespace Place

/-- The place of a token. -/
def ofToken (t : Token) : Place := if t.kind = .eof then .atEnd else .atLexeme t.lexeme

/-- The place as it follows the word "Error". -/
def text : Place → String
  | unsaid => ""
  | atEnd => " at end"
  | atLexeme lexeme => " at '" ++ lexeme ++ "'"
  | other text => text

end Place

/-! ## Failures of a program -/

/-- Why a running program stops, with the token to blame. -/
inductive Failure
  | undefined (name : Token)
  | operand (operator : Token)
  | operands (operator : Token)
  | mixedOperands (operator : Token)
  | unknownUnary (operator : Token)
  | unknownBinary (operator : Token)
  | tooDeep
  | other (token : Option Token) (text : String)
deriving DecidableEq

namespace Failure

/-- The wording of a failure. -/
def text : Failure → String
  | undefined name => "Undefined variable '" ++ name.lexeme ++ "'."
  | operand _ => "Operand must be a number."
  | operands _ => "Operands must be numbers."
  | mixedOperands _ => "Operands must be of same type."
  | unknownUnary operator => "Unknown unary operator '" ++ operator.lexeme ++ "'."
  | unknownBinary operator => "Unknown binary operator '" ++ operator.lexeme ++ "'."
  | tooDeep => nestingText
  | other _ text => text

/-- The token to blame; a tree nested too deep has none. -/
def token? : Failure → Option Token
  | undefined t | operand t | operands t | mixedOperands t | unknownUnary t | unknownBinary t =>
    some t
  | tooDeep => none
  | other t _ => t

end Failure

/-! ## Reports -/

/-- A report of a fault or a failure.  A fault found on the last level of nesting is listed among the
reports, but there is no level left to write it on. -/
inductive Report
  | ofFault (line : Int) (place : Place) (fault : Fault)
  | unwritten (line : Int) (place : Place) (fault : Fault)
  | ofFailure (failure : Failure)
deriving DecidableEq

namespace Report

/-- The report of a fault at a token. -/
def atToken (t : Token) (fault : Fault) : Report := .ofFault t.line (.ofToken t) fault

/-- The report of a fault at a token that is not written. -/
def unwrittenAt (t : Token) (fault : Fault) : Report := .unwritten t.line (.ofToken t) fault

/-- Is it a fault of a text? -/
def isFault : Report → Bool
  | ofFault .. | unwritten .. => true
  | ofFailure _ => false

@[simp] theorem isFault_ofFault (line : Int) (place : Place) (fault : Fault) :
    (ofFault line place fault).isFault = true := rfl
@[simp] theorem isFault_ofFailure (failure : Failure) : (ofFailure failure).isFault = false := rfl
@[simp] theorem isFault_atToken (t : Token) (fault : Fault) :
    (atToken t fault).isFault = true := rfl
@[simp] theorem isFault_unwrittenAt (t : Token) (fault : Fault) :
    (unwrittenAt t fault).isFault = true := rfl

/-- Is it written for the user? -/
def isWritten : Report → Bool
  | unwritten .. => false
  | _ => true

@[simp] theorem isWritten_atToken (t : Token) (fault : Fault) :
    (atToken t fault).isWritten = true := rfl
@[simp] theorem isWritten_unwrittenAt (t : Token) (fault : Fault) :
    (unwrittenAt t fault).isWritten = false := rfl

/-- A line number as it stands in a report. -/
def lineText (line : Int) : String := "[line " ++ toString line ++ "]"

/-- The report as text. -/
def text : Report → String
  | ofFault line place fault | unwritten line place fault =>
    lineText line ++ " Error" ++ place.text ++ ": " ++ fault.text
  | ofFailure failure =>
    match failure.token? with
    | some t => failure.text ++ "\n" ++ lineText t.line
    | none => failure.text

end Report

end Lox
