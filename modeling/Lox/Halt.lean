import Lox.Report

/-!
# Why a program halts early

A failure is the program's own.  Nesting too deep is a limit of the machine, and so is an integer
with too many digits to be printed; a misfit is a fault of the tree, and a loop is unfinished when it
has used up the rounds it was given.
-/

namespace Lox

/-- Why running a program or evaluating an expression halts before its end. -/
inductive Halt
  | failure (failure : Failure)
  | tooDeep
  | tooLong
  | invalidExpression (record : String)
  | unknownStatement (kind : String)
  | unfinished
deriving DecidableEq

/-- What is said of a misfit in a tree. -/
def Halt.misfitText? : Halt → Option String
  | invalidExpression record => some ("Invalid expression node: " ++ record)
  | unknownStatement kind => some ("Unknown statement type: " ++ kind)
  | _ => none

end Lox
