import Lox.Tree

/-!
# Trees as records

A node as a record: the name of its kind, and its fields with their names.  Messages about a node in
a wrong place show it so.
-/

namespace Lox

/-- A node with its fields. -/
def recordOf (kind : String) (fields : List (String × String)) : String :=
  kind ++ "(" ++ ", ".intercalate (fields.map fun (name, text) => name ++ "=" ++ text) ++ ")"

/-- A sequence of nodes; a single one is followed by a comma. -/
def recordOfSequence : List String → String
  | [text] => "(" ++ text ++ ",)"
  | texts => "(" ++ ", ".intercalate texts ++ ")"

namespace Misfit

/-- The place of a node is empty. -/
def absent : Misfit := ⟨"NoneType", "None"⟩

end Misfit

namespace Expr

/-- The name of the kind of an expression. -/
def kind : Expr → String
  | literal _ => "Literal"
  | grouping _ => "Grouping"
  | unary .. => "Unary"
  | binary .. => "Binary"
  | logical .. => "Logical"
  | reference _ => "Variable"
  | assign .. => "Assign"
  | misfit node => node.kind

/-- An expression as a record. -/
def record : Expr → String
  | literal value => recordOf "Literal" [("value", value.record)]
  | grouping inner => recordOf "Grouping" [("expression", inner.record)]
  | unary operator operand =>
    recordOf "Unary" [("operator", operator.record), ("right", operand.record)]
  | binary left operator right =>
    recordOf "Binary"
      [("left", left.record), ("operator", operator.record), ("right", right.record)]
  | logical left operator right =>
    recordOf "Logical"
      [("left", left.record), ("operator", operator.record), ("right", right.record)]
  | reference name => recordOf "Variable" [("name", name.record)]
  | assign name value => recordOf "Assign" [("name", name.record), ("value", value.record)]
  | misfit node => node.record

/-- An expression in the place of a statement. -/
def asStmt (e : Expr) : Stmt := .misfit ⟨e.kind, e.record⟩

end Expr

namespace Stmt

/-- The name of the kind of a statement. -/
def kind : Stmt → String
  | expression _ => "Expression"
  | print _ => "Print"
  | declare .. => "Var"
  | block _ => "Block"
  | ifThen .. | ifElse .. => "If"
  | loop .. => "While"
  | misfit node => node.kind

mutual

/-- A statement as a record. -/
def record : Stmt → String
  | expression e => recordOf "Expression" [("expression", e.record)]
  | print e => recordOf "Print" [("expression", e.record)]
  | declare name initializer =>
    recordOf "Var"
      [("name", name.record), ("initializer", (initializer.map Expr.record).getD "None")]
  | block body => recordOf "Block" [("statements", recordOfSequence (records body))]
  | ifThen condition thenBranch =>
    recordOf "If"
      [("condition", condition.record), ("then_branch", thenBranch.record),
       ("else_branch", "None")]
  | ifElse condition thenBranch elseBranch =>
    recordOf "If"
      [("condition", condition.record), ("then_branch", thenBranch.record),
       ("else_branch", elseBranch.record)]
  | loop condition body =>
    recordOf "While" [("condition", condition.record), ("body", body.record)]
  | misfit node => node.record

/-- The statements of a block as records. -/
def records : List Stmt → List String
  | [] => []
  | s :: ss => s.record :: records ss

end

/-- A statement in the place of an expression. -/
def asExpr (s : Stmt) : Expr := .misfit ⟨s.kind, s.record⟩

end Stmt

end Lox
