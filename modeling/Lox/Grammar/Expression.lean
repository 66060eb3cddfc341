import Lox.Grammar.Rule

/-!
# Expressions

The rules for expressions stand in tiers, from the loosest operators to the tightest.  Each tier
reads its operands by the next one; a group starts again at the top.  Entering a rule takes one
level of nesting.
-/

namespace Lox.Grammar

/-- The tiers of the grammar of expressions. -/
inductive Tier
  | expression
  | assignment
  | or
  | and
  | equality
  | comparison
  | term
  | factor
  | unary
  | primary
deriving DecidableEq, Repr

/-- Reads an expression of a tier, with so many levels of nesting left.  What stands before an `=`
is read as any other expression; if it turns out not to be a name, the `=` is reported, and the
expression stands for the whole. -/
def readTier : Nat → Tier → Rule Expr
  | 0, _ => throw .tooDeep
  | n + 1, .expression => readTier n .assignment
  | n + 1, .assignment => do
    let target ← readTier n .or
    match ← accept [.equal] with
    | none => return target
    | some equal =>
      let value ← readTier n .assignment
      match target with
      | .reference name => return .assign name value
      | _ =>
        report n equal .badTarget
        return target
  | n + 1, .or => leftJoined [.orWord] .logical (readTier n .and)
  | n + 1, .and => leftJoined [.andWord] .logical (readTier n .equality)
  | n + 1, .equality => leftJoined [.bangEqual, .equalEqual] .binary (readTier n .comparison)
  | n + 1, .comparison =>
    leftJoined [.less, .lessEqual, .greater, .greaterEqual] .binary (readTier n .term)
  | n + 1, .term => leftJoined [.plus, .minus] .binary (readTier n .factor)
  | n + 1, .factor => leftJoined [.star, .slash] .binary (readTier n .unary)
  | n + 1, .unary => do
    match ← accept [.bang, .minus] with
    | some operator => return .unary operator (← readTier n .unary)
    | none => readTier n .primary
  | n + 1, .primary => do
    let t ← peek
    match t.kind with
    | .falseWord => skip; return .literal (.bool false)
    | .trueWord => skip; return .literal (.bool true)
    | .nilWord => skip; return .literal .nil
    | .number | .string => skip; return .literal t.literal
    | .identifier => skip; return .reference t
    | .leftParen =>
      skip
      let inner ← readTier n .expression
      let _ ← expect n .endOfGroup
      return .grouping inner
    | _ => fail n .noExpression

/-- Reads an expression. -/
def readExpression (levels : Nat) : Rule Expr := readTier levels .expression

end Lox.Grammar
