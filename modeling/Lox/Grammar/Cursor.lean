import Lox.Grammar.Statement

/-!
# Cursors

A cursor stands before a token of a list and keeps the reports so far, so that rules of the grammar
can be applied one after the other.  Looking back from the first token wraps around to the last.
-/

namespace Lox.Grammar

/-- A place in a list of tokens that is never empty. -/
structure Cursor where
  tokens : List Token
  reading : Reading

namespace Cursor

/-- A cursor before the first token. -/
def ofTokens (tokens : List Token) : Cursor := ⟨closed tokens, ⟨closed tokens, []⟩⟩

/-- How many tokens have been read. -/
def position (c : Cursor) : Nat := c.tokens.length - c.reading.ahead.length

/-- Applies a rule. -/
def apply {α : Type} (rule : Rule α) (c : Cursor) : Except Stop α × Cursor :=
  match rule c.reading with
  | .ok a s => (.ok a, { c with reading := s })
  | .error stop s => (.error stop, { c with reading := s })

/-- The token before the cursor. -/
def previous? (c : Cursor) : Option Token :=
  if c.position = 0 then c.tokens.getLast? else c.tokens[c.position - 1]?

/-- Moves over the next token unless it is the end, and gives the token before the cursor. -/
def advance (c : Cursor) : Except Stop (Option Token) × Cursor :=
  match c.reading.ahead with
  | [] => (.error .ranOut, c)
  | t :: r =>
    let c := if t.kind = .eof then c else { c with reading := { c.reading with ahead := r } }
    (.ok c.previous?, c)

/-- Moves over the next token if it is of one of these kinds; of no kinds, none is. -/
def accepts (kinds : List Kind) : Rule Bool :=
  if kinds.isEmpty then return false else Option.isSome <$> accept kinds

/-- Is the next token the end? -/
def isAtEnd : Rule Bool := do return (← peek).kind = .eof

end Cursor

end Lox.Grammar
