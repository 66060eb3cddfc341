import Lox.Token.Kind
import Lox.Value

/-!
# Tokens

A token keeps the text it was read from, the value of a number or a string, and its line.
-/

namespace Lox

/-- A token.  Its line is the line on which its text ends, and `literal` is nil for all but numbers
and strings. -/
structure Token where
  kind : Kind
  lexeme : String
  literal : Value
  line : Int
deriving DecidableEq

namespace Token

/-- The end of the tokens. -/
def eof (line : Int) : Token := ⟨.eof, "", .nil, line⟩

@[simp] theorem kind_eof (line : Int) : (eof line).kind = .eof := rfl
@[simp] theorem line_eof (line : Int) : (eof line).line = line := rfl

/-- The token as a record. -/
def record (t : Token) : String :=
  "Token(" ++ t.kind.name ++ ", " ++ Text.quoted t.lexeme ++ ", " ++ t.literal.record ++
    ", line=" ++ toString t.line ++ ")"

end Token

end Lox
