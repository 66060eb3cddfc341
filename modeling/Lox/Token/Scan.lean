import Lox.Token.Form
import Lox.Report

/-!
# Tokens of a source

Scanning cuts the source into pieces and goes through them with the number of the line.  The pieces
that carry meaning become tokens, stray characters and an open string become reports, and the rest
is layout.  A piece belongs to the line on which it ends.
-/

namespace Lox

namespace Piece

/-- How many lines the piece ends. -/
def lineEnds (p : Piece) : Nat := p.text.count '\n'

/-- The token of a piece that ends on `line`. -/
def token? (p : Piece) (line : Int) : Option Token :=
  let lexeme := String.ofList p.text
  match p.form with
  | .string => some ⟨.string, lexeme, .string (String.ofList p.text.tail.dropLast), line⟩
  | .number => some ⟨.number, lexeme, .number (Number.ofSource p.text), line⟩
  | .word => some ⟨.ofWord lexeme, lexeme, .nil, line⟩
  | .symbol kind _ => some ⟨kind, lexeme, .nil, line⟩
  | _ => none

/-- The report of a piece that ends on `line`. -/
def report? (p : Piece) (line : Int) : Option Report :=
  match p.form, p.text with
  | .openString, _ => some (.ofFault line .unsaid .openString)
  | .stray, c :: _ => some (.ofFault line .unsaid (.strayCharacter c))
  | _, _ => none

end Piece

/-- The tokens of pieces that begin on `line`, closed by the end. -/
def tokensFrom (line : Int) : List Piece → List Token
  | [] => [Token.eof line]
  | p :: ps => (p.token? (line + p.lineEnds)).toList ++ tokensFrom (line + p.lineEnds) ps

/-- The reports of pieces that begin on `line`. -/
def reportsFrom (line : Int) : List Piece → List Report
  | [] => []
  | p :: ps => (p.report? (line + p.lineEnds)).toList ++ reportsFrom (line + p.lineEnds) ps

/-- What scanning a source gives. -/
structure Scan where
  tokens : List Token
  reports : List Report

/-- Scans a source from its first line on. -/
def scan (source : String) : Scan :=
  let ps := pieces source.toList
  ⟨tokensFrom 1 ps, reportsFrom 1 ps⟩

@[simp] theorem tokensFrom_nil (line : Int) : tokensFrom line [] = [Token.eof line] := rfl
@[simp] theorem reportsFrom_nil (line : Int) : reportsFrom line [] = [] := rfl

/-- Scanning reports faults only, and writes them all. -/
theorem exists_eq_ofFault_of_mem_reportsFrom {line : Int} {ps : List Piece} {r : Report}
    (h : r ∈ reportsFrom line ps) : ∃ line fault, r = .ofFault line .unsaid fault := by
  induction ps generalizing line with
  | nil => exact absurd h List.not_mem_nil
  | cons p ps ih =>
    rcases List.mem_append.1 h with h | h
    · simp only [Piece.report?, Option.mem_toList] at h
      split at h
      · exact ⟨_, _, (Option.some.inj h).symm⟩
      · exact ⟨_, _, (Option.some.inj h).symm⟩
      · cases h
    · exact ih h

end Lox
