import Lox.Token.Kind
import Lox.Number.Reading

/-!
# Pieces of source

Source is cut into pieces, each of one form.  The forms stand in a fixed order, and the next piece
is the longest text of the first form that fits.  `pieces` cuts up the whole source and loses
nothing: the texts of the pieces, joined, are the source (`flatten_pieces`).
-/

namespace Lox

/-- Texts of one punctuation mark or operator, the two-character ones first. -/
def symbols : List (Kind × List Char) :=
  [(.bangEqual, ['!', '=']), (.equalEqual, ['=', '=']), (.greaterEqual, ['>', '=']),
   (.lessEqual, ['<', '=']), (.bang, ['!']), (.equal, ['=']), (.greater, ['>']), (.less, ['<']),
   (.leftParen, ['(']), (.rightParen, [')']), (.leftBrace, ['{']), (.rightBrace, ['}']),
   (.comma, [',']), (.dot, ['.']), (.semicolon, [';']), (.minus, ['-']), (.plus, ['+']),
   (.star, ['*']), (.slash, ['/'])]

/-- The forms a piece of source can have.  A comment ends before the end of its line; a string has
a closing quote, and an open string is a quote after which none follows; a stray character begins
no other form. -/
inductive Form
  | lineBreak
  | blank
  | comment
  | string
  | openString
  | number
  | word
  | symbol (kind : Kind) (spelling : List Char)
  | stray
deriving DecidableEq

namespace Form

/-- The forms in the order in which they are tried. -/
def all : List Form :=
  [lineBreak, blank, comment, string, openString, number, word] ++
    symbols.map (fun (kind, spelling) => symbol kind spelling) ++ [stray]

/-- Blanks within a line. -/
def isBlank (c : Char) : Bool := c = ' ' || c = '\r' || c = '\t'

/-- A word begins with a letter of the Latin alphabet without marks, or with an underscore. -/
def startsWord (c : Char) : Bool := c.isAlpha || c = '_'

/-- A word goes on with what it may begin with, and with digits. -/
def inWord (c : Char) : Bool := startsWord c || Number.isDigit c

/-- How many characters at the start of a text satisfy `p`. -/
def run (p : Char → Bool) (cs : List Char) : Nat := (cs.takeWhile p).length

/-- The length of a number: digits, and a point if a digit follows it, with the digits there. -/
def numberLength (cs : List Char) : Nat :=
  let whole := run Number.isDigit cs
  match cs.drop whole with
  | '.' :: r =>
    let places := run Number.isDigit r
    if whole = 0 ∨ places = 0 then whole else whole + 1 + places
  | _ => whole

/-- The length of the longest text of a form at the start of `cs`; zero if there is none. -/
def longest : Form → List Char → Nat
  | lineBreak, '\n' :: _ => 1
  | blank, cs => run isBlank cs
  | comment, '/' :: '/' :: r => 2 + run (· ≠ '\n') r
  | string, '"' :: r => if '"' ∈ r then 2 + run (· ≠ '"') r else 0
  | openString, '"' :: r => 1 + run (· ≠ '"') r
  | number, cs => numberLength cs
  | word, c :: r => if startsWord c then 1 + run inWord r else 0
  | symbol _ spelling, cs => if spelling.isPrefixOf cs then spelling.length else 0
  | stray, c :: _ => if c = '\n' then 0 else 1
  | _, _ => 0

theorem run_le (p : Char → Bool) (cs : List Char) : run p cs ≤ cs.length :=
  (List.takeWhile_sublist p).length_le

/-- A character that does not satisfy `p` ends the run before the end of the text. -/
theorem run_lt {p : Char → Bool} {cs : List Char} {c : Char} (mem : c ∈ cs) (hc : p c = false) :
    run p cs < cs.length := by
  induction cs with
  | nil => cases mem
  | cons d r ih =>
    by_cases hd : p d
    · have next : c ∈ r := by
        rcases List.mem_cons.1 mem with rfl | h
        · simp [hc] at hd
        · exact h
      simpa [run, hd] using ih next
    · simp [run, hd]

theorem numberLength_le (cs : List Char) : numberLength cs ≤ cs.length := by
  have whole := run_le Number.isDigit cs
  simp only [numberLength]
  split
  next r h =>
    have places := run_le Number.isDigit r
    have total := congrArg List.length h
    simp only [List.length_drop, List.length_cons] at total
    split <;> omega
  next => exact whole

theorem longest_le (f : Form) (cs : List Char) : f.longest cs ≤ cs.length := by
  unfold longest
  split
  · simp
  · exact run_le _ _
  next r => have := run_le (· ≠ '\n') r; simp only [List.length_cons]; omega
  next r =>
    split
    next h =>
      have := run_lt (p := (· ≠ '"')) h (by simp)
      simp only [List.length_cons]; omega
    · simp
  next r => have := run_le (· ≠ '"') r; simp only [List.length_cons]; omega
  · exact numberLength_le _
  next c r =>
    split
    · have := run_le inWord r; simp only [List.length_cons]; omega
    · simp
  · split
    next h => exact (List.isPrefixOf_iff_prefix.1 h).length_le
    · simp
  next c r => split <;> simp
  · simp

/-- The form and the length of the next piece. -/
def first? (cs : List Char) : Option (Form × Nat) :=
  all.findSome? fun f => if f.longest cs = 0 then none else some (f, f.longest cs)

theorem length_of_first? {cs : List Char} {f : Form} {n : Nat} (h : first? cs = some (f, n)) :
    0 < n ∧ n ≤ cs.length := by
  obtain ⟨g, -, hg⟩ := List.exists_of_findSome?_eq_some h
  split at hg
  · cases hg
  · cases hg
    exact ⟨by omega, longest_le _ _⟩

end Form

/-- A piece of source. -/
structure Piece where
  form : Form
  text : List Char
deriving DecidableEq

/-- Cuts source into pieces. -/
def pieces (cs : List Char) : List Piece :=
  match h : Form.first? cs with
  | none => []
  | some (form, n) =>
    have shorter : (cs.drop n).length < cs.length := by
      have := Form.length_of_first? h
      simp only [List.length_drop]
      omega
    ⟨form, cs.take n⟩ :: pieces (cs.drop n)
termination_by cs.length
decreasing_by exact shorter

/-- Some form fits every text that is not empty. -/
theorem Form.first?_eq_none_iff {cs : List Char} : Form.first? cs = none ↔ cs = [] := by
  constructor
  · intro h
    cases cs with
    | nil => rfl
    | cons c r =>
      have none_fits : ∀ f ∈ Form.all, f.longest (c :: r) = 0 := by
        simpa [Form.first?] using h
      have hb := none_fits .lineBreak (by simp [Form.all])
      have hs := none_fits .stray (by simp [Form.all])
      by_cases hc : c = '\n'
      · subst hc; simp [Form.longest] at hb
      · simp [Form.longest, hc] at hs
  · rintro rfl
    decide

/-- Cutting into pieces loses nothing. -/
theorem flatten_pieces (cs : List Char) : ((pieces cs).map Piece.text).flatten = cs := by
  fun_induction pieces cs with
  | case1 cs h => simp [Form.first?_eq_none_iff.1 h]
  | case2 cs form n h shorter ih => simp [ih]

end Lox
