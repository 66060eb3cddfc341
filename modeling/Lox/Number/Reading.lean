/-!
# Numbers read from text

Digits in the source have no sign and no exponent: they are digits, or digits, a point and more
digits.  `ofDigits` rounds such a text to the nearest double.  `read?` also reads what numbers look
like as data: a sign, a point with digits on one side only, an exponent, and the words for what is
not finite.
-/

namespace Lox.Number

/-- The digits `0` to `9`, and no others. -/
def isDigit (c : Char) : Bool := '0' ≤ c && c ≤ '9'

/-- The double nearest to `whole.places · 10 ^ exponent`. -/
def ofDigits (whole places : List Char) (exponent : Int) : Float :=
  let e := exponent - places.length
  Float.ofScientific (Nat.ofDigitChars 10 (whole ++ places) 0) (e < 0) e.natAbs

/-- Splits digits, and the digits after a point, from the front of a text. -/
def splitDigits (cs : List Char) : List Char × List Char × List Char :=
  let rest := cs.dropWhile isDigit
  match rest with
  | '.' :: r => (cs.takeWhile isDigit, r.takeWhile isDigit, r.dropWhile isDigit)
  | _ => (cs.takeWhile isDigit, [], rest)

/-- The double that a number in the source stands for. -/
def ofSource (cs : List Char) : Float :=
  let (whole, places, _) := splitDigits cs
  ofDigits whole places 0

/-- Splits a sign from the front of a text; no sign is a plus. -/
def splitSign : List Char → Bool × List Char
  | '-' :: r => (true, r)
  | '+' :: r => (false, r)
  | r => (false, r)

/-- The exponent of a number, of which nothing may be left: `e` or `E`, a sign, and digits. -/
def exponent? : List Char → Option Int
  | [] => some 0
  | c :: r =>
    let (negative, digits) := splitSign r
    if (c = 'e' ∨ c = 'E') ∧ digits ≠ [] ∧ digits.all isDigit then
      let n : Int := Nat.ofDigitChars 10 digits 0
      some (if negative then -n else n)
    else none

/-- A number without its sign. -/
def magnitude? (cs : List Char) : Option Float :=
  match String.ofList (cs.map Char.toLower) with
  | "inf" | "infinity" => some (1 / 0)
  | "nan" => some (0 / 0)
  | _ =>
    let (whole, places, rest) := splitDigits cs
    if whole = [] ∧ places = [] then none else (exponent? rest).map (ofDigits whole places)

/-- Reads a number given as data. -/
def read? (text : String) : Option Float :=
  let (negative, cs) := splitSign text.toList
  (magnitude? cs).map fun x => if negative then -x else x

end Lox.Number
