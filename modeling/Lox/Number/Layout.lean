import Lox.Number.Decimal

/-!
# Numbers as text

A number is written with the fewest digits that read back.  It is written positionally from
`0.0001` up to below `10 ^ 16`, and with an exponent outside.  `Layout` holds what differs between
the places where numbers are shown; the three layouts of the language are its values.
-/

namespace Lox.Number

/-- How numbers look in one place: what follows a whole number written positionally, and the
words for what is not finite. -/
structure Layout where
  wholeTail : String
  infinity : String
  notANumber : String
deriving DecidableEq, Repr

namespace Layout

/-- A value in a record of fields: a whole number shows that it is no integer. -/
def record : Layout := ⟨".0", "inf", "nan"⟩

/-- A literal in the Polish form of a tree. -/
def polish : Layout := ⟨"", "inf", "nan"⟩

/-- What a program prints. -/
def printed : Layout := ⟨"", "Infinity", "NaN"⟩

/-- Leading exponents from here on are written positionally. -/
def leastPositional : Int := -4

/-- Leading exponents from here on are written with an exponent. -/
def beyondPositional : Int := 16

/-- An exponent has a sign and at least two digits. -/
def exponentText (e : Int) : List Char :=
  let digits := Nat.toDigits 10 e.natAbs
  (if e < 0 then '-' else '+') :: (List.replicate (2 - digits.length) '0' ++ digits)

/-- Digits with a point before the position `place`; zeros fill up on both sides. -/
def positional (wholeTail : List Char) (digits : List Char) (place : Int) : List Char :=
  if place ≤ 0 then '0' :: '.' :: (List.replicate (-place).toNat '0' ++ digits)
  else if place < digits.length then
    digits.take place.toNat ++ '.' :: digits.drop place.toNat
  else digits ++ List.replicate (place.toNat - digits.length) '0' ++ wholeTail

/-- One digit, the point and the other digits if there are any, and the exponent. -/
def scientific (digits : List Char) (e : Int) : List Char :=
  match digits with
  | [d] => d :: 'e' :: exponentText e
  | d :: ds => d :: '.' :: ds ++ 'e' :: exponentText e
  | [] => []

/-- A decimal as text; its leading exponent decides the form. -/
def decimal (layout : Layout) (d : Decimal) : List Char :=
  let digits := Nat.toDigits 10 d.digits
  let place := d.exponent + digits.length
  if leastPositional < place ∧ place ≤ beyondPositional then
    positional layout.wholeTail.toList digits place
  else scientific digits (place - 1)

/-- The sign of a number: a minus also for the zero below zero. -/
def sign (negative : Bool) : List Char := if negative then ['-'] else []

/-- The text of a double taken apart. -/
def ofParts (layout : Layout) : Parts → List Char
  | .nan => layout.notANumber.toList
  | .infinite negative => sign negative ++ layout.infinity.toList
  | .finite negative x => sign negative ++ layout.decimal x.shortest

/-- The text of a double. -/
def text (layout : Layout) (x : Float) : String := String.ofList (layout.ofParts (parts x))

end Layout

end Lox.Number
