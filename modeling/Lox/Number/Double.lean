/-!
# What a double is made of

A double is not a number, an infinity, or a sign and a whole number of units of a power of two.
`Number.parts` takes it apart.  The units are exact, so all that follows about decimal texts is
arithmetic on whole numbers.
-/

namespace Lox.Number

/-- The magnitude `significand · 2 ^ exponent` of a finite double. -/
structure Dyadic where
  significand : Nat
  exponent : Int
deriving DecidableEq, Repr

/-- The parts of a double: what it is, on which side of zero, and how far from it. -/
inductive Parts
  | nan
  | infinite (negative : Bool)
  | finite (negative : Bool) (magnitude : Dyadic)
deriving DecidableEq, Repr

/-- How many fractions a binade has: the stored significand lies below it. -/
def binade : Nat := Nat.pow 2 52

/-- The exponent of the smallest unit, which belongs to zero and to the subnormal doubles. -/
def leastExponent : Int := -1074

/-- The stored fraction of the significand. -/
def fraction (bits : Nat) : Nat := bits % binade

/-- The stored exponent, eleven bits wide. -/
def storedExponent (bits : Nat) : Nat := bits / binade % Nat.pow 2 11

/-- The top bit says that the double is below zero, or the zero below zero. -/
def signBit (bits : Nat) : Bool := bits / Nat.pow 2 63 % 2 = 1

/-- A subnormal double counts the smallest units; any other has a leading one in front of its
fraction. -/
def magnitude (bits : Nat) : Dyadic :=
  match storedExponent bits with
  | 0 => ⟨fraction bits, leastExponent⟩
  | e + 1 => ⟨binade + fraction bits, leastExponent + e⟩

/-- The greatest stored exponent marks what is not finite. -/
def partsOfBits (bits : Nat) : Parts :=
  if storedExponent bits = 2047 then
    if fraction bits = 0 then .infinite (signBit bits) else .nan
  else .finite (signBit bits) (magnitude bits)

/-- The parts of a double. -/
def parts (x : Float) : Parts := partsOfBits x.toBits.toNat

@[simp] theorem parts_one : parts 1 = .finite false ⟨binade, -52⟩ := by decide +kernel

@[simp] theorem parts_zero : parts 0 = .finite false ⟨0, -1074⟩ := by decide +kernel

end Lox.Number
