import Lox.Number.Double
import Lox.Report

/-!
# Operators on values

Arithmetic and order take numbers and follow the rules for doubles: dividing by zero gives an
infinity or NaN, and NaN is neither below nor above anything.  Plus also joins two strings.
Negation in logic and equality take any values.
-/

namespace Lox.Operator

/-- An operator on two numbers. -/
def numeric (operator : Token) (f : Float → Float → Value) : Value → Value → Except Failure Value
  | .number x, .number y => .ok (f x y)
  | _, _ => .error (.operands operator)

/-- Adds numbers and joins strings. -/
def plus (operator : Token) : Value → Value → Except Failure Value
  | .number x, .number y => .ok (.number (x + y))
  | .string s, .string t => .ok (.string (s ++ t))
  | _, _ => .error (.mixedOperands operator)

/-- Divides by a number that is no zero; by a zero there is no quotient. -/
def quotient (x y : Float) (_ : (y == 0) = false) : Float := x / y

/-- Does the sign of a number say that it is below zero?  The zero below zero counts. -/
def isNegative (x : Float) : Bool := Number.signBit x.toBits.toNat

/-- Divides.  What is divided by a zero is infinite, with both signs taken into account, and NaN if
it is itself zero or NaN. -/
def divide (x y : Float) : Float :=
  if zero : y == 0 then
    if x == 0 || x.isNaN then 0 / 0
    else if isNegative x = isNegative y then 1 / 0
    else -1 / 0
  else quotient x y (eq_false_of_ne_true zero)

/-- Applies a unary operator. -/
def unary (operator : Token) (v : Value) : Except Failure Value :=
  match operator.kind with
  | .minus =>
    match v with
    | .number x => .ok (.number (-x))
    | _ => .error (.operand operator)
  | .bang => .ok (.bool !v.isTruthy)
  | _ => .error (.unknownUnary operator)

/-- Applies a binary operator. -/
def binary (operator : Token) (a b : Value) : Except Failure Value :=
  match operator.kind with
  | .plus => plus operator a b
  | .minus => numeric operator (fun x y => .number (x - y)) a b
  | .star => numeric operator (fun x y => .number (x * y)) a b
  | .slash => numeric operator (fun x y => .number (divide x y)) a b
  | .greater => numeric operator (fun x y => .bool (y < x)) a b
  | .greaterEqual => numeric operator (fun x y => .bool (y ≤ x)) a b
  | .less => numeric operator (fun x y => .bool (x < y)) a b
  | .lessEqual => numeric operator (fun x y => .bool (x ≤ y)) a b
  | .equalEqual => .ok (.bool (a.same b))
  | .bangEqual => .ok (.bool !(a.same b))
  | _ => .error (.unknownBinary operator)

end Lox.Operator
