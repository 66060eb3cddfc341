import Lox.Number.Layout
import Lox.Text.Quoted

/-!
# Values

What an expression can stand for, and the three texts of a value: as a program prints it, as a
literal in the Polish form of a tree, and as a field of a record.  An integer of too many digits is
not printed.
-/

namespace Lox

/-- A value of the language.  Its programs make the first four kinds only.  An integer can stand in
a tree built by hand: no operator takes it for a number. -/
inductive Value
  | nil
  | bool (b : Bool)
  | number (x : Float)
  | string (s : String)
  | integer (n : Int)
deriving DecidableEq

namespace Value

/-- Only nil and false count as false; zero and the empty string count as true. -/
def isTruthy : Value → Bool
  | nil => false
  | bool b => b
  | _ => true

@[simp] theorem isTruthy_nil : nil.isTruthy = false := rfl
@[simp] theorem isTruthy_bool (b : Bool) : (bool b).isTruthy = b := rfl
@[simp] theorem isTruthy_number (x : Float) : (number x).isTruthy = true := rfl
@[simp] theorem isTruthy_string (s : String) : (string s).isTruthy = true := rfl
@[simp] theorem isTruthy_integer (n : Int) : (integer n).isTruthy = true := rfl

/-- Two values are equal when they are one value.  So NaN equals itself, zero differs from the zero
below zero, and values of different kinds differ. -/
def same (a b : Value) : Bool := a = b

@[simp] theorem same_iff {a b : Value} : a.same b = true ↔ a = b := by simp [same]

/-- A logical value, as programs write it. -/
def boolText (b : Bool) : String := if b then "true" else "false"

/-- How many digits an integer may have to be printed. -/
def digitLimit : Nat := 4300

/-- The value as `print` shows it.  An integer that has more digits than the limit cannot be
shown. -/
def text? : Value → Option String
  | nil => some "nil"
  | bool b => some (boolText b)
  | number x => some (Number.Layout.printed.text x)
  | string s => some s
  | integer n => if n.natAbs < Nat.pow 10 digitLimit then some (toString n) else none

@[simp] theorem text?_nil : nil.text? = some "nil" := rfl
@[simp] theorem text?_bool (b : Bool) : (bool b).text? = some (boolText b) := rfl
@[simp] theorem text?_number (x : Float) :
    (number x).text? = some (Number.Layout.printed.text x) := rfl
@[simp] theorem text?_string (s : String) : (string s).text? = some s := rfl

theorem text?_integer (n : Int) :
    (integer n).text? =
      if n.natAbs < Nat.pow 10 digitLimit then some (toString n) else none := rfl

/-- The value as a literal in Polish form.  A string stands between plain double quotes. -/
def polish : Value → String
  | nil => "nil"
  | bool b => boolText b
  | number x => Number.Layout.polish.text x
  | string s => "\"" ++ s ++ "\""
  | integer n => toString n

/-- The value as a field of a record. -/
def record : Value → String
  | nil => "None"
  | bool b => if b then "True" else "False"
  | number x => Number.Layout.record.text x
  | string s => Text.quoted s
  | integer n => toString n

end Value

end Lox
