import Lox.Halt
import Lox.Scope.Bindings

/-!
# Chains of scopes

Code runs in a chain of scopes, the innermost first.  A name stands for the binding in the nearest
scope that has one.  Walking outward takes one level of nesting for each scope.
-/

namespace Lox

/-- Scopes from the innermost outward. -/
abbrev Chain := List Bindings

namespace Chain

/-- The value of a name in the nearest scope that binds it. -/
def get? : Chain → String → Option Value
  | [], _ => none
  | b :: outer, name =>
    match b.get? name with
    | some value => some value
    | none => get? outer name

/-- Binds a name in the innermost scope. -/
def define : Chain → String → Value → Chain
  | [], _, _ => []
  | b :: outer, name, value => b.define name value :: outer

/-- Binds a name anew in the nearest scope that binds it. -/
def assign? : Chain → String → Value → Option Chain
  | [], _, _ => none
  | b :: outer, name, value =>
    if b.binds name then some (b.define name value :: outer)
    else (assign? outer name value).map (b :: ·)

/-- How many scopes are looked into for a name. -/
def reach : Chain → String → Nat
  | [], _ => 0
  | b :: outer, name => if b.binds name then 1 else reach outer name + 1

theorem reach_le_length (c : Chain) (name : String) : c.reach name ≤ c.length := by
  induction c with
  | nil => exact Nat.le_refl 0
  | cons b outer ih =>
    simp only [reach, List.length_cons]
    split <;> omega

theorem isSome_assign? (c : Chain) (name : String) (value : Value) :
    (c.assign? name value).isSome = (c.get? name).isSome := by
  induction c with
  | nil => rfl
  | cons b outer ih =>
    cases h : b.get? name with
    | none => simp [assign?, get?, Bindings.binds, h, ih]
    | some v => simp [assign?, get?, Bindings.binds, h]

/-- The value of a variable, with so many levels of nesting left. -/
def read (levels : Nat) (c : Chain) (name : Token) : Except Halt Value :=
  if levels < c.reach name.lexeme then .error .tooDeep
  else match c.get? name.lexeme with
    | some value => .ok value
    | none => .error (.failure (.undefined name))

/-- The chain after a variable is assigned to, with so many levels of nesting left. -/
def write (levels : Nat) (c : Chain) (name : Token) (value : Value) : Except Halt Chain :=
  if levels < c.reach name.lexeme then .error .tooDeep
  else match c.assign? name.lexeme value with
    | some c => .ok c
    | none => .error (.failure (.undefined name))

end Chain

end Lox
