import Lox.Nesting
import Lox.Scope.Chain

/-!
# Forests of scopes

Scopes can be created in any number under any scope that is there already.  They are numbered in the
order of their creation, and each knows the scopes outward of it.  A change in one scope shows in
all whose way outward leads through it.
-/

namespace Lox

/-- A scope of a forest, with the scopes outward of it, the nearest first. -/
structure Scope where
  bindings : Bindings := {}
  outward : List Nat := []

/-- Scopes in the order of their creation. -/
structure Forest where
  scopes : Array Scope := #[]

namespace Forest

/-- The scopes in which a name used in scope `i` is looked up, in this order. -/
def path (f : Forest) (i : Nat) : List Nat :=
  match f.scopes[i]? with
  | some scope => i :: scope.outward
  | none => []

/-- The bindings of scope `i`. -/
def bindings (f : Forest) (i : Nat) : Bindings := (f.scopes[i]?.map Scope.bindings).getD {}

/-- The chain of scopes as seen from scope `i`. -/
def chain (f : Forest) (i : Nat) : Chain := (f.path i).map f.bindings

/-- Creates a scope under `parent?`, or one with nothing outward of it. -/
def create (f : Forest) (parent? : Option Nat) : Forest :=
  ⟨f.scopes.push { outward := (parent?.map f.path).getD [] }⟩

/-- Creates `n` scopes, each under the one before. -/
def createChain (f : Forest) (parent? : Option Nat) : Nat → Forest
  | 0 => f
  | n + 1 => createChain (f.create parent?) (some f.scopes.size) n

/-- Binds a name in scope `i`. -/
def define (f : Forest) (i : Nat) (name : String) (value : Value) : Forest :=
  ⟨f.scopes.modify i fun scope => { scope with bindings := scope.bindings.define name value }⟩

/-- The value of a variable used in scope `i`. -/
def read (f : Forest) (i : Nat) (name : Token) : Except Halt Value :=
  (f.chain i).read nestingLimit name

/-- The nearest scope from `i` outward that binds a name. -/
def owner? (f : Forest) (i : Nat) (name : String) : Option Nat :=
  (f.path i).find? fun j => (f.bindings j).binds name

/-- The forest after a variable used in scope `i` is assigned to. -/
def write (f : Forest) (i : Nat) (name : Token) (value : Value) : Except Halt Forest :=
  if nestingLimit < (f.chain i).reach name.lexeme then .error .tooDeep
  else match f.owner? i name.lexeme with
    | some j => .ok (f.define j name.lexeme value)
    | none => .error (.failure (.undefined name))

end Forest

end Lox
