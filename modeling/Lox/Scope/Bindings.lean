import Lox.Value

/-!
# Bindings

A scope binds names to values.  Its names keep the order in which they were defined first; a name is
bound at most once.
-/

namespace Lox

/-- The names a scope binds, with their values. -/
structure Bindings where
  entries : List (String × Value) := []
deriving DecidableEq

namespace Bindings

/-- The value of a name in a list of entries. -/
def find? (name : String) : List (String × Value) → Option Value
  | [] => none
  | e :: r => if e.1 = name then some e.2 else find? name r

/-- The value of a name. -/
def get? (b : Bindings) (name : String) : Option Value := find? name b.entries

/-- Is the name bound? -/
def binds (b : Bindings) (name : String) : Bool := (b.get? name).isSome

/-- The bound names. -/
def names (b : Bindings) : List String := b.entries.map Prod.fst

/-- Binds a name in a list of entries, in its old place if it has one. -/
def put (name : String) (value : Value) : List (String × Value) → List (String × Value)
  | [] => [(name, value)]
  | e :: r => if e.1 = name then (name, value) :: r else e :: put name value r

/-- Binds a name. -/
def define (b : Bindings) (name : String) (value : Value) : Bindings :=
  ⟨put name value b.entries⟩

/-- The bindings of a list of entries, the later ones winning. -/
def ofList (entries : List (String × Value)) : Bindings :=
  entries.foldl (fun b e => b.define e.1 e.2) {}

/-- The entries in the order of their names, by code points. -/
def sorted (b : Bindings) : List (String × Value) := b.entries.mergeSort fun a b => a.1 ≤ b.1

@[simp] theorem get?_empty (name : String) : ({} : Bindings).get? name = none := rfl

theorem find?_put (entries : List (String × Value)) (name other : String) (value : Value) :
    find? other (put name value entries) =
      if other = name then some value else find? other entries := by
  induction entries with
  | nil => simp only [put, find?, eq_comm]
  | cons e r ih =>
    by_cases h : e.1 = name
    · by_cases ho : other = name
      · simp [put, find?, h, ho]
      · have hn : ¬ name = other := fun hn => ho hn.symm
        simp [put, find?, ho, hn, h]
    · by_cases ho : e.1 = other
      · have hn : ¬ other = name := fun hn => h (ho.trans hn)
        simp [put, find?, ho, hn]
      · simp [put, find?, h, ho, ih]

@[simp] theorem get?_define (b : Bindings) (name other : String) (value : Value) :
    (b.define name value).get? other = if other = name then some value else b.get? other :=
  find?_put _ _ _ _

@[simp] theorem binds_define (b : Bindings) (name other : String) (value : Value) :
    (b.define name value).binds other = (other = name || b.binds other) := by
  by_cases h : other = name <;> simp [binds, h]

end Bindings

end Lox
