import Lox.Scope.Forest

/-!
# A forest of nested scopes

A forest has a history: the operations that made it.  The history alone says which scopes lie outward
of a scope (`History.way`), and which value a scope has for a name, namely the one that was last
defined or assigned there (`History.last`).  Each operation keeps the forest as its history says
(`Records.perform`), and from that follow the laws of nested scopes: what a look-up finds, which
look-ups see a definition or an assignment, and that what fails changes nothing (`nested_ofHistory`).
-/

namespace Lox

/-- Binding a bound name anew adds no name. -/
theorem Bindings.names_define_of_binds {b : Bindings} {name : String} (v : Value)
    (h : b.binds name = true) : (b.define name v).names = b.names := by
  obtain ⟨entries⟩ := b
  unfold binds get? at h
  unfold define names
  induction entries with
  | nil => cases h
  | cons e rest ih =>
    by_cases he : e.1 = name
    · simp [put, he]
    · rw [find?, if_neg he] at h
      simpa [put, he] using ih h

namespace Forest

/-! ## Operations -/

/-- What can be done with a forest. -/
inductive Operation
  | create (parent? : Option Nat)
  | define (i : Nat) (name : String) (value : Value)
  | assign (i : Nat) (name : Token) (value : Value)
  | get (i : Nat) (name : Token)

/-- What an operation gives, and the forest it leaves. -/
def perform (f : Forest) : Operation → Except Halt (Option Value) × Forest
  | .create parent? => (.ok none, f.create parent?)
  | .define i name v => (.ok none, f.define i name v)
  | .assign i name v =>
    match f.write i name v with
    | .ok f' => (.ok none, f')
    | .error halt => (.error halt, f)
  | .get i name => (some <$> f.read i name, f)

/-- Operations, the latest first. -/
abbrev History := List Operation

/-- The forest that the operations make. -/
def ofHistory : History → Forest
  | [] => {}
  | operation :: earlier => ((ofHistory earlier).perform operation).2

namespace History

/-- How many scopes have been created. -/
def created : History → Nat
  | [] => 0
  | .create _ :: earlier => created earlier + 1
  | .define .. :: earlier | .assign .. :: earlier | .get .. :: earlier => created earlier

/-- Scope `i` and the scopes outward of it, by the creations. -/
def way : History → Nat → List Nat
  | [], _ => []
  | .create parent? :: earlier, i =>
    if i = created earlier then i :: (parent?.map (way earlier)).getD [] else way earlier i
  | .define .. :: earlier, i | .assign .. :: earlier, i | .get .. :: earlier, i => way earlier i

/-- The value that was last defined or assigned in scope `k` for a name.  An assignment goes to the
nearest scope that binds the name at that time. -/
def last : History → Nat → String → Option Value
  | [], _, _ => none
  | .define i other v :: earlier, k, name =>
    if k = i ∧ name = other then some v else last earlier k name
  | .assign i other v :: earlier, k, name =>
    if ((way earlier i).find? fun j => (last earlier j other.lexeme).isSome) = some k ∧
        name = other.lexeme then some v
    else last earlier k name
  | .create _ :: earlier, k, name | .get .. :: earlier, k, name => last earlier k name

/-- The nearest scope from `i` outward that binds a name. -/
def nearest (h : History) (i : Nat) (name : String) : Option Nat :=
  (h.way i).find? fun k => (h.last k name).isSome

/-- The way outward from scope `j` leads to scope `i`, and no scope nearer to `j` binds the name. -/
def Reaches (h : History) (j i : Nat) (name : String) : Prop :=
  ((h.way j).find? fun k => k = i || (h.last k name).isSome) = some i

instance (h : History) (j i : Nat) (name : String) : Decidable (h.Reaches j i name) :=
  inferInstanceAs (Decidable (_ = _))

/-- The operation is about scopes that there are, and no scope lies too deep. -/
def Allows (h : History) : Operation → Prop
  | .create none => True
  | .create (some p) => p < h.created ∧ (h.way p).length < nestingLimit
  | .define i _ _ | .assign i _ _ | .get i _ => i < h.created

/-- Each operation was possible at its time. -/
def Possible : History → Prop
  | [] => True
  | operation :: earlier => Allows earlier operation ∧ Possible earlier

variable {h : History}

theorem length_way_le (hp : h.Possible) (i : Nat) : (h.way i).length ≤ nestingLimit := by
  induction h with
  | nil => exact Nat.zero_le _
  | cons operation earlier ih =>
    have hrest := ih hp.2
    cases operation with
    | define | assign | get => exact hrest
    | create parent? =>
      rw [way]
      split
      · cases parent? with
        | none => simp [nestingLimit]
        | some p => exact hp.1.2
      · exact hrest

end History

/-! ## What the operations change -/

variable {f : Forest} {i j : Nat} {v : Value}

theorem path_create (f : Forest) (parent? : Option Nat) (i : Nat) :
    (f.create parent?).path i =
      if i = f.scopes.size then i :: (parent?.map f.path).getD [] else f.path i := by
  have hscope : (f.create parent?).scopes[i]? =
      if i = f.scopes.size then some { outward := (parent?.map f.path).getD [] }
      else f.scopes[i]? := Array.getElem?_push
  by_cases hi : i = f.scopes.size
  · rw [if_pos hi] at hscope ⊢
    rw [path, hscope]
  · rw [if_neg hi] at hscope ⊢
    rw [path, hscope, path]

/-- A new scope binds nothing. -/
theorem bindings_create (f : Forest) (parent? : Option Nat) (k : Nat) :
    (f.create parent?).bindings k = f.bindings k := by
  unfold bindings create
  rw [Array.getElem?_push]
  split
  next hk =>
    rw [hk, Array.getElem?_eq_none (Nat.le_refl _)]
    rfl
  next => rfl

theorem path_define (f : Forest) (i : Nat) (name : String) (v : Value) (j : Nat) :
    (f.define i name v).path j = f.path j := by
  have hscope : (f.define i name v).scopes[j]? =
      if i = j then f.scopes[j]?.map fun s => { s with bindings := s.bindings.define name v }
      else f.scopes[j]? := Array.getElem?_modify
  rw [path, path, hscope]
  by_cases hj : i = j
  · rw [if_pos hj]
    cases f.scopes[j]? <;> rfl
  · rw [if_neg hj]

theorem bindings_define (hi : i < f.scopes.size) (name : String) (v : Value) (k : Nat) :
    (f.define i name v).bindings k =
      if k = i then (f.bindings i).define name v else f.bindings k := by
  unfold bindings define
  rw [Array.getElem?_modify]
  by_cases hk : k = i
  · subst hk
    rw [if_pos rfl, if_pos rfl, Array.getElem?_eq_getElem hi]
    rfl
  · rw [if_neg hk, if_neg (Ne.symm hk)]

/-! ## Look-ups -/

/-- The value of a name in the nearest scope that binds it. -/
def find? (f : Forest) (i : Nat) (name : String) : Option Value :=
  (f.owner? i name).bind fun k => (f.bindings k).get? name

theorem get?_chain (f : Forest) (i : Nat) (name : String) : (f.chain i).get? name = f.find? i name := by
  unfold chain find? owner?
  induction f.path i with
  | nil => rfl
  | cons k rest ih =>
    rw [List.map_cons, Chain.get?, List.find?_cons, Bindings.binds]
    cases hk : (f.bindings k).get? name with
    | none => exact ih
    | some v => exact hk.symm

/-- What a look-up comes to when there is a value, and when there is none. -/
def result (value? : Option Value) (name : Token) : Except Halt Value :=
  value?.elim (.error (.failure (.undefined name))) .ok

theorem reach_chain_le (hdeep : (f.path i).length ≤ nestingLimit) (name : String) :
    ¬ nestingLimit < (f.chain i).reach name := by
  have hle := (f.chain i).reach_le_length name
  rw [chain, List.length_map] at hle
  unfold chain
  omega

theorem read_eq (hdeep : (f.path i).length ≤ nestingLimit) (name : Token) :
    f.read i name = result (f.find? i name.lexeme) name := by
  rw [read, Chain.read, if_neg (reach_chain_le hdeep _), get?_chain]
  cases f.find? i name.lexeme <;> rfl

/-- An assignment binds the name anew in the nearest scope that binds it. -/
theorem write_eq (hdeep : (f.path i).length ≤ nestingLimit) (name : Token) (v : Value) :
    f.write i name v = (f.owner? i name.lexeme).elim (.error (.failure (.undefined name)))
      fun k => .ok (f.define k name.lexeme v) := by
  rw [write, if_neg (reach_chain_le hdeep _)]
  cases f.owner? i name.lexeme <;> rfl

theorem binds_of_owner?_eq_some {k : Nat} {name : String} (h : f.owner? i name = some k) :
    (f.bindings k).binds name = true :=
  List.find?_some (p := fun j => (f.bindings j).binds name) h

/-- Scopes that bind a name are there. -/
theorem lt_size_of_binds {k : Nat} {name : String} (h : (f.bindings k).binds name = true) :
    k < f.scopes.size := by
  refine Nat.lt_of_not_le fun hk => ?_
  rw [bindings, Array.getElem?_eq_none hk] at h
  cases h

/-! ## Look-ups after a definition -/

/-- The way outward from scope `j` leads to scope `i`, and no scope nearer to `j` binds the name. -/
def Reaches (f : Forest) (j i : Nat) (name : String) : Prop :=
  ((f.path j).find? fun k => k = i || (f.bindings k).binds name) = some i

instance (f : Forest) (j i : Nat) (name : String) : Decidable (f.Reaches j i name) :=
  inferInstanceAs (Decidable (_ = _))

theorem reaches_iff_of_binds {name : String} (hi : (f.bindings i).binds name = true) :
    f.Reaches j i name ↔ f.owner? j name = some i := by
  have hsame : (fun k => decide (k = i) || (f.bindings k).binds name) =
      fun k => (f.bindings k).binds name := by
    funext k
    by_cases hk : k = i
    · rw [hk, hi, Bool.or_true]
    · rw [decide_eq_false hk, Bool.false_or]
  rw [Reaches, hsame, owner?]

/-- If a place is not what is found with it, leaving it out makes no difference. -/
theorem find?_or_eq_of_ne {p : Nat → Bool} {l : List Nat}
    (hne : (l.find? fun k => k = i || p k) ≠ some i) :
    (l.find? fun k => k = i || p k) = l.find? p := by
  induction l with
  | nil => rfl
  | cons k rest ih =>
    by_cases hk : k = i
    · exact absurd (by rw [List.find?_cons, decide_eq_true hk, hk]; rfl) hne
    · rw [List.find?_cons, List.find?_cons] at *
      rw [decide_eq_false hk, Bool.false_or] at *
      cases hp : p k with
      | true => rfl
      | false =>
        rw [hp] at hne
        exact ih hne

theorem get?_bindings_define (hi : i < f.scopes.size) (name other : String) (v : Value) (k : Nat) :
    ((f.define i name v).bindings k).get? other =
      if k = i ∧ other = name then some v else (f.bindings k).get? other := by
  rw [bindings_define hi]
  by_cases hk : k = i
  · subst hk
    simp
  · simp [hk]

theorem owner?_define (hi : i < f.scopes.size) (name other : String) (v : Value) (j : Nat) :
    (f.define i name v).owner? j other =
      if other = name ∧ f.Reaches j i name then some i else f.owner? j other := by
  have hbinds (k : Nat) : ((f.define i name v).bindings k).binds other =
      (decide (k = i ∧ other = name) || (f.bindings k).binds other) := by
    rw [Bindings.binds, get?_bindings_define hi]
    by_cases hk : k = i ∧ other = name
    · rw [if_pos hk, decide_eq_true hk]
      rfl
    · rw [if_neg hk, decide_eq_false hk]
      rfl
  simp only [owner?, path_define, hbinds]
  by_cases hname : other = name
  · subst hname
    simp only [and_true, true_and]
    split
    next hreach => exact hreach
    next hreach => exact find?_or_eq_of_ne hreach
  · simp [hname]

/-- A definition is seen from where the way leads to it, unless a nearer scope binds the name. -/
theorem find?_define (hi : i < f.scopes.size) (name other : String) (v : Value) (j : Nat) :
    (f.define i name v).find? j other =
      if other = name ∧ f.Reaches j i name then some v else f.find? j other := by
  rw [find?, owner?_define hi]
  by_cases hreach : other = name ∧ f.Reaches j i name
  · rw [if_pos hreach, if_pos hreach, Option.bind_some, get?_bindings_define hi,
      if_pos ⟨rfl, hreach.1⟩]
  · rw [if_neg hreach, if_neg hreach, find?]
    cases howner : f.owner? j other with
    | none => rfl
    | some k =>
      have hk : ¬(k = i ∧ other = name) := by
        rintro ⟨rfl, rfl⟩
        exact hreach ⟨rfl, (reaches_iff_of_binds (binds_of_owner?_eq_some howner)).2 howner⟩
      rw [Option.bind_some, Option.bind_some, get?_bindings_define hi, if_neg hk]

/-! ## A forest and its history -/

/-- The forest is as its history says. -/
structure Records (h : History) (f : Forest) : Prop where
  size : f.scopes.size = h.created
  path : ∀ i, f.path i = h.way i
  value : ∀ k name, (f.bindings k).get? name = h.last k name

namespace Records

variable {h : History} (r : Records h f)

theorem empty : Records [] {} where
  size := rfl
  path i := by simp [Forest.path, History.way]
  value k name := by simp [bindings, History.last]

include r

theorem owner?_eq (i : Nat) (name : String) : f.owner? i name = h.nearest i name := by
  simp only [owner?, History.nearest, r.path, Bindings.binds, r.value]

theorem reaches_iff (j i : Nat) (name : String) : f.Reaches j i name ↔ h.Reaches j i name := by
  simp only [Reaches, History.Reaches, r.path, Bindings.binds, r.value]

theorem find?_eq (i : Nat) (name : String) :
    f.find? i name = (h.nearest i name).bind fun k => h.last k name := by
  simp only [find?, r.owner?_eq, r.value]

theorem length_path_le (hp : h.Possible) (i : Nat) : (f.path i).length ≤ nestingLimit := by
  rw [r.path]
  exact History.length_way_le hp i

theorem create (parent? : Option Nat) : Records (.create parent? :: h) (f.create parent?) where
  size := by simp [Forest.create, History.created, r.size]
  path i := by
    have hparent : parent?.map f.path = parent?.map h.way := by rw [funext r.path]
    rw [path_create, r.size, hparent, r.path]
    rfl
  value k name := by
    rw [bindings_create, r.value]
    rfl

theorem define (hi : i < h.created) (name : String) (v : Value) :
    Records (.define i name v :: h) (f.define i name v) where
  size := by simp [Forest.define, History.created, r.size]
  path j := by
    rw [path_define, r.path]
    rfl
  value k other := by
    rw [get?_bindings_define (r.size ▸ hi), r.value]
    rfl

theorem assign {k : Nat} (name : Token) (v : Value) (howner : f.owner? i name.lexeme = some k) :
    Records (.assign i name v :: h) (f.define k name.lexeme v) where
  size := by simp [Forest.define, History.created, r.size]
  path j := by
    rw [path_define, r.path]
    rfl
  value j other := by
    have hk := lt_size_of_binds (binds_of_owner?_eq_some howner)
    rw [r.owner?_eq, History.nearest] at howner
    rw [get?_bindings_define hk, r.value, History.last, howner]
    simp only [Option.some.injEq, eq_comm]

/-- An assignment to a name that no scope binds does nothing. -/
theorem assign_of_none (name : Token) (v : Value) (howner : f.owner? i name.lexeme = none) :
    Records (.assign i name v :: h) f where
  size := r.size
  path := r.path
  value j other := by
    rw [r.owner?_eq, History.nearest] at howner
    rw [r.value, History.last, howner, if_neg fun hk => Option.some_ne_none j hk.1.symm]

/-- Each operation keeps the forest as its history says. -/
theorem perform (hp : h.Possible) {operation : Operation} (ha : h.Allows operation) :
    Records (operation :: h) (f.perform operation).2 := by
  cases operation with
  | create parent? => exact r.create parent?
  | define i name v => exact r.define ha name v
  | get i name => exact ⟨r.size, r.path, r.value⟩
  | assign i name v =>
    rw [Forest.perform, write_eq (r.length_path_le hp i)]
    cases howner : f.owner? i name.lexeme with
    | none => exact r.assign_of_none name v howner
    | some k => exact r.assign name v howner

end Records

theorem records_ofHistory {h : History} (hp : h.Possible) : Records h (ofHistory h) := by
  induction h with
  | nil => exact .empty
  | cons operation earlier ih => exact (ih hp.2).perform hp.2 hp.1

/-! ## The laws of nested scopes -/

/-- The forest behaves as nested scopes with this history. -/
structure Nested (h : History) (f : Forest) : Prop where
  /-- A look-up gives the value last defined or assigned in the nearest scope that binds the name,
  and blames the variable if none does. -/
  read : ∀ i name, f.read i name =
    result ((h.nearest i name.lexeme).bind fun k => h.last k name.lexeme) name
  /-- There is a value wherever a scope is found. -/
  bound : ∀ i name k, h.nearest i name = some k → (h.last k name).isSome
  /-- A definition is seen under its name from where the way leads to its scope with no nearer scope
  that binds the name, and nowhere else. -/
  define : ∀ i < h.created, ∀ name v j other, (f.define i name v).read j other =
    if other.lexeme = name ∧ h.Reaches j i name then .ok v else f.read j other
  /-- A variable can be assigned to if it has a value. -/
  assignable : ∀ i name v,
    (∃ f', f.write i name v = .ok f') ↔ ∃ value, f.read i name = .ok value
  /-- An assignment is seen under its name from where the nearest scope that binds the name is the
  same, and nowhere else. -/
  assign : ∀ i name v f', f.write i name v = .ok f' → ∀ j other, f'.read j other =
    if other.lexeme = name.lexeme ∧ h.nearest j name.lexeme = h.nearest i name.lexeme then .ok v
    else f.read j other
  /-- No scope has another name after an assignment. -/
  names : ∀ i name v f', f.write i name v = .ok f' →
    ∀ k, (f'.bindings k).names = (f.bindings k).names
  /-- Only look-ups and assignments fail, and they blame the variable and leave all as it is. -/
  failed : ∀ operation halt, (f.perform operation).1 = .error halt → (f.perform operation).2 = f ∧
    ∃ i name, halt = .failure (.undefined name) ∧
      (operation = .get i name ∨ ∃ v, operation = .assign i name v)

/-- What is written is a definition in the nearest scope that binds the name. -/
theorem write_eq_ok_iff (hdeep : (f.path i).length ≤ nestingLimit) {name : Token} {f' : Forest} :
    f.write i name v = .ok f' ↔
      ∃ k, f.owner? i name.lexeme = some k ∧ f.define k name.lexeme v = f' := by
  rw [write_eq hdeep]
  cases f.owner? i name.lexeme <;> simp

theorem write_eq_error_iff (hdeep : (f.path i).length ≤ nestingLimit) {name : Token} {halt : Halt} :
    f.write i name v = .error halt ↔
      f.owner? i name.lexeme = none ∧ halt = .failure (.undefined name) := by
  rw [write_eq hdeep]
  cases f.owner? i name.lexeme <;> simp [eq_comm]

theorem read_eq_ok_iff (hdeep : (f.path i).length ≤ nestingLimit) {name : Token} :
    f.read i name = .ok v ↔ f.find? i name.lexeme = some v := by
  rw [read_eq hdeep]
  cases f.find? i name.lexeme <;> simp [result]

theorem read_eq_error_iff (hdeep : (f.path i).length ≤ nestingLimit) {name : Token} {halt : Halt} :
    f.read i name = .error halt ↔
      f.find? i name.lexeme = none ∧ halt = .failure (.undefined name) := by
  rw [read_eq hdeep]
  cases f.find? i name.lexeme <;> simp [result, eq_comm]

theorem isSome_find? (f : Forest) (i : Nat) (name : String) :
    (f.find? i name).isSome = (f.owner? i name).isSome := by
  unfold find?
  cases howner : f.owner? i name with
  | none => rfl
  | some k => exact binds_of_owner?_eq_some howner

theorem read_define (hi : i < f.scopes.size) (hdeep : (f.path j).length ≤ nestingLimit)
    (name : String) (v : Value) (other : Token) : (f.define i name v).read j other =
      if other.lexeme = name ∧ f.Reaches j i name then .ok v else f.read j other := by
  rw [read_eq (by rwa [path_define]), find?_define hi, read_eq hdeep]
  split <;> rfl

namespace Records

variable {h : History} (r : Records h f) (hp : h.Possible)

include r

theorem bound {name : String} {k : Nat} (hk : h.nearest i name = some k) :
    (h.last k name).isSome := by
  rw [← r.owner?_eq] at hk
  rw [← r.value]
  exact binds_of_owner?_eq_some hk

include hp

theorem read_assign {name : Token} {f' : Forest} (hf' : f.write i name v = .ok f') (j : Nat)
    (other : Token) : f'.read j other =
      if other.lexeme = name.lexeme ∧ h.nearest j name.lexeme = h.nearest i name.lexeme then .ok v
      else f.read j other := by
  obtain ⟨k, howner, rfl⟩ := (write_eq_ok_iff (r.length_path_le hp i)).1 hf'
  have hbinds := binds_of_owner?_eq_some howner
  rw [read_define (lt_size_of_binds hbinds) (r.length_path_le hp j), ← r.owner?_eq, ← r.owner?_eq,
    howner]
  simp only [reaches_iff_of_binds hbinds]

theorem names_assign {name : Token} {f' : Forest} (hf' : f.write i name v = .ok f') (k : Nat) :
    (f'.bindings k).names = (f.bindings k).names := by
  obtain ⟨owner, howner, rfl⟩ := (write_eq_ok_iff (r.length_path_le hp i)).1 hf'
  have hbinds := binds_of_owner?_eq_some howner
  rw [bindings_define (lt_size_of_binds hbinds)]
  split
  next hk => rw [hk, Bindings.names_define_of_binds v hbinds]
  next => rfl

theorem assignable (i : Nat) (name : Token) (v : Value) :
    (∃ f', f.write i name v = .ok f') ↔ ∃ value, f.read i name = .ok value := by
  have hdeep := r.length_path_le hp i
  simp only [write_eq_ok_iff hdeep, read_eq_ok_iff hdeep]
  rw [← Option.isSome_iff_exists, isSome_find?, Option.isSome_iff_exists]
  exact ⟨fun ⟨_, k, hk, _⟩ => ⟨k, hk⟩, fun ⟨k, hk⟩ => ⟨_, k, hk, rfl⟩⟩

/-- Only look-ups and assignments fail, and they blame the variable and leave all as it is. -/
theorem of_perform_eq_error {operation : Operation} {halt : Halt}
    (hfail : (f.perform operation).1 = .error halt) : (f.perform operation).2 = f ∧
      ∃ i name, halt = .failure (.undefined name) ∧
        (operation = .get i name ∨ ∃ v, operation = .assign i name v) := by
  cases operation with
  | create parent? => cases hfail
  | define i name v => cases hfail
  | get i name =>
    have hread : f.read i name = .error halt := by
      rw [Forest.perform] at hfail
      cases hread : f.read i name with
      | ok value => rw [hread] at hfail; cases hfail
      | error halt' => rw [hread] at hfail; cases hfail; rfl
    exact ⟨rfl, i, name, ((read_eq_error_iff (r.length_path_le hp i)).1 hread).2, .inl rfl⟩
  | assign i name v =>
    rw [Forest.perform] at hfail ⊢
    cases hwrite : f.write i name v with
    | ok f' => rw [hwrite] at hfail; cases hfail
    | error halt' =>
      rw [hwrite] at hfail
      cases hfail
      exact ⟨rfl, i, name, ((write_eq_error_iff (r.length_path_le hp i)).1 hwrite).2, .inr ⟨v, rfl⟩⟩

end Records

/-- A forest made by operations that were possible at their time behaves as nested scopes with this
history. -/
theorem nested_ofHistory {h : History} (hp : h.Possible) : Nested h (ofHistory h) := by
  have r := records_ofHistory hp
  exact {
    read := fun i name => by rw [read_eq (r.length_path_le hp i), r.find?_eq]
    bound := fun i name k => r.bound
    define := fun i hi name v j other => by
      simp only [read_define (r.size ▸ hi) (r.length_path_le hp j), r.reaches_iff]
    assignable := r.assignable hp
    assign := fun i name v f' => r.read_assign hp
    names := fun i name v f' => r.names_assign hp
    failed := fun operation halt => r.of_perform_eq_error hp }

/-- A name that is bound to nil is hidden from one of two scopes and assigned to from the other. -/
theorem nested_ofHistory_siblings :
    let a : Token := ⟨.identifier, "a", .nil, 1⟩
    let b : Token := ⟨.identifier, "b", .nil, 2⟩
    let h : History := [.assign 2 a (.string "x"), .define 1 "a" (.bool true), .define 0 "a" .nil,
      .create (some 0), .create (some 0), .create none]
    h.Possible ∧ (ofHistory h).read 2 a = .ok (.string "x") ∧
      (ofHistory h).read 1 a = .ok (.bool true) ∧ (ofHistory h).read 0 a = .ok (.string "x") ∧
      (ofHistory h).read 2 b = .error (.failure (.undefined b)) := by
  intro a b h
  have hp : h.Possible := by simp [h, History.Possible, History.Allows, History.created,
    History.way, nestingLimit]
  have hn := nested_ofHistory hp
  exact ⟨hp, hn.read 2 a, hn.read 1 a, hn.read 0 a, hn.read 2 b⟩

end Forest

end Lox
