import Lox.Proofs.Run.Trace

/-!
# Look-ups by the text

The text of a program tells where a variable is declared: in the nearest enclosing block that has
declared it before, and that is `distance?` blocks outward.  While the program runs, the scope of
each block binds just the names that the block has declared so far (`Context.Agrees`).  So a look-up
ends at the scope of that block, or at the globals if there is none (`Context.Agrees.looksUp`).
-/

namespace Lox

/-! ## Owners -/

namespace Chain

variable {c : Chain} {name : String} {hops : Nat}

/-- How far outward the nearest scope is that binds a name. -/
def owner? (c : Chain) (name : String) : Option Nat := c.findIdx? (·.binds name)

/-- The outermost scope. -/
def globals (c : Chain) : Bindings := c.getLastD {}

/-- The value that the scope so far outward has for a name. -/
def getAt? : Chain → Nat → String → Option Value
  | [], _, _ => none
  | b :: _, 0, name => b.get? name
  | _ :: outer, hops + 1, name => getAt? outer hops name

/-- Binds a name anew in the scope so far outward, if it is bound there. -/
def assignAt? : Chain → Nat → String → Value → Option Chain
  | [], _, _, _ => none
  | b :: outer, 0, name, v => if b.binds name then some (b.define name v :: outer) else none
  | b :: outer, hops + 1, name, v => (assignAt? outer hops name v).map (b :: ·)

theorem owner?_cons (b : Bindings) (outer : Chain) (name : String) :
    owner? (b :: outer) name =
      if b.binds name then some 0 else (owner? outer name).map (· + 1) :=
  List.findIdx?_cons

theorem get?_cons (b : Bindings) (outer : Chain) (name : String) :
    get? (b :: outer) name = if b.binds name then b.get? name else get? outer name := by
  rw [get?, Bindings.binds]
  cases b.get? name with
  | none => exact (if_neg Bool.false_ne_true).symm
  | some v => exact (if_pos rfl).symm

theorem get?_eq_none_iff : c.get? name = none ↔ c.owner? name = none := by
  induction c with
  | nil => exact iff_of_true rfl rfl
  | cons b outer ih =>
    rw [get?_cons, owner?_cons]
    by_cases hb : b.binds name = true
    · rw [if_pos hb, if_pos hb]
      obtain ⟨v, hv⟩ := Option.isSome_iff_exists.1 hb
      rw [hv]
      exact iff_of_false (Option.some_ne_none v) (Option.some_ne_none 0)
    · rw [if_neg hb, if_neg hb, ih, Option.map_eq_none_iff]

theorem assign?_eq_none_iff {v : Value} : c.assign? name v = none ↔ c.owner? name = none := by
  rw [← get?_eq_none_iff, ← Option.not_isSome_iff_eq_none, ← Option.not_isSome_iff_eq_none,
    isSome_assign?]

/-- A name that is bound so far outward, or nowhere, has its value from there. -/
theorem get?_eq_getAt? (h : c.owner? name = some hops ∨ c.owner? name = none) :
    c.get? name = c.getAt? hops name := by
  induction c generalizing hops with
  | nil => rfl
  | cons b outer ih =>
    rw [owner?_cons] at h
    rw [get?_cons]
    by_cases hb : b.binds name = true
    · rw [if_pos hb] at h ⊢
      obtain rfl : 0 = hops := by simpa using h
      rfl
    · rw [if_neg hb] at h ⊢
      cases hops with
      | zero =>
        rw [get?_eq_none_iff.2 (by simpa using h)]
        exact (Option.not_isSome_iff_eq_none.1 hb).symm
      | succ hops => exact ih (by simpa using h)

/-- A name that is bound so far outward, or nowhere, is bound anew there. -/
theorem assign?_eq_assignAt? {v : Value} (h : c.owner? name = some hops ∨ c.owner? name = none) :
    c.assign? name v = c.assignAt? hops name v := by
  induction c generalizing hops with
  | nil => rfl
  | cons b outer ih =>
    rw [owner?_cons] at h
    rw [assign?]
    by_cases hb : b.binds name = true
    · rw [if_pos hb] at h ⊢
      obtain rfl : 0 = hops := by simpa using h
      exact (if_pos hb).symm
    · rw [if_neg hb] at h ⊢
      cases hops with
      | zero =>
        rw [assign?_eq_none_iff.2 (by simpa using h)]
        exact (if_neg hb).symm
      | succ hops =>
        rw [ih (by simpa using h)]
        rfl

/-- A variable is undefined just if no scope binds it. -/
theorem read_eq_undefined_iff {levels : Nat} {name : Token} (h : c.reach name.lexeme ≤ levels) :
    c.read levels name = .error (.failure (.undefined name)) ↔ c.owner? name.lexeme = none := by
  rw [← get?_eq_none_iff]
  unfold read
  rw [if_neg (by omega)]
  cases c.get? name.lexeme with
  | none => exact iff_of_true rfl rfl
  | some v => simp

theorem write_eq_undefined_iff {levels : Nat} {name : Token} {v : Value}
    (h : c.reach name.lexeme ≤ levels) :
    c.write levels name v = .error (.failure (.undefined name)) ↔ c.owner? name.lexeme = none := by
  rw [← assign?_eq_none_iff (v := v)]
  unfold write
  rw [if_neg (by omega)]
  cases c.assign? name.lexeme v with
  | none => exact iff_of_true rfl rfl
  | some c' => simp

end Chain

/-! ## Contexts and scopes -/

namespace Context

variable {context : Context} {c : Chain} {name : String}

/-- How many blocks outward the nearest one is that has declared a name. -/
def distance? (context : Context) (name : String) : Option Nat :=
  context.findIdx? (·.contains name)

/-- How many scopes outward a name is looked up: in that of the nearest block that has declared it,
else in the globals. -/
def hops (context : Context) (name : String) : Nat :=
  (context.distance? name).getD context.length

theorem distance?_cons (names : List String) (outer : Context) (name : String) :
    distance? (names :: outer) name =
      if names.contains name then some 0 else (distance? outer name).map (· + 1) :=
  List.findIdx?_cons

/-- Each block has a scope, which binds the names that the block has declared; the globals, which may
bind anything, are outward of them all. -/
def Agrees : Context → Chain → Prop
  | [], c => ∃ globals, c = [globals]
  | _ :: _, [] => False
  | names :: outer, b :: c => (∀ name, b.binds name = names.contains name) ∧ Agrees outer c

namespace Agrees

theorem length_eq (h : context.Agrees c) : c.length = context.length + 1 := by
  induction context generalizing c with
  | nil =>
    obtain ⟨globals, rfl⟩ := h
    rfl
  | cons names outer ih =>
    cases c with
    | nil => exact h.elim
    | cons b c => rw [List.length_cons, List.length_cons, ih h.2]

theorem globals_cons (h : context.Agrees c) (b : Bindings) : Chain.globals (b :: c) = c.globals := by
  cases c with
  | nil => exact absurd h.length_eq (Nat.succ_ne_zero _).symm
  | cons b' c => rfl

/-- The owner of a name is the scope of the nearest block that has declared it, or the globals. -/
theorem owner?_eq (h : context.Agrees c) (name : String) :
    c.owner? name =
      (context.distance? name).or (if c.globals.binds name then some context.length else none) := by
  induction context generalizing c with
  | nil =>
    obtain ⟨globals, rfl⟩ := h
    rfl
  | cons names outer ih =>
    cases c with
    | nil => exact h.elim
    | cons b c =>
      obtain ⟨hb, h⟩ := h
      -- both searches test the innermost block first, and there they agree
      rw [Chain.owner?_cons, distance?_cons, hb, ih h, h.globals_cons]
      by_cases hn : names.contains name = true
      · rw [if_pos hn, if_pos hn]
        rfl
      · rw [if_neg hn, if_neg hn]
        cases distance? outer name with
        | some i => rfl
        | none => cases (Chain.globals c).binds name <;> rfl

theorem owner?_hops (h : context.Agrees c) (name : String) :
    c.owner? name = some (context.hops name) ∨ c.owner? name = none := by
  rw [h.owner?_eq, hops]
  cases context.distance? name with
  | some i => exact Or.inl rfl
  | none =>
    cases c.globals.binds name with
    | true => exact Or.inl rfl
    | false => exact Or.inr rfl

theorem owner?_eq_none_iff (h : context.Agrees c) (name : String) :
    c.owner? name = none ↔ context.distance? name = none ∧ c.globals.binds name = false := by
  rw [h.owner?_eq, Option.or_eq_none_iff]
  cases c.globals.binds name <;> simp

/-! ### What keeps the agreement -/

theorem enter (h : context.Agrees c) : Agrees ([] :: context) ({} :: c) := ⟨fun _ => rfl, h⟩

theorem tail (h : context.Agrees c) (hc : context ≠ []) : Agrees context.tail c.tail := by
  cases context with
  | nil => exact absurd rfl hc
  | cons names outer =>
    cases c with
    | nil => exact h.elim
    | cons b c => exact h.2

theorem define (h : context.Agrees c) (name : Token) (initializer : Option Expr) (v : Value) :
    Agrees (context.after (.declare name initializer)) (c.define name.lexeme v) := by
  cases context with
  | nil =>
    obtain ⟨globals, rfl⟩ := h
    exact ⟨_, rfl⟩
  | cons names outer =>
    cases c with
    | nil => exact h.elim
    | cons b c =>
      refine ⟨fun other => ?_, h.2⟩
      rw [Bindings.binds_define, h.1, List.contains_cons]
      rfl

theorem assign? (h : context.Agrees c) {v : Value} {c' : Chain}
    (hc : c.assign? name v = some c') : context.Agrees c' := by
  induction context generalizing c c' with
  | nil =>
    obtain ⟨globals, rfl⟩ := h
    unfold Chain.assign? at hc
    split at hc
    · exact ⟨_, (Option.some.inj hc).symm⟩
    · cases hc
  | cons names outer ih =>
    cases c with
    | nil => exact h.elim
    | cons b c =>
      unfold Chain.assign? at hc
      split at hc
      next hb =>
        obtain rfl := Option.some.inj hc
        refine ⟨fun other => ?_, h.2⟩
        -- the name is bound already, so the scope binds no more names than before
        rw [Bindings.binds_define, h.1]
        by_cases ho : other = name
        · rw [← h.1, ho, hb, Bool.or_true]
        · rw [decide_eq_false ho, Bool.false_or]
      next =>
        obtain ⟨c'', ho, rfl⟩ := Option.map_eq_some_iff.1 hc
        exact ⟨h.1, ih h.2 ho⟩

end Agrees

end Context

/-! ## Look-ups -/

/-- In these scopes the name is found where the context says: in the scope of the nearest block that
has declared it, or, if no block has, in the globals as far as they bind it.  It has its value from
there, and is bound anew there. -/
structure LooksUp (context : Context) (name : String) (c : Chain) : Prop where
  agrees : context.Agrees c
  declared : ∀ i, context.distance? name = some i → c.owner? name = some i
  undeclared : context.distance? name = none →
    c.owner? name = if c.globals.binds name then some context.length else none
  get?_eq : c.get? name = c.getAt? (context.hops name) name
  assign?_eq : ∀ v, c.assign? name v = c.assignAt? (context.hops name) name v

/-- A variable is looked up where the context says.  With levels enough to get there it is undefined
just if no block has declared it and the globals do not bind it. -/
def Event.Lexical : Event → Prop
  | read context name c =>
    LooksUp context name.lexeme c ∧ ∀ levels, c.reach name.lexeme ≤ levels →
      (c.read levels name = .error (.failure (.undefined name)) ↔
        context.distance? name.lexeme = none ∧ c.globals.binds name.lexeme = false)
  | assign context name v c =>
    LooksUp context name.lexeme c ∧ ∀ levels, c.reach name.lexeme ≤ levels →
      (c.write levels name v = .error (.failure (.undefined name)) ↔
        context.distance? name.lexeme = none ∧ c.globals.binds name.lexeme = false)
  | _ => True

namespace Context.Agrees

variable {context : Context} {c : Chain}

theorem looksUp (h : context.Agrees c) (name : String) : LooksUp context name c where
  agrees := h
  declared i hi := by rw [h.owner?_eq, hi, Option.some_or]
  undeclared hn := by rw [h.owner?_eq, hn, Option.none_or]
  get?_eq := Chain.get?_eq_getAt? (h.owner?_hops name)
  assign?_eq _ := Chain.assign?_eq_assignAt? (h.owner?_hops name)

theorem lexical_read (h : context.Agrees c) (name : Token) : (Event.read context name c).Lexical :=
  ⟨h.looksUp name.lexeme, fun _ hl => (Chain.read_eq_undefined_iff hl).trans
    (h.owner?_eq_none_iff name.lexeme)⟩

theorem lexical_assign (h : context.Agrees c) (name : Token) (v : Value) :
    (Event.assign context name v c).Lexical :=
  ⟨h.looksUp name.lexeme, fun _ hl => (Chain.write_eq_undefined_iff hl).trans
    (h.owner?_eq_none_iff name.lexeme)⟩

end Context.Agrees

/-! ## Occurrences -/

/-- A place in a program where a variable is read or assigned to: its context and the name. -/
abbrev Occurrence := Context × Token

/-- Where variables occur in an expression. -/
def Expr.occurrences (context : Context) : Expr → List Occurrence
  | grouping e | unary _ e => e.occurrences context
  | reference name => [(context, name)]
  | assign name e => e.occurrences context ++ [(context, name)]
  | binary a _ b | logical a _ b => a.occurrences context ++ b.occurrences context
  | literal _ | misfit _ => []

mutual

/-- Where variables occur in a statement. -/
def Stmt.occurrences (context : Context) : Stmt → List Occurrence
  | expression e | print e | declare _ (some e) => e.occurrences context
  | declare _ none | misfit _ => []
  | block body => Stmt.occurrencesAll ([] :: context) body
  | ifThen condition thenBranch =>
    condition.occurrences context ++ thenBranch.occurrences context
  | ifElse condition thenBranch elseBranch =>
    condition.occurrences context ++
      (thenBranch.occurrences context ++ elseBranch.occurrences context)
  | loop condition body => condition.occurrences context ++ body.occurrences context

/-- Where variables occur in statements, each in the context that those before it leave. -/
def Stmt.occurrencesAll (context : Context) : List Stmt → List Occurrence
  | [] => []
  | s :: ss => s.occurrences context ++ Stmt.occurrencesAll (context.after s) ss

end

/-- What the event reads or assigns to occurs at one of these places. -/
def Event.OccursIn (places : List Occurrence) : Event → Prop
  | read context name _ | assign context name _ _ => (context, name) ∈ places
  | _ => True

theorem Event.OccursIn.mono {places places' : List Occurrence} {event : Event}
    (h : event.OccursIn places) (hp : places ⊆ places') : event.OccursIn places' := by
  cases event with
  | read | assign => exact hp h
  | _ => exact trivial

/-- An evaluation reads and assigns to variables that occur in the expression. -/
theorem Expr.occursIn_of_mem_trace (context : Context) (n : Nat) (e : Expr) (c : Chain) :
    ∀ event ∈ e.trace context n c, event.OccursIn (e.occurrences context) := by
  induction n generalizing e c with
  | zero => exact fun _ h => absurd h List.not_mem_nil
  | succ n ih =>
    cases e with
    | literal | misfit => exact fun _ h => absurd h List.not_mem_nil
    | grouping e => exact ih e c
    | unary operator e => exact ih e c
    | reference name =>
      intro event h
      unfold trace at h
      split at h
      · exact absurd h List.not_mem_nil
      · rw [List.mem_singleton.1 h]
        exact List.mem_singleton_self _
    | assign name e =>
      refine forall_mem_followed (fun event h => (ih e c event h).mono
        (List.subset_append_left _ _)) fun v c' _ event h => ?_
      split at h
      · exact absurd h List.not_mem_nil
      · rw [List.mem_singleton.1 h]
        exact List.mem_append_right _ (List.mem_singleton_self _)
    | binary a operator b =>
      exact forall_mem_followed
        (fun event h => (ih a c event h).mono (List.subset_append_left _ _))
        fun _ c' _ event h => (ih b c' event h).mono (List.subset_append_right _ _)
    | logical a operator b =>
      refine forall_mem_followed
        (fun event h => (ih a c event h).mono (List.subset_append_left _ _))
        fun v c' _ event h => ?_
      split at h
      · exact absurd h List.not_mem_nil
      · exact (ih b c' event h).mono (List.subset_append_right _ _)

theorem occursIn_of_mem_traceInOrder {run : Stmt → Execution Unit}
    {trace : Context → Stmt → Machine → List Event}
    (h : ∀ context s m, ∀ event ∈ trace context s m, event.OccursIn (s.occurrences context))
    (context : Context) (ss : List Stmt) (m : Machine) :
    ∀ event ∈ traceInOrder run trace context ss m,
      event.OccursIn (Stmt.occurrencesAll context ss) := by
  induction ss generalizing context m with
  | nil => exact fun _ h => absurd h List.not_mem_nil
  | cons s ss ih =>
    exact forall_mem_followed
      (fun event he => (h context s m event he).mono (List.subset_append_left _ _))
      fun _ m' _ event he => (ih (context.after s) m' event he).mono
        (List.subset_append_right _ _)

theorem occursIn_of_mem_traceWhile {condition : Execution Bool} {body : Execution Unit}
    {traceCondition traceBody : Machine → List Event} {places : List Occurrence}
    (hc : ∀ m, ∀ event ∈ traceCondition m, event.OccursIn places)
    (hb : ∀ m, ∀ event ∈ traceBody m, event.OccursIn places) (rounds : Nat) (m : Machine) :
    ∀ event ∈ traceWhile condition body traceCondition traceBody rounds m,
      event.OccursIn places := by
  induction rounds generalizing m with
  | zero => exact fun _ h => absurd h List.not_mem_nil
  | succ rounds ih =>
    refine forall_mem_followed (hc m) fun holds m' _ => ?_
    cases holds with
    | false => exact fun _ h => absurd h List.not_mem_nil
    | true => exact forall_mem_followed (hb m') fun _ m'' _ => ih m''

/-- A statement reads and assigns to variables that occur in it. -/
theorem Stmt.occursIn_of_mem_trace (rounds n : Nat) (context : Context) (s : Stmt) (m : Machine) :
    ∀ event ∈ s.trace rounds n context m, event.OccursIn (s.occurrences context) := by
  have single {event : Event} {places : List Occurrence} (h : event.OccursIn places) :
      ∀ event' ∈ [event], event'.OccursIn places := by
    intro event' h'
    rwa [List.mem_singleton.1 h']
  induction n using Nat.strongRecOn generalizing context s m with
  | ind n ih =>
    match n, s with
    | 0, _ => exact fun _ h => absurd h List.not_mem_nil
    | n + 1, .expression e => exact e.occursIn_of_mem_trace context n m.scopes
    | n + 1, .print e =>
      exact forall_mem_followed (e.occursIn_of_mem_trace context n m.scopes)
        fun _ _ _ => single trivial
    | n + 1, .declare _ none => exact single trivial
    | n + 1, .declare _ (some e) =>
      exact forall_mem_followed (e.occursIn_of_mem_trace context n m.scopes)
        fun _ _ _ => single trivial
    | 1, .block _ => exact fun _ h => absurd h List.not_mem_nil
    | n + 2, .block body =>
      intro event h
      rcases List.mem_append.1 h with h | h
      · rcases List.mem_cons.1 h with rfl | h
        · exact trivial
        · exact occursIn_of_mem_traceInOrder (ih n (by omega)) ([] :: context) body _ event h
      · rw [List.mem_singleton.1 h]
        exact trivial
    | n + 1, .ifThen condition thenBranch =>
      refine forall_mem_followed (fun event h =>
        (condition.occursIn_of_mem_trace context n m.scopes event h).mono
          (List.subset_append_left _ _)) fun holds m' _ event h => ?_
      cases holds with
      | false => exact absurd h List.not_mem_nil
      | true =>
        exact (ih n (by omega) context thenBranch m' event h).mono (List.subset_append_right _ _)
    | n + 1, .ifElse condition thenBranch elseBranch =>
      refine forall_mem_followed (fun event h =>
        (condition.occursIn_of_mem_trace context n m.scopes event h).mono
          (List.subset_append_left _ _)) fun holds m' _ event h => ?_
      cases holds with
      | false =>
        exact (ih n (by omega) context elseBranch m' event h).mono
          (List.subset_append_of_subset_right _ (List.subset_append_right _ _))
      | true =>
        exact (ih n (by omega) context thenBranch m' event h).mono
          (List.subset_append_of_subset_right _ (List.subset_append_left _ _))
    | n + 1, .loop condition body =>
      refine occursIn_of_mem_traceWhile (fun m event h => ?_) (fun m event h => ?_) rounds m
      · exact (condition.occursIn_of_mem_trace context n m.scopes event h).mono
          (List.subset_append_left _ _)
      · exact (ih n (by omega) context body m event h).mono (List.subset_append_right _ _)
    | n + 1, .misfit _ => exact fun _ h => absurd h List.not_mem_nil

/-- A program reads and assigns to variables that occur in it. -/
theorem occursIn_of_mem_trace (rounds : Nat) (program : List Stmt) (m : Machine) :
    ∀ event ∈ trace rounds program m, event.OccursIn (Stmt.occurrencesAll [] program) :=
  occursIn_of_mem_traceInOrder (Stmt.occursIn_of_mem_trace rounds nestingLimit) [] program m

end Lox
