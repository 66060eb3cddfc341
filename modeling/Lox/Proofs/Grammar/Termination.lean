import Lox.Grammar.Cursor
import Lox.Proofs.Grammar.Uniform

/-!
# Reading comes to an end

Sequences and chains have rounds enough, so no bound ever cuts them short (`gather_eq_of_length_le`,
`chain_eq_of_length_le`).  Every routine of the grammar only goes forward and never over an end
(`Routine.orderly`), and reading a program leads to the first end there is, or runs out of tokens if
there is none (`parse_terminates`).
-/

namespace Lox.Grammar

open Computing

variable {α : Type} {s s' : Reading}

/-! ## Rounds -/

section Gather

variable {closes : Kind → Bool} {item : Rule (Option Stmt)}

theorem gather_of_nil (hs : s.ahead = []) (bound : List Token) :
    gather closes item bound s = .error .ranOut s := by
  cases bound with
  | nil => rfl
  | cons _ bound =>
    unfold gather
    rw [bind_of_error (peek_eq_error.2 ⟨rfl, rfl, hs⟩)]

/-- More rounds than there are tokens ahead make no difference. -/
theorem gather_eq_of_length_le (hc : closes .eof = true) (hp : Progresses item)
    (bound bound' : List Token) (s : Reading) (hb : s.ahead.length ≤ bound.length)
    (hb' : s.ahead.length ≤ bound'.length) :
    gather closes item bound s = gather closes item bound' s := by
  induction bound generalizing bound' s with
  | nil =>
    have hs : s.ahead = [] := List.length_eq_zero_iff.1 (Nat.le_zero.1 hb)
    rw [gather_of_nil hs, gather_of_nil hs]
  | cons _ bound ih =>
    cases bound' with
    | nil =>
      have hs : s.ahead = [] := List.length_eq_zero_iff.1 (Nat.le_zero.1 hb')
      rw [gather_of_nil hs, gather_of_nil hs]
    | cons _ bound' =>
      unfold gather
      refine bind_congr_ok fun t s₁ ht => ?_
      obtain ⟨rfl, r, hs⟩ := peek_eq_ok.1 ht
      split
      · rfl
      next hne =>
        have heof : t.kind ≠ .eof := fun hk => hne (hk ▸ hc)
        refine bind_congr_ok fun o s₁ ho => ?_
        rw [bind_congr_state
          (ih bound' s₁ (hp.length_le hs heof ho hb) (hp.length_le hs heof ho hb'))]

/-- A sequence ends before a token that closes it. -/
theorem closes_of_gather {ss : List Stmt} (bound : List Token) (s : Reading)
    (h : gather closes item bound s = .ok ss s') :
    ∃ t r, s'.ahead = t :: r ∧ closes t.kind = true := by
  induction bound generalizing s ss with
  | nil => exact absurd h throw_ne_ok
  | cons _ bound ih =>
    unfold gather at h
    obtain ⟨t, s₁, ht, h⟩ := bind_eq_ok.1 h
    obtain ⟨rfl, r, hs⟩ := peek_eq_ok.1 ht
    split at h
    next hk =>
      obtain ⟨-, rfl⟩ := pure_eq_ok.1 h
      exact ⟨t, r, hs, hk⟩
    next =>
      obtain ⟨o, s₁, -, h⟩ := bind_eq_ok.1 h
      obtain ⟨stmts, s₂, hrest, h⟩ := bind_eq_ok.1 h
      obtain ⟨-, rfl⟩ := pure_eq_ok.1 h
      exact ih _ hrest

end Gather

section Chain

variable {operators : List Kind} {join : Expr → Token → Expr → Expr} {operand : Rule Expr}

theorem chain_of_nil (hs : s.ahead = []) (bound : List Token) (left : Expr) :
    chain operators join operand bound left s = .error .ranOut s := by
  cases bound with
  | nil => rfl
  | cons _ bound =>
    unfold chain
    rw [bind_of_error (accept_eq_error.2 ⟨rfl, rfl, hs⟩)]

/-- More rounds than there are tokens ahead make no difference. -/
theorem chain_eq_of_length_le (h : Orderly operand) (bound bound' : List Token) (left : Expr)
    (s : Reading) (hb : s.ahead.length ≤ bound.length) (hb' : s.ahead.length ≤ bound'.length) :
    chain operators join operand bound left s = chain operators join operand bound' left s := by
  induction bound generalizing bound' left s with
  | nil =>
    have hs : s.ahead = [] := List.length_eq_zero_iff.1 (Nat.le_zero.1 hb)
    rw [chain_of_nil hs, chain_of_nil hs]
  | cons _ bound ih =>
    cases bound' with
    | nil =>
      have hs : s.ahead = [] := List.length_eq_zero_iff.1 (Nat.le_zero.1 hb')
      rw [chain_of_nil hs, chain_of_nil hs]
    | cons _ bound' =>
      unfold chain
      refine bind_congr_ok fun o s₁ ho => ?_
      cases o with
      | none => rfl
      | some operator =>
        refine bind_congr_ok fun right s₂ hr => ?_
        exact ih bound' _ s₂ (length_le_of_operand h ho hr hb) (length_le_of_operand h ho hr hb')

end Chain

/-! ## Routines -/

/-- The routines that read a program and the steps they are made of, by what they give. -/
inductive Routine : Type → Type
  | program : Routine (List Stmt)
  | declaration : Routine (Option Stmt)
  | variableRest : Routine Stmt
  | statement : Routine Stmt
  | printRest : Routine Stmt
  | effect : Routine Stmt
  | ifRest : Routine Stmt
  | whileRest : Routine Stmt
  | forRest : Routine Stmt
  | blockRest : Routine (List Stmt)
  | initializer : Routine (Option Stmt)
  | optional (closing : Kind) : Routine (Option Expr)
  | tier (tier : Tier) : Routine Expr
  | peek : Routine Token
  | isNext (kinds : List Kind) : Routine Bool
  | accept (kinds : List Kind) : Routine (Option Token)
  | consume (kind : Kind) (fault : Fault) : Routine Token
  | fail (fault : Fault) : Routine Token
  | report (t : Token) (fault : Fault) : Routine Unit
  | synchronize : Routine Unit

namespace Routine

/-- The rule of a routine with so many levels of nesting left. -/
def rule (n : Nat) : Routine α → Rule α
  | program => readProgram n
  | declaration => readDeclaration n
  | variableRest => readVariable n
  | statement => readStatement n
  | printRest => readPrint n
  | effect => readEffect n
  | ifRest => readIf n
  | whileRest => readWhile n
  | forRest => readFor n
  | blockRest => readBlock n
  | initializer => readInitializer n
  | optional closing => readOptional closing n
  | tier t => readTier n t
  | peek => Grammar.peek
  | isNext kinds => Grammar.isNext kinds
  | accept kinds => Grammar.accept kinds
  | consume kind fault => Grammar.consume n kind fault
  | fail fault => Grammar.fail n fault
  | report t fault => Grammar.report n t fault
  | synchronize => Grammar.synchronize

/-- Every routine goes forward and never over an end, and its stop explains itself. -/
theorem orderly (n : Nat) (routine : Routine α) : Orderly (routine.rule n) := by
  have h := OrderlyStatements.all n
  cases routine with
  | program => exact orderly_readProgram n
  | declaration => exact h.declaration
  | variableRest => exact orderly_readVariable n
  | statement => exact h.statement
  | printRest => exact orderly_readPrint n
  | effect => exact orderly_readEffect n
  | ifRest => exact h.conditional
  | whileRest => exact h.whileLoop
  | forRest => exact h.forLoop
  | blockRest => exact h.block
  | initializer => exact orderly_readInitializer n
  | optional closing => exact orderly_readOptional closing n
  | tier t => exact orderly_readTier n t
  | peek => exact orderly_peek
  | isNext kinds => exact orderly_isNext
  | accept kinds => exact orderly_accept
  | consume kind fault =>
    refine orderly_accept.bind fun o => ?_
    cases o with
    | none => exact orderly_failBelow fault
    | some t => exact orderly_pure t
  | fail fault => exact orderly_fail fault
  | report t fault => exact orderly_report t fault
  | synchronize => exact orderly_synchronize

end Routine

/-- Moving a cursor over a token goes forward and never over an end. -/
theorem Cursor.leads_advance (c : Cursor) : c.reading.Leads c.advance.2.reading := by
  unfold advance
  split
  · exact .refl _
  next t r hs =>
    by_cases ht : t.kind = .eof
    · rw [if_pos ht]
      exact .refl _
    · rw [if_neg ht]
      exact .of_read hs ht rfl

/-! ## Programs -/

/-- A program ends before the first end. -/
theorem exists_eof_of_readProgram {n : Nat} {program : List Stmt}
    (h : readProgram n s = .ok program s') :
    ∃ w e r, s.ahead = w ++ e :: r ∧ s'.ahead = e :: r ∧ (∀ t ∈ w, t.kind ≠ .eof) ∧
      e.kind = .eof := by
  obtain ⟨⟨w, hw, hne⟩, -⟩ := (orderly_readProgram n s).ok h
  obtain ⟨here, s₁, hg, hrest⟩ := bind_eq_ok.1 h
  obtain ⟨rfl, rfl⟩ := get_eq_ok.1 hg
  obtain ⟨e, r, hs', he⟩ := closes_of_gather _ _ hrest
  rw [hs'] at hw
  exact ⟨w, e, r, hw, hs', hne, by simpa using he⟩

end Lox.Grammar

namespace Lox

open Grammar

theorem exists_eof_closed_iff {tokens : List Token} :
    (∃ t ∈ closed tokens, t.kind = .eof) ↔ tokens = [] ∨ ∃ t ∈ tokens, t.kind = .eof := by
  cases tokens with
  | nil => exact ⟨fun _ => Or.inl rfl, fun _ => ⟨Token.eof 1, by simp [closed], rfl⟩⟩
  | cons t r =>
    rw [closed_of_mem List.mem_cons_self]
    exact ⟨Or.inr, fun h => h.resolve_left (List.cons_ne_nil t r)⟩

/-- How reading these tokens comes to an end. -/
structure Terminates (tokens : List Token) : Prop where
  /-- No bound on the rounds cuts a sequence of declarations short. -/
  sequence : ∀ closes n bound s, closes .eof = true → s.ahead.length ≤ bound.length →
    gather closes (readDeclaration n) bound s = gather closes (readDeclaration n) s.ahead s
  /-- No bound on the rounds cuts a chain of operands short. -/
  operands : ∀ operators join n tier bound left s, s.ahead.length ≤ bound.length →
    chain operators join (readTier n tier) bound left s =
      chain operators join (readTier n tier) s.ahead left s
  /-- There is a program just if there are no tokens or an end among them. -/
  returns_iff : (parse tokens).program?.isSome ↔ tokens = [] ∨ ∃ t ∈ tokens, t.kind = .eof
  /-- If there is none, reading has run out of tokens. -/
  ranOut : (parse tokens).program? = none ↔
    ∃ s, readProgram nestingLimit ⟨closed tokens, []⟩ = .error .ranOut s
  /-- No other stop comes out, neither at a fault nor at the limit on nesting. -/
  stop : ∀ stop s, readProgram nestingLimit ⟨closed tokens, []⟩ = .error stop s → stop = .ranOut
  /-- Whatever is called and wherever, it goes forward and never over an end. -/
  forward : ∀ {α : Type} (routine : Routine α) n s, OrderlyAt (routine.rule n) s
  /-- So does a cursor that moves over a token. -/
  advance : ∀ c : Cursor, c.reading.Leads c.advance.2.reading
  /-- A declaration that is not called at an end and returns takes a token. -/
  progress : ∀ n, Progresses (readDeclaration n)
  /-- On return the first end is ahead. -/
  firstEnd : ∀ program s, readProgram nestingLimit ⟨closed tokens, []⟩ = .ok program s →
    ∃ w e r, closed tokens = w ++ e :: r ∧ s.ahead = e :: r ∧ (∀ t ∈ w, t.kind ≠ .eof) ∧
      e.kind = .eof
  /-- The tokens behind an end do not matter. -/
  behindEnd : ∀ w e r, tokens = w ++ e :: r → e.kind = .eof → parse tokens = parse (w ++ [e])

/-- Reading comes to an end on all tokens. -/
theorem parse_terminates (tokens : List Token) : Terminates tokens where
  sequence closes n bound s hc hb :=
    gather_eq_of_length_le hc (OrderlyStatements.all n).progresses bound s.ahead s hb (Nat.le_refl _)
  operands operators join n tier bound left s hb :=
    chain_eq_of_length_le (orderly_readTier n tier) bound s.ahead left s hb (Nat.le_refl _)
  returns_iff := by
    rw [← exists_eof_closed_iff]
    unfold parse
    cases hr : readProgram nestingLimit ⟨closed tokens, []⟩ with
    | ok program s =>
      obtain ⟨w, e, r, hw, -, -, he⟩ := exists_eof_of_readProgram hr
      have hw : closed tokens = w ++ e :: r := hw
      exact ⟨fun _ => ⟨e, by rw [hw]; exact List.mem_append_right w List.mem_cons_self, he⟩,
        fun _ => rfl⟩
    | error stop s =>
      obtain rfl := readProgram_eq_error (by decide) hr
      exact ⟨fun h => absurd h Bool.false_ne_true,
        fun h => absurd h ((orderly_readProgram nestingLimit _).error hr).2⟩
  ranOut := by
    unfold parse
    cases hr : readProgram nestingLimit ⟨closed tokens, []⟩ with
    | ok program s => simp
    | error stop s =>
      obtain rfl := readProgram_eq_error (by decide) hr
      exact ⟨fun _ => ⟨s, rfl⟩, fun _ => rfl⟩
  stop _ _ h := readProgram_eq_error (by decide) h
  forward routine n s := routine.orderly n s
  advance c := c.leads_advance
  progress n := (OrderlyStatements.all n).progresses
  firstEnd _ _ h := exists_eof_of_readProgram h
  behindEnd _ _ _ h he := h ▸ parse_append_eof he

end Lox
