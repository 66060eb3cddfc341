import Lox.Proofs.Grammar.Order

/-!
# Rules take tokens

The rules for statements are orderly as well, and take a token whenever they end well
(`OrderlyStatements`); recovery takes one unless it stands at an end.  So the rounds that a sequence
of declarations is given are enough, and tokens with an end among them always give a program
(`isSome_parse`).
-/

namespace Lox.Grammar

open Computing

variable {α β : Type} {s s' s'' : Reading} {t : Token} {r : List Token} {kinds : List Kind}
  {stop : Stop}

/-! ## Rules that take tokens -/

/-- Whenever the rule ends well, fewer tokens are ahead. -/
def Takes (rule : Rule α) : Prop :=
  ∀ s a s', rule s = .ok a s' → s'.ahead.length < s.ahead.length

theorem takes_skip : Takes skip := by
  intro s u s' h
  obtain ⟨t, hs, -⟩ := skip_eq_ok.1 h
  simp [hs]

theorem takes_expect {n : Nat} (e : Expectation) : Takes (expect n e) := by
  intro s t s' h
  simp [(expect_eq_ok.1 h).1]

theorem Takes.bind_left {rule : Rule α} {next : α → Rule β} (h : Takes rule)
    (hn : ∀ a, Orderly (next a)) : Takes (rule >>= next) := by
  intro s b s'' hb
  obtain ⟨a, s', ha, hb⟩ := bind_eq_ok.1 hb
  exact Nat.lt_of_le_of_lt ((hn a s').ok hb).length_le (h s a s' ha)

theorem Takes.bind_right {rule : Rule α} {next : α → Rule β} (h : Orderly rule)
    (hn : ∀ a, Takes (next a)) : Takes (rule >>= next) := by
  intro s b s'' hb
  obtain ⟨a, s', ha, hb⟩ := bind_eq_ok.1 hb
  exact Nat.lt_of_lt_of_le (hn a s' b s'' hb) ((h s).ok ha).length_le

theorem takes_throw (stop : Stop) : Takes (throw stop : Rule α) :=
  fun _ _ _ h => absurd h throw_ne_ok

theorem takes_readVariable (n : Nat) : Takes (readVariable n) := by
  cases n with
  | zero => exact takes_throw _
  | succ n =>
    unfold readVariable
    refine (takes_expect _).bind_left fun name => orderly_accept.bind fun o => ?_
    cases o with
    | none => exact (orderly_pure _).bind fun _ => (orderly_expect _).bind fun _ => orderly_pure _
    | some equal =>
      exact ((orderly_readExpression n).map some).bind fun _ =>
        (orderly_expect _).bind fun _ => orderly_pure _

theorem takes_readEffect (n : Nat) : Takes (readEffect n) := by
  cases n with
  | zero => exact takes_throw _
  | succ n =>
    exact .bind_right (orderly_readExpression n) fun e =>
      (takes_expect _).bind_left fun _ => orderly_pure _

/-! ## Recovery -/

/-- Recovery drops no end. -/
theorem exists_append_dropToBoundary (last : Token) (ts : List Token) :
    ∃ w, ts = w ++ dropToBoundary last ts ∧ ∀ t ∈ w, t.kind ≠ .eof := by
  induction ts generalizing last with
  | nil => exact ⟨[], rfl, by simp⟩
  | cons t r ih =>
    unfold dropToBoundary
    split
    · exact ⟨[], rfl, by simp⟩
    next h =>
      obtain ⟨w, hw, hne⟩ := ih t
      refine ⟨t :: w, congrArg (t :: ·) hw, ?_⟩
      intro u hu
      rcases List.mem_cons.1 hu with rfl | hu
      · exact fun hk => h (Or.inl hk)
      · exact hne u hu

theorem leads_afterFault (s : Reading) : s.Leads { s with ahead := afterFault s.ahead } := by
  obtain ⟨ahead, reports⟩ := s
  refine ⟨?_, List.prefix_rfl⟩
  cases ahead with
  | nil => exact ⟨[], rfl, by simp⟩
  | cons t r =>
    simp only [afterFault]
    split
    · exact ⟨[], rfl, by simp⟩
    next h =>
      obtain ⟨w, hw, hne⟩ := exists_append_dropToBoundary t r
      refine ⟨t :: w, congrArg (t :: ·) hw, ?_⟩
      intro u hu
      rcases List.mem_cons.1 hu with rfl | hu
      · exact h
      · exact hne u hu

theorem orderly_synchronize : Orderly synchronize := by
  intro s
  have hl := leads_afterFault s
  constructor
  · intro u s' h
    obtain ⟨-, rfl⟩ := synchronize_eq_ok.1 h
    exact hl
  · intro stop s' h
    obtain ⟨rfl, hnil, rfl⟩ := synchronize_eq_error.1 h
    rw [hnil] at hl
    exact ⟨hl, fun hs => not_hasEnd_of_nil rfl (hl.hasEnd hs)⟩

section Recover

variable {n : Nat} {rule : Rule Stmt} {stmt : Stmt} {fault : Fault} {o : Option Stmt}

/-- What is done in a place reached in order is in order. -/
theorem OrderlyAt.of_leads {first next : Rule α} (hl : s.Leads s') (h : OrderlyAt next s')
    (he : first s = next s') : OrderlyAt first s := by
  constructor
  · intro a s'' ha
    exact hl.trans (h.ok (he.symm.trans ha))
  · intro stop s'' ha
    obtain ⟨hl', hs⟩ := h.error (he.symm.trans ha)
    exact ⟨hl.trans hl', hs.of_leads hl⟩

theorem orderly_resume : Orderly (do synchronize; return none : Rule (Option Stmt)) :=
  orderly_synchronize.bind fun _ => orderly_pure none

/-- Behind a report of nesting too deep reading goes on in order. -/
theorem orderly_resumeDeep :
    Orderly (do report n (← peek) .tooDeep; synchronize; return none : Rule (Option Stmt)) :=
  orderly_peek.bind fun t => (orderly_report t _).bind fun _ => orderly_resume

theorem orderly_recover (h : Orderly rule) : Orderly (recover n rule) := by
  intro s
  cases hr : rule s with
  | ok stmt s' => exact .of_leads ((h s).ok hr) (orderly_pure _ s') (recover_of_ok hr)
  | error stop s' =>
    obtain ⟨hl, hs⟩ := (h s).error hr
    cases stop with
    | fault f => exact .of_leads hl (orderly_resume s') (recover_of_fault hr)
    | tooDeep => exact .of_leads hl (orderly_resumeDeep s') (recover_of_tooDeep hr)
    | ranOut =>
      have he := recover_of_ranOut (n := n) hr
      constructor
      · intro o s'' ho
        rw [he] at ho
        cases ho
      · intro stop s'' ho
        rw [he] at ho
        obtain ⟨rfl, rfl⟩ := EStateM.Result.error.inj ho
        exact ⟨hl, hs⟩

/-- Without a level to write on, recovery needs a rule that does not meet the limit. -/
theorem recover_zero_eq_ok (h : recover 0 rule s = .ok o s') :
    (∃ stmt, rule s = .ok stmt s') ∨ ∃ fault s₁, rule s = .error (.fault fault) s₁ := by
  rcases recover_eq_ok h with ⟨stmt, -, hr⟩ | ⟨-, stop, s₁, _, _, hr, hstop, hn, -, -⟩
  · exact Or.inl ⟨stmt, hr⟩
  · cases stop with
    | fault fault => exact Or.inr ⟨fault, s₁, hr⟩
    | ranOut => exact absurd rfl hstop
    | tooDeep => exact absurd rfl (hn rfl)

/-- Recovery takes a token unless it stands at an end. -/
theorem recover_takes (ho : Orderly rule) (ht : Takes rule) (hs : s.ahead = t :: r)
    (heof : t.kind ≠ .eof) (h : recover n rule s = .ok o s') : s'.ahead.length < s.ahead.length := by
  rcases recover_eq_ok h with ⟨stmt, -, hr⟩ | ⟨-, stop, s₁, u, r', hr, -, -, hs₁, rfl⟩
  · exact ht _ _ _ hr
  obtain ⟨⟨w, hw, -⟩, -⟩ := ((ho s).error hr).1
  have hle := congrArg List.length hw
  rw [List.length_append] at hle
  show (afterFault s₁.ahead).length < _
  rw [hs₁] at hw hle ⊢
  by_cases hu : u.kind = .eof
  · have hpos : w ≠ [] := by
      rintro rfl
      rw [hs] at hw
      exact heof ((List.cons.inj hw).1 ▸ hu)
    have := List.length_pos_iff.2 hpos
    simp only [afterFault, hu, if_true]
    omega
  · have := length_afterFault_lt (r := r') hu
    omega

end Recover

/-! ## Sequences of declarations -/

/-- Away from an end the rule takes tokens whenever it ends well. -/
def Progresses (item : Rule (Option Stmt)) : Prop :=
  ∀ s t r o s', s.ahead = t :: r → t.kind ≠ .eof → item s = .ok o s' →
    s'.ahead.length < s.ahead.length

section Gather

variable {closes : Kind → Bool} {item : Rule (Option Stmt)}

/-- Gathering is orderly if its rounds are enough for the tokens ahead. -/
theorem orderlyAt_gather (hc : closes .eof = true) (h : Orderly item) (hp : Progresses item)
    (bound : List Token) (s : Reading) (hb : s.ahead.length ≤ bound.length) :
    OrderlyAt (gather closes item bound) s := by
  induction bound generalizing s with
  | nil =>
    have hs : s.ahead = [] := List.length_eq_zero_iff.1 (Nat.le_zero.1 hb)
    refine ⟨fun h => absurd h throw_ne_ok, fun h => ?_⟩
    obtain ⟨rfl, rfl⟩ := throw_eq_error.1 h
    exact ⟨.refl _, not_hasEnd_of_nil hs⟩
  | cons _ bound ih =>
    unfold gather
    refine (orderly_peek s).bind fun t s' ht => ?_
    obtain ⟨rfl, r, hs⟩ := peek_eq_ok.1 ht
    split
    · exact orderly_pure _ _
    next hne =>
      have heof : t.kind ≠ .eof := fun hk => hne (hk ▸ hc)
      refine (h _).bind fun o s₁ ho => (ih s₁ ?_).bind fun stmts s₂ _ => orderly_pure _ s₂
      have hlt := hp _ _ _ _ _ hs heof ho
      rw [List.length_cons] at hb
      omega

/-- Gathering stops only for want of tokens if its items do. -/
theorem gather_eq_error (hi : ∀ s stop s', item s = .error stop s' → stop = .ranOut)
    (bound : List Token) (s : Reading) (h : gather closes item bound s = .error stop s') :
    stop = .ranOut := by
  induction bound generalizing s with
  | nil => exact (throw_eq_error.1 h).1.symm
  | cons _ bound ih =>
    unfold gather at h
    rcases bind_eq_error.1 h with h | ⟨t, s₁, -, h⟩
    · exact (peek_eq_error.1 h).1
    split at h
    · exact absurd h pure_ne_error
    · rcases bind_eq_error.1 h with h | ⟨o, s₂, -, h⟩
      · exact hi _ _ _ h
      rcases bind_eq_error.1 h with h | ⟨stmts, s₃, -, h⟩
      · exact ih _ h
      · exact absurd h pure_ne_error

end Gather

/-! ## Statements -/

/-- What is kept at one depth: all rules for statements are orderly, and they take tokens. -/
structure OrderlyStatements (n : Nat) : Prop where
  declaration : Orderly (readDeclaration n)
  progresses : Progresses (readDeclaration n)
  statement : Orderly (readStatement n)
  takes : Takes (readStatement n)
  conditional : Orderly (readIf n)
  whileLoop : Orderly (readWhile n)
  forLoop : Orderly (readFor n)
  block : Orderly (readBlock n)

namespace OrderlyStatements

variable {n : Nat}

theorem zero : OrderlyStatements 0 where
  declaration := orderly_throw_tooDeep
  progresses _ _ _ _ _ _ _ h := absurd h throw_ne_ok
  statement := orderly_throw_tooDeep
  takes := takes_throw _
  conditional := orderly_throw_tooDeep
  whileLoop := orderly_throw_tooDeep
  forLoop := orderly_throw_tooDeep
  block := orderly_throw_tooDeep

variable (h : OrderlyStatements n)

include h

theorem orderly_declaration : Orderly (do
    match ← accept [.varWord] with
    | some _ => readVariable n
    | none => readStatement n) := by
  refine orderly_accept.bind fun o => ?_
  cases o with
  | none => exact h.statement
  | some t => exact orderly_readVariable n

theorem readDeclaration_succ :
    Orderly (readDeclaration (n + 1)) ∧ Progresses (readDeclaration (n + 1)) := by
  have ht : Takes (do
      match ← accept [.varWord] with
      | some _ => readVariable n
      | none => readStatement n) := by
    refine Takes.bind_right orderly_accept fun o => ?_
    cases o with
    | none => exact h.takes
    | some t => exact takes_readVariable n
  have ho := h.orderly_declaration
  exact ⟨orderly_recover ho, fun s t r o s' hs heof hr => recover_takes ho ht hs heof hr⟩

theorem readStatement_succ : Orderly (readStatement (n + 1)) := by
  unfold readStatement
  intro s
  refine (orderly_peek s).bind fun t s' ht => ?_
  obtain ⟨rfl, r, hs⟩ := peek_eq_ok.1 ht
  split
  next hk => exact (orderlyAt_skip hs (by simp [hk])).bind fun _ s' _ => orderly_readPrint n s'
  next hk => exact (orderlyAt_skip hs (by simp [hk])).bind fun _ s' _ => h.conditional s'
  next hk => exact (orderlyAt_skip hs (by simp [hk])).bind fun _ s' _ => h.whileLoop s'
  next hk => exact (orderlyAt_skip hs (by simp [hk])).bind fun _ s' _ => h.forLoop s'
  next hk => exact (orderlyAt_skip hs (by simp [hk])).bind fun _ s' _ => h.block.map _ s'
  next => exact orderly_readEffect n _

theorem takes_readStatement_succ : Takes (readStatement (n + 1)) := by
  unfold readStatement
  refine Takes.bind_right orderly_peek fun t => ?_
  split
  · exact takes_skip.bind_left fun _ => orderly_readPrint n
  · exact takes_skip.bind_left fun _ => h.conditional
  · exact takes_skip.bind_left fun _ => h.whileLoop
  · exact takes_skip.bind_left fun _ => h.forLoop
  · exact takes_skip.bind_left fun _ => h.block.map _
  · exact takes_readEffect n

/-- What follows the first branch of a conditional. -/
theorem orderly_otherBranch (condition : Expr) (thenBranch : Stmt) : Orderly (do
    match ← accept [.elseWord] with
    | none => return Stmt.ifThen condition thenBranch
    | some _ => return Stmt.ifElse condition thenBranch (← readStatement n)) := by
  refine orderly_accept.bind fun o => ?_
  cases o with
  | none => exact orderly_pure _
  | some t => exact h.statement.bind fun _ => orderly_pure _

theorem readIf_succ : Orderly (readIf (n + 1)) :=
  (orderly_expect _).bind fun _ => (orderly_readExpression n).bind fun condition =>
    (orderly_expect _).bind fun _ => h.statement.bind fun thenBranch =>
    h.orderly_otherBranch condition thenBranch

theorem readWhile_succ : Orderly (readWhile (n + 1)) :=
  (orderly_expect _).bind fun _ => (orderly_readExpression n).bind fun _ =>
    (orderly_expect _).bind fun _ => h.statement.bind fun _ => orderly_pure _

theorem readFor_succ : Orderly (readFor (n + 1)) :=
  (orderly_expect _).bind fun _ => (orderly_readInitializer n).bind fun _ =>
    (orderly_readOptional _ n).bind fun _ => (orderly_expect _).bind fun _ =>
    (orderly_readOptional _ n).bind fun _ => (orderly_expect _).bind fun _ =>
    h.statement.bind fun _ => orderly_pure _

theorem readBlock_succ : Orderly (readBlock (n + 1)) := by
  unfold readBlock
  intro s
  refine (orderly_get s).bind fun here s' hg => ?_
  obtain ⟨rfl, rfl⟩ := get_eq_ok.1 hg
  exact (orderlyAt_gather rfl h.declaration h.progresses _ _ (Nat.le_refl _)).bind
    fun body s' _ => ((orderly_expect _).bind fun _ => orderly_pure body) s'

omit h in
theorem all (n : Nat) : OrderlyStatements n := by
  induction n with
  | zero => exact zero
  | succ n ih =>
    exact {
      declaration := ih.readDeclaration_succ.1
      progresses := ih.readDeclaration_succ.2
      statement := ih.readStatement_succ
      takes := ih.takes_readStatement_succ
      conditional := ih.readIf_succ
      whileLoop := ih.readWhile_succ
      forLoop := ih.readFor_succ
      block := ih.readBlock_succ }

end OrderlyStatements

/-- The last two levels hold no declaration: the rule in it meets the limit, and there is no level
left to write that on. -/
theorem readDeclaration_ne_ok {n : Nat} (hn : n ≤ 1) {o : Option Stmt} :
    readDeclaration n s ≠ .ok o s' := by
  intro h
  cases n with
  | zero => exact throw_ne_ok h
  | succ n =>
    obtain rfl : n = 0 := Nat.le_zero.1 (Nat.le_of_succ_le_succ hn)
    rcases recover_zero_eq_ok h with ⟨stmt, hrule⟩ | ⟨fault, s₁, hrule⟩
    · obtain ⟨word, s₁, -, hrule⟩ := bind_eq_ok.1 hrule
      cases word <;> exact throw_ne_ok hrule
    · rcases bind_eq_error.1 hrule with haccept | ⟨word, s₂, -, hrule⟩
      · cases (accept_eq_error.1 haccept).1
      · cases word <;> cases (throw_eq_error.1 hrule).1

/-! ## Programs -/

theorem orderly_readProgram (n : Nat) : Orderly (readProgram n) := by
  unfold readProgram
  intro s
  refine (orderly_get s).bind fun here s' hg => ?_
  obtain ⟨rfl, rfl⟩ := get_eq_ok.1 hg
  exact orderlyAt_gather (by simp) (OrderlyStatements.all n).declaration
    (OrderlyStatements.all n).progresses _ _ (Nat.le_refl _)

/-- Reading a program stops only for want of tokens: there is a level left for its declarations to
write on. -/
theorem readProgram_eq_error {n : Nat} (hn : 1 < n) (h : readProgram n s = .error stop s') :
    stop = .ranOut := by
  obtain ⟨n, rfl⟩ := Nat.exists_eq_add_of_lt hn
  unfold readProgram at h
  rcases bind_eq_error.1 h with h | ⟨here, s₁, -, h⟩
  · cases h
  · refine gather_eq_error (fun _ _ _ hr => ?_) _ _ h
    exact (recover_eq_error hr).resolve_right fun hzero => absurd hzero.1 (by omega)

end Lox.Grammar

namespace Lox

open Grammar

/-- Reading tokens with an end among them gives a program. -/
theorem exists_readProgram_eq_ok {tokens : List Token} (h : ∃ t ∈ tokens, t.kind = .eof) :
    ∃ program s, readProgram nestingLimit ⟨tokens, []⟩ = .ok program s := by
  cases hr : readProgram nestingLimit ⟨tokens, []⟩ with
  | ok program s => exact ⟨program, s, rfl⟩
  | error stop s =>
    obtain rfl := readProgram_eq_error (by decide) hr
    exact absurd h ((orderly_readProgram nestingLimit _).error hr).2

theorem closed_of_mem {tokens : List Token} {t : Token} (h : t ∈ tokens) : closed tokens = tokens := by
  unfold closed
  rw [if_neg]
  simpa using List.ne_nil_of_mem h

/-- Reading tokens with an end among them gives a program. -/
theorem isSome_parse {tokens : List Token} (h : ∃ t ∈ tokens, t.kind = .eof) :
    (parse tokens).program?.isSome := by
  obtain ⟨program, s, hr⟩ := exists_readProgram_eq_ok h
  obtain ⟨t, ht, -⟩ := h
  unfold parse
  rw [closed_of_mem ht, hr]
  rfl

end Lox
