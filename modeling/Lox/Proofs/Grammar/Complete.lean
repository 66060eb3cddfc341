import Lox.Proofs.Grammar.Sound

/-!
# Phrases are read

What a phrase stands for is what the rule reads, without a report, unless nesting gets too deep on
the way.  A tier of operators reads on as long as operators of the tier follow, so a phrase of it
needs an end: `Tier.Stops` says that no operator follows that the tier would take.  A statement that
is dangling needs no `else` to follow.
-/

namespace Lox.Grammar

open Computing

variable {α β : Type} {tier : Tier} {ts us rs : List Token} {e a b : Expr} {n : Nat}
  {reports : List Report}

/-! ## Ends of expressions -/

/-- Something follows, and it is no operator that an expression of the tier goes on with. -/
def Tier.Stops (tier : Tier) (rs : List Token) : Prop :=
  ∃ t r, rs = t :: r ∧ ∀ other, t.kind.tier? = some other → other.rank < tier.rank

namespace Tier.Stops

theorem of_tier?_eq_none {t : Token} {r : List Token} (h : t.kind.tier? = none) :
    tier.Stops (t :: r) := by
  refine ⟨t, r, rfl, fun other ho => ?_⟩
  rw [h] at ho
  cases ho

theorem of_rank_le {tier' : Tier} (h : tier.Stops rs) (hr : tier.rank ≤ tier'.rank) :
    tier'.Stops rs := by
  obtain ⟨t, r, rfl, ht⟩ := h
  exact ⟨t, r, rfl, fun other ho => Nat.lt_of_lt_of_le (ht other ho) hr⟩

theorem next (h : tier.Stops rs) : tier.next.Stops rs := h.of_rank_le tier.rank_le_next

/-- An operator of a tier ends its operands. -/
theorem of_operator {operator : Token} {r : List Token} (h : operator.kind ∈ tier.operators) :
    tier.next.Stops (operator :: r) := by
  refine ⟨operator, r, rfl, fun other ho => ?_⟩
  rw [Kind.tier?_of_mem_operators h] at ho
  obtain rfl := Option.some.inj ho
  rw [rank_next_of_ne]
  · exact Nat.lt_succ_self _
  · rintro rfl
    exact absurd h List.not_mem_nil

theorem not_mem_operators {t : Token} {r : List Token} (h : tier.Stops (t :: r)) :
    t.kind ∉ tier.operators := by
  intro hm
  obtain ⟨u, r', hu, ht⟩ := h
  obtain ⟨rfl, rfl⟩ := List.cons.inj hu
  exact Nat.lt_irrefl _ (ht _ (Kind.tier?_of_mem_operators hm))

theorem ne_equal {t : Token} {r : List Token} (h : Tier.assignment.Stops (t :: r)) :
    t.kind ≠ .equal := by
  intro hk
  obtain ⟨u, r', hu, ht⟩ := h
  obtain ⟨rfl, rfl⟩ := List.cons.inj hu
  exact Nat.lt_irrefl _ (ht .assignment (by rw [hk]; rfl))

end Tier.Stops

/-! ## Expressions -/

/-- The rule of the tier reads this expression from these tokens up to those. -/
def ReadsExpr (tier : Tier) (ts : List Token) (e : Expr) (rs : List Token) : Prop :=
  tier.Stops rs → ∀ n reports,
    OrStops .tooDeep (readTier n tier ⟨ts, reports⟩) (.ok e ⟨rs, reports⟩)

/-- What joining operands from the left gives from these tokens is what it gives when this
expression is joined already and those tokens are ahead. -/
def JoinsExpr (tier : Tier) (ts : List Token) (e : Expr) (rs : List Token) : Prop :=
  tier.next.Stops rs → ∀ n reports result,
    (∀ bound : List Token, rs.length ≤ bound.length →
      OrStops .tooDeep
        (chain tier.operators tier.join (readTier n tier.next) bound e ⟨rs, reports⟩) result) →
    OrStops .tooDeep
      (leftJoined tier.operators tier.join (readTier n tier.next) ⟨ts, reports⟩) result

theorem joinsExpr_of_reads_next (h : ReadsExpr tier.next ts e rs) : JoinsExpr tier ts e rs := by
  intro hstops n reports result hchain
  unfold leftJoined
  refine (h hstops n reports).bind_ok ?_
  exact .bind_eq rfl (hchain rs (Nat.le_refl _))

theorem joinsExpr_joined {operator : Token} (h : JoinsExpr tier ts a (operator :: us))
    (hmem : operator.kind ∈ tier.operators) (hle : rs.length ≤ us.length)
    (hright : ReadsExpr tier.next us b rs) : JoinsExpr tier ts (tier.join a operator b) rs := by
  intro hstops n reports result hchain
  refine h (.of_operator hmem) n reports result fun bound hb => ?_
  have heof : operator.kind ≠ .eof := by
    intro hk
    have htier := Kind.tier?_of_mem_operators hmem
    rw [hk] at htier
    cases htier
  cases bound with
  | nil => exact absurd hb (Nat.not_succ_le_zero _)
  | cons _ bound =>
    unfold chain
    refine .bind_eq (accept_of_mem rfl heof hmem) ?_
    refine (hright hstops n reports).bind_ok (hchain bound ?_)
    exact Nat.le_trans hle (Nat.le_of_succ_le_succ hb)

/-- Joining comes to an end where no operator of the tier follows. -/
theorem readsExpr_of_joins (hop : tier.operators ≠ []) (h : JoinsExpr tier ts e rs) :
    ReadsExpr tier ts e rs := by
  intro hstops n reports
  cases n with
  | zero => exact .stop
  | succ n =>
    rw [readTier_of_operators hop]
    refine h hstops.next n reports _ fun bound hb => ?_
    obtain ⟨t, r, rfl, ht⟩ := hstops
    cases bound with
    | nil => exact absurd hb (Nat.not_succ_le_zero _)
    | cons _ bound =>
      unfold chain
      exact .bind_eq (accept_of_not_mem rfl (Tier.Stops.not_mem_operators ⟨t, r, rfl, ht⟩)) .rfl

/-- A tier reads what the next one reads; before an operand there is no operator of its own. -/
theorem readsExpr_of_reads_next (h : ReadsExpr tier.next ts e rs)
    (hstart : tier = .unary → ∃ t r, ts = t :: r ∧ t.kind ∉ [Kind.bang, .minus]) :
    ReadsExpr tier ts e rs := by
  by_cases hop : tier.operators = []
  · intro hstops n reports
    cases n with
    | zero => exact .stop
    | succ n =>
      cases tier with
      | expression => exact h hstops.next n reports
      | assignment =>
        unfold readTier
        refine (h hstops.next n reports).bind_ok ?_
        obtain ⟨t, r, rfl, ht⟩ := hstops
        have hne := Tier.Stops.ne_equal ⟨t, r, rfl, ht⟩
        exact .bind_eq (accept_of_ne hne) .rfl
      | unary =>
        unfold readTier
        obtain ⟨t, r, rfl, ht⟩ := hstart rfl
        exact .bind_eq (accept_of_not_mem rfl ht) (h hstops.next n reports)
      | primary => exact h hstops (n + 1) reports
      | _ => exact absurd hop (List.cons_ne_nil _ _)
  · exact readsExpr_of_joins hop (joinsExpr_of_reads_next h)

/-- A name is read at any tier that takes no assignments. -/
theorem readsExpr_reference {name : Token} (hname : name.kind = .identifier) :
    ReadsExpr .or (name :: rs) (.reference name) rs := by
  have hprimary : ReadsExpr .primary (name :: rs) (.reference name) rs := by
    intro _ n reports
    cases n with
    | zero => exact .stop
    | succ n => exact .of_eq (readTier_reference rfl hname)
  have hunary : ReadsExpr .unary (name :: rs) (.reference name) rs :=
    readsExpr_of_reads_next hprimary fun _ => ⟨name, rs, rfl, by rw [hname]; decide⟩
  have hfactor : ReadsExpr .factor (name :: rs) (.reference name) rs :=
    readsExpr_of_reads_next hunary (by simp)
  have hterm : ReadsExpr .term (name :: rs) (.reference name) rs :=
    readsExpr_of_reads_next hfactor (by simp)
  have hcomparison : ReadsExpr .comparison (name :: rs) (.reference name) rs :=
    readsExpr_of_reads_next hterm (by simp)
  have hequality : ReadsExpr .equality (name :: rs) (.reference name) rs :=
    readsExpr_of_reads_next hcomparison (by simp)
  have hand : ReadsExpr .and (name :: rs) (.reference name) rs :=
    readsExpr_of_reads_next hequality (by simp)
  exact readsExpr_of_reads_next hand (by simp)

theorem readsExpr_assign {name equal : Token} (hname : name.kind = .identifier)
    (hequal : equal.kind = .equal) (h : ReadsExpr .assignment ts e rs) :
    ReadsExpr .assignment (name :: equal :: ts) (.assign name e) rs := by
  intro hstops n reports
  cases n with
  | zero => exact .stop
  | succ n =>
    have hor : Tier.or.Stops (equal :: ts) := by
      refine ⟨equal, ts, rfl, fun other ho => ?_⟩
      rw [hequal] at ho
      obtain rfl := Option.some.inj ho
      decide
    unfold readTier
    refine (readsExpr_reference hname hor n reports).bind_ok ?_
    refine .bind_eq (accept_of_kind hequal (by decide)) ?_
    exact (h hstops n reports).bind_ok .rfl

theorem readsExpr_unary {operator : Token} (hmem : operator.kind ∈ [Kind.bang, .minus])
    (h : ReadsExpr .unary ts e rs) : ReadsExpr .unary (operator :: ts) (.unary operator e) rs := by
  intro hstops n reports
  cases n with
  | zero => exact .stop
  | succ n =>
    have heof : operator.kind ≠ .eof := by
      intro hk
      rw [hk] at hmem
      exact absurd hmem (by decide)
    unfold readTier
    refine .bind_eq (accept_of_mem rfl heof hmem) ?_
    exact (h hstops n reports).bind_ok .rfl

theorem readsExpr_grouping {l r : Token} (hl : l.kind = .leftParen) (hr : r.kind = .rightParen)
    (h : ReadsExpr .expression ts e (r :: rs)) :
    ReadsExpr .primary (l :: ts) (.grouping e) rs := by
  intro _ n reports
  cases n with
  | zero => exact .stop
  | succ n =>
    rw [readTier_grouping rfl hl]
    refine (h (.of_tier?_eq_none (by rw [hr]; rfl)) n reports).bind_ok ?_
    exact .bind_eq (expect_of_ahead rfl hr) .rfl

/-- Every phrase is read. -/
theorem Phrase.reads (h : Phrase tier ts e rs) :
    ReadsExpr tier ts e rs ∧ (tier.operators ≠ [] → JoinsExpr tier ts e rs) := by
  induction h with
  | tighter inner ih =>
    refine ⟨readsExpr_of_reads_next ih.1 fun ht => ?_, fun _ => joinsExpr_of_reads_next ih.1⟩
    exact inner.primary_starts (by rw [ht]; rfl)
  | joined _ mem right ihleft ihright =>
    have hop := List.ne_nil_of_mem mem
    have hjoins := joinsExpr_joined (ihleft.2 hop) mem right.suffix.length_le ihright.1
    exact ⟨readsExpr_of_joins hop hjoins, fun _ => hjoins⟩
  | assign hname hequal _ ih =>
    exact ⟨readsExpr_assign hname hequal ih.1, fun hop => absurd rfl hop⟩
  | unary mem _ ih => exact ⟨readsExpr_unary mem ih.1, fun hop => absurd rfl hop⟩
  | literal hv =>
    refine ⟨fun _ n reports => ?_, fun hop => absurd rfl hop⟩
    cases n with
    | zero => exact .stop
    | succ n => exact .of_eq (readTier_literal rfl hv)
  | reference hname =>
    refine ⟨fun _ n reports => ?_, fun hop => absurd rfl hop⟩
    cases n with
    | zero => exact .stop
    | succ n => exact .of_eq (readTier_reference rfl hname)
  | grouping hl hr _ ih => exact ⟨readsExpr_grouping hl hr ih.1, fun hop => absurd rfl hop⟩

/-! ## Statements without statements inside -/

theorem Phrase.readsExpression {t : Token} (h : Phrase .expression ts e (t :: rs))
    (ht : t.kind.tier? = none) (n : Nat) (reports : List Report) :
    OrStops .tooDeep (readExpression n ⟨ts, reports⟩) (.ok e ⟨t :: rs, reports⟩) :=
  h.reads.1 (.of_tier?_eq_none ht) n reports

theorem VariablePhrase.reads {stmt : Stmt} (h : VariablePhrase ts stmt rs) (n : Nat)
    (reports : List Report) :
    OrStops .tooDeep (readVariable n ⟨ts, reports⟩) (.ok stmt ⟨rs, reports⟩) := by
  cases n with
  | zero => exact .stop
  | succ n =>
    rw [readVariable]
    cases h with
    | plain hname hclose =>
      refine .bind_eq (expect_of_ahead rfl hname) ?_
      refine .bind_eq (accept_of_ne (by rw [hclose]; decide)) ?_
      refine .bind_eq pure_apply ?_
      exact .bind_eq (expect_of_ahead rfl hclose) .rfl
    | initialized hname hequal initializer hclose =>
      refine .bind_eq (expect_of_ahead rfl hname) ?_
      refine .bind_eq (accept_of_kind hequal (by decide)) ?_
      have he := initializer.readsExpression (by rw [hclose]; rfl) n reports
      refine OrStops.bind_ok (he.bind_ok .rfl) ?_
      exact .bind_eq (expect_of_ahead rfl hclose) .rfl

theorem EffectPhrase.reads {stmt : Stmt} (h : EffectPhrase ts stmt rs) (n : Nat)
    (reports : List Report) :
    OrStops .tooDeep (readEffect n ⟨ts, reports⟩) (.ok stmt ⟨rs, reports⟩) := by
  cases n with
  | zero => exact .stop
  | succ n =>
    cases h with
    | mk inner hclose =>
      rw [readEffect]
      refine (inner.readsExpression (by rw [hclose]; rfl) n reports).bind_ok ?_
      exact .bind_eq (expect_of_ahead rfl hclose) .rfl

theorem InitializerPhrase.reads {o : Option Stmt} (h : InitializerPhrase ts o rs) (n : Nat)
    (reports : List Report) :
    OrStops .tooDeep (readInitializer n ⟨ts, reports⟩) (.ok o ⟨rs, reports⟩) := by
  unfold readInitializer
  cases h with
  | missing hclose => exact .bind_eq (accept_of_kind hclose (by decide)) .rfl
  | «variable» hword inner =>
    refine .bind_eq (accept_of_ne (by rw [hword]; decide)) ?_
    refine .bind_eq (accept_of_kind hword (by decide)) ?_
    exact (inner.reads n reports).bind_ok .rfl
  | effect inner =>
    obtain ⟨t, r, rfl, ht⟩ := inner.starts
    have hne : ∀ {k : Kind}, k.startsExpression = false → t.kind ≠ k := by
      rintro k hk rfl
      rw [ht] at hk
      cases hk
    refine .bind_eq (accept_of_ne (hne rfl)) ?_
    refine .bind_eq (accept_of_ne (hne rfl)) ?_
    exact (inner.reads n reports).bind_ok .rfl

theorem OptionalPhrase.reads {close : Token} {o : Option Expr}
    (h : OptionalPhrase ts o (close :: rs)) (hclose : close.kind = .semicolon ∨ close.kind = .rightParen)
    (n : Nat) (reports : List Report) :
    OrStops .tooDeep (readOptional close.kind n ⟨ts, reports⟩) (.ok o ⟨close :: rs, reports⟩) := by
  unfold readOptional
  cases h with
  | missing =>
    have hnext : isNext [close.kind] ⟨close :: rs, reports⟩ = .ok true ⟨close :: rs, reports⟩ := by
      rcases hclose with hk | hk <;> simp [isNext, hk]
    exact .bind_eq hnext .rfl
  | present inner =>
    obtain ⟨t, r, rfl, ht⟩ := inner.starts
    have hne : t.kind ≠ close.kind := by
      intro hk
      rw [hk] at ht
      rcases hclose with hk | hk <;> rw [hk] at ht <;> cases ht
    have hnext : isNext [close.kind] ⟨t :: r, reports⟩ = .ok false ⟨t :: r, reports⟩ := by
      simp [isNext, hne]
    refine .bind_eq hnext ?_
    have he := inner.readsExpression (by rcases hclose with hk | hk <;> rw [hk] <;> rfl) n reports
    exact he.bind_ok .rfl

/-! ## Nesting too deep -/

/-- Nesting too deep has been reported. -/
def Reading.Overflown (s : Reading) : Prop := ∃ t, Report.atToken t .tooDeep ∈ s.reports

/-- Nesting has been too deep: reading stops for it now, or it has been reported. -/
def Overflows (result : EStateM.Result Stop Reading α) : Prop :=
  (∃ s, result = .error .tooDeep s) ∨ (endState result).Overflown

/-- The rule reads this up to that place, unless nesting gets too deep. -/
def Attains (rule : Rule α) (s : Reading) (a : α) (s' : Reading) : Prop :=
  rule s = .ok a s' ∨ Overflows (rule s)

theorem OrderlyAt.leads {rule : Rule α} {s : Reading} (h : OrderlyAt rule s) :
    s.Leads (endState (rule s)) := by
  cases hr : rule s with
  | ok a s' => exact h.ok hr
  | error stop s' => exact (h.error hr).1

/-- A report of nesting too deep stays. -/
theorem OrderlyAt.overflows {rule : Rule α} {s : Reading} (h : OrderlyAt rule s)
    (hs : s.Overflown) : Overflows (rule s) := by
  obtain ⟨t, ht⟩ := hs
  exact Or.inr ⟨t, h.leads.reports.subset ht⟩

/-- What is done after nesting was too deep does not take the report of it back. -/
theorem Overflows.bind {x : Rule α} {f : α → Rule β} {s : Reading} (h : Overflows (x s))
    (ho : ∀ a s', x s = .ok a s' → OrderlyAt (f a) s') : Overflows ((x >>= f) s) := by
  cases hr : x s with
  | ok a s₁ =>
    rw [hr] at h
    rw [bind_of_ok hr]
    rcases h with ⟨s₂, h⟩ | h
    · cases h
    · exact (ho a s₁ hr).overflows h
  | error stop s₁ =>
    rw [hr] at h
    rw [bind_of_error hr]
    rcases h with ⟨s₂, h⟩ | h
    · obtain ⟨rfl, -⟩ := EStateM.Result.error.inj h
      exact Or.inl ⟨s₁, rfl⟩
    · exact Or.inr h

/-- Recovery reports nesting too deep, as there is a token to report it at, or stops there again. -/
theorem Overflows.recover {rule : Rule Stmt} {s : Reading} (h : Overflows (rule s))
    (ho : Orderly rule) (hend : s.HasEnd) : Overflows (recover n rule s) := by
  rcases hr : rule s with ⟨stmt₁, s₁⟩ | ⟨stop, s₁⟩
  · rw [recover_of_ok hr]
    rw [hr] at h
    rcases h with ⟨_, h⟩ | h
    · cases h
    · exact Or.inr h
  have hl := ((ho s).error hr).1
  have hover : stop ≠ .tooDeep → s₁.Overflown := by
    intro hne
    rw [hr] at h
    rcases h with ⟨_, h⟩ | h
    · exact absurd (EStateM.Result.error.inj h).1 hne
    · exact h
  cases stop with
  | fault f =>
    rw [recover_of_fault hr]
    exact (orderly_resume s₁).overflows (hover (by simp))
  | ranOut =>
    rw [recover_of_ranOut hr]
    exact Or.inr (hover (by simp))
  | tooDeep =>
    -- the end is still ahead, so there is a token at which the report is made
    obtain ⟨t, r, hs⟩ : ∃ t r, s₁.ahead = t :: r := by
      obtain ⟨t, ht, -⟩ := hl.hasEnd hend
      exact List.exists_cons_of_ne_nil (List.ne_nil_of_mem ht)
    rw [recover_of_tooDeep hr, bind_of_ok (peek_of_ahead hs)]
    cases n with
    | zero => exact Or.inl ⟨_, bind_of_error rfl⟩
    | succ n =>
      have hmem : Report.atToken t .tooDeep ∈ s₁.reports ++ [.atToken t .tooDeep] :=
        List.mem_append_right _ (List.mem_singleton_self _)
      exact (orderly_resume _).overflows ⟨t, hmem⟩

namespace Attains

variable {x rule : Rule α} {f : α → Rule β} {a : α} {b : β} {s s' s'' : Reading}

theorem of_orStops (h : OrStops .tooDeep (rule s) (.ok a s')) : Attains rule s a s' := by
  rcases h with h | h
  · exact Or.inl h
  · exact Or.inr (Or.inl h)

theorem bind_step (hx : OrStops .tooDeep (x s) (.ok a s')) (hf : Attains (f a) s' b s'') :
    Attains (x >>= f) s b s'' := by
  unfold Attains
  rcases hx with hx | ⟨s₁, hx⟩
  · rwa [bind_of_ok hx]
  · rw [bind_of_error hx]
    exact Or.inr (Or.inl ⟨s₁, rfl⟩)

theorem congr {y : Rule α} {s₁ : Reading} (he : x s = y s₁) (h : Attains y s₁ a s') :
    Attains x s a s' := by
  unfold Attains
  rwa [he]

theorem bind (ho : ∀ a s', x s = .ok a s' → OrderlyAt (f a) s') (hx : Attains x s a s')
    (hf : x s = .ok a s' → Attains (f a) s' b s'') : Attains (x >>= f) s b s'' := by
  rcases hx with hx | hx
  · exact .congr (bind_of_ok hx) (hf hx)
  · exact Or.inr (hx.bind ho)

theorem map (g : α → β) (hx : Attains x s a s') : Attains (g <$> x) s (g a) s' :=
  bind (fun _ _ _ => orderly_pure _ _) hx fun _ => Or.inl rfl

theorem recover {rule : Rule Stmt} {stmt : Stmt} (ho : Orderly rule) (hend : s.HasEnd)
    (h : Attains rule s stmt s') : Attains (recover n rule) s (some stmt) s' := by
  rcases h with h | h
  · exact Or.inl (recover_of_ok h)
  · exact Or.inr (h.recover ho hend)

end Attains

/-! ## Sequences of declarations -/

section Gather

variable {closes : Kind → Bool} {bound : List Token} {stmt : Stmt} {ss : List Stmt}

theorem attains_gather_nil {t : Token} {r : List Token} (ht : closes t.kind = true)
    (hb : (t :: r).length ≤ bound.length) {item : Rule (Option Stmt)} :
    Attains (gather closes item bound) ⟨t :: r, reports⟩ [] ⟨t :: r, reports⟩ := by
  cases bound with
  | nil => exact absurd hb (Nat.not_succ_le_zero _)
  | cons _ bound =>
    left
    unfold gather
    rw [bind_of_ok (peek_of_ahead rfl), if_pos ht]
    rfl

/-- A declaration comes first, and then the others where it has led to. -/
theorem attains_gather_cons {t : Token} {r : List Token} {o : Option Stmt} {s s' : Reading}
    (hc : closes .eof = true) (ht : closes t.kind = false) (hb : (t :: r).length ≤ bound.length)
    (hfirst : Attains (readDeclaration n) ⟨t :: r, reports⟩ o s)
    (hrest : ∀ bound : List Token, s.ahead.length ≤ bound.length →
      Attains (gather closes (readDeclaration n) bound) s ss s') :
    Attains (gather closes (readDeclaration n) bound) ⟨t :: r, reports⟩ (o.toList ++ ss) s' := by
  have ho := OrderlyStatements.all n
  have heof : t.kind ≠ .eof := by
    intro hk
    rw [hk, hc] at ht
    cases ht
  cases bound with
  | nil => exact absurd hb (Nat.not_succ_le_zero _)
  | cons _ bound =>
    unfold gather
    refine .bind_step (.of_eq (peek_of_ahead rfl)) ?_
    rw [if_neg (by simp [ht])]
    -- A declaration takes a token, so the rounds that are left are enough for the others.
    have hlen : ∀ {o s'}, readDeclaration n ⟨t :: r, reports⟩ = .ok o s' →
        s'.ahead.length ≤ bound.length := by
      intro o s' h
      have hlt := ho.progresses _ _ _ _ _ rfl heof h
      rw [List.length_cons] at hb hlt
      rw [List.length_cons] at hb
      omega
    refine .bind (fun o s' h => ?_) hfirst fun h => ?_
    · exact (orderlyAt_gather hc ho.declaration ho.progresses _ _ (hlen h)).bind
        fun _ _ _ => orderly_pure _ _
    · exact .bind (fun _ _ _ => orderly_pure _ _) (hrest bound (hlen h)) fun _ => Or.inl rfl

theorem attains_readDeclaration_variable {word : Token} (hword : word.kind = .varWord)
    (h : VariablePhrase ts stmt rs) (hend : ∃ t ∈ rs, t.kind = .eof) (n : Nat)
    (reports : List Report) :
    Attains (readDeclaration n) ⟨word :: ts, reports⟩ (some stmt) ⟨rs, reports⟩ := by
  cases n with
  | zero => exact .of_orStops .stop
  | succ n =>
    rw [readDeclaration]
    refine .recover (OrderlyStatements.all n).orderly_declaration ?_ (.of_orStops ?_)
    · obtain ⟨t, ht, hk⟩ := hend
      exact ⟨t, (suffix_behind h.suffix).subset ht, hk⟩
    · exact .bind_eq (accept_of_kind hword (by decide)) (h.reads n reports)

theorem attains_readDeclaration_statement {t : Token} {r : List Token} {s : Reading}
    (ht : t.kind.opensStatement = true) (hend : ∃ u ∈ t :: r, u.kind = .eof)
    (h : ∀ n, Attains (readStatement n) ⟨t :: r, reports⟩ stmt s) (n : Nat) :
    Attains (readDeclaration n) ⟨t :: r, reports⟩ (some stmt) s := by
  cases n with
  | zero => exact .of_orStops .stop
  | succ n =>
    have hne : t.kind ≠ .varWord := by
      intro hk
      rw [hk] at ht
      cases ht
    rw [readDeclaration]
    refine .recover (OrderlyStatements.all n).orderly_declaration hend ?_
    exact .bind_step (.of_eq (accept_of_ne hne)) (h n)

end Gather

/-! ## Statements with statements inside -/

/-- No declaration begins with a token that closes a sequence. -/
theorem closes_eq_false {closes : Kind → Bool}
    (hcloses : ∀ k, closes k = true → k = .eof ∨ k = .rightBrace) {k : Kind} (heof : k ≠ .eof)
    (hbrace : k ≠ .rightBrace) : closes k = false := by
  cases hk : closes k with
  | false => rfl
  | true =>
    rcases hcloses k hk with h | h
    · exact absurd h heof
    · exact absurd h hbrace

theorem exists_eof_of_suffix (h : us <:+ ts) (hend : ∃ t ∈ us, t.kind = .eof) :
    ∃ t ∈ ts, t.kind = .eof := by
  obtain ⟨t, ht, hk⟩ := hend
  exact ⟨t, h.subset ht, hk⟩

section Branches

variable {l r : Token} {condition : Expr} {thenBranch elseBranch body : Stmt}

/-- An expression in parentheses is read, and then what is behind it. -/
theorem Attains.bind_condition (opening closing : Expectation) {next : Expr → Rule Stmt}
    {stmt : Stmt} (hl : l.kind = opening.kind) (h : Phrase .expression ts condition (r :: us))
    (hr : r.kind = closing.kind) (hclosing : closing.kind = .rightParen) (n : Nat)
    (hnext : Attains (next condition) ⟨us, reports⟩ stmt ⟨rs, reports⟩) :
    Attains (do
      let _ ← expect n opening
      let condition ← readExpression n
      let _ ← expect n closing
      next condition) ⟨l :: ts, reports⟩ stmt ⟨rs, reports⟩ := by
  refine .bind_step (.of_eq (expect_of_ahead rfl hl)) ?_
  refine .bind_step (h.readsExpression (by rw [hr, hclosing]; rfl) n reports) ?_
  exact .bind_step (.of_eq (expect_of_ahead rfl hr)) hnext

theorem attains_readPrint {e : Expr} {close : Token} (h : Phrase .expression ts e (close :: rs))
    (hclose : close.kind = .semicolon) (n : Nat) :
    Attains (readPrint n) ⟨ts, reports⟩ (.print e) ⟨rs, reports⟩ := by
  cases n with
  | zero => exact .of_orStops .stop
  | succ n =>
    rw [readPrint]
    refine .bind_step (h.readsExpression (by rw [hclose]; rfl) n reports) ?_
    exact .bind_step (.of_eq (expect_of_ahead rfl hclose)) (.of_orStops .rfl)

theorem attains_readBlock {ss : List Stmt} {reports' : List Report} (hr : r.kind = .rightBrace)
    (h : ∀ n, Attains (gather closesBlock (readDeclaration n) ts) ⟨ts, reports⟩ ss
      ⟨r :: rs, reports'⟩) (n : Nat) :
    Attains (readBlock n) ⟨ts, reports⟩ ss ⟨rs, reports'⟩ := by
  cases n with
  | zero => exact .of_orStops .stop
  | succ n =>
    rw [readBlock]
    refine .bind_step (.of_eq rfl) ?_
    refine .bind (fun _ _ _ => ((orderly_expect _).bind fun _ => orderly_pure _) _) (h n) ?_
    exact fun _ => .of_orStops (.bind_eq (expect_of_ahead rfl hr) .rfl)

theorem attains_readIf_ifThen (hl : l.kind = .leftParen)
    (hcondition : Phrase .expression ts condition (r :: us)) (hr : r.kind = .rightParen)
    (hthen : ∀ n, Attains (readStatement n) ⟨us, reports⟩ thenBranch ⟨rs, reports⟩)
    (hno : NoElse rs) (hrs : rs ≠ []) (n : Nat) :
    Attains (readIf n) ⟨l :: ts, reports⟩ (.ifThen condition thenBranch) ⟨rs, reports⟩ := by
  cases n with
  | zero => exact .of_orStops .stop
  | succ n =>
    have ho := OrderlyStatements.all n
    obtain ⟨t, rs, rfl⟩ := List.exists_cons_of_ne_nil hrs
    rw [readIf]
    refine .bind_condition .startOfIf .endOfIf hl hcondition hr rfl n ?_
    refine .bind (fun _ _ _ => ho.orderly_otherBranch _ _ _) (hthen n) fun _ => ?_
    exact .of_orStops (.bind_eq (accept_of_ne (hno t rs rfl)) .rfl)

theorem attains_readIf_ifElse {other : Token} {vs : List Token} (hl : l.kind = .leftParen)
    (hcondition : Phrase .expression ts condition (r :: us)) (hr : r.kind = .rightParen)
    (hthen : ∀ n, Attains (readStatement n) ⟨us, reports⟩ thenBranch ⟨other :: vs, reports⟩)
    (hother : other.kind = .elseWord)
    (helse : ∀ n, Attains (readStatement n) ⟨vs, reports⟩ elseBranch ⟨rs, reports⟩) (n : Nat) :
    Attains (readIf n) ⟨l :: ts, reports⟩ (.ifElse condition thenBranch elseBranch)
      ⟨rs, reports⟩ := by
  cases n with
  | zero => exact .of_orStops .stop
  | succ n =>
    have ho := OrderlyStatements.all n
    rw [readIf]
    refine .bind_condition .startOfIf .endOfIf hl hcondition hr rfl n ?_
    refine .bind (fun _ _ _ => ho.orderly_otherBranch _ _ _) (hthen n) fun _ => ?_
    refine .bind_step (.of_eq (accept_of_kind hother (by decide))) ?_
    exact .bind (fun _ _ _ => orderly_pure _ _) (helse n) fun _ => Or.inl rfl

theorem attains_readWhile (hl : l.kind = .leftParen)
    (hcondition : Phrase .expression ts condition (r :: us)) (hr : r.kind = .rightParen)
    (hbody : ∀ n, Attains (readStatement n) ⟨us, reports⟩ body ⟨rs, reports⟩) (n : Nat) :
    Attains (readWhile n) ⟨l :: ts, reports⟩ (.loop condition body) ⟨rs, reports⟩ := by
  cases n with
  | zero => exact .of_orStops .stop
  | succ n =>
    rw [readWhile]
    refine .bind_condition .startOfWhile .endOfWhile hl hcondition hr rfl n ?_
    exact .bind (fun _ _ _ => orderly_pure _ _) (hbody n) fun _ => Or.inl rfl

theorem attains_readFor {close : Token} {vs ws : List Token} {initializer : Option Stmt}
    {condition increment : Option Expr} (hl : l.kind = .leftParen)
    (hinitializer : InitializerPhrase ts initializer us)
    (hcondition : OptionalPhrase us condition (close :: vs)) (hclose : close.kind = .semicolon)
    (hincrement : OptionalPhrase vs increment (r :: ws)) (hr : r.kind = .rightParen)
    (hbody : ∀ n, Attains (readStatement n) ⟨ws, reports⟩ body ⟨rs, reports⟩) (n : Nat) :
    Attains (readFor n) ⟨l :: ts, reports⟩ (.forLoop initializer condition increment body)
      ⟨rs, reports⟩ := by
  cases n with
  | zero => exact .of_orStops .stop
  | succ n =>
    have hcondition := hcondition.reads (Or.inl hclose) n reports
    have hincrement := hincrement.reads (Or.inr hr) n reports
    rw [hclose] at hcondition
    rw [hr] at hincrement
    rw [readFor]
    refine .bind_step (.of_eq (expect_of_ahead rfl hl)) ?_
    refine .bind_step (hinitializer.reads n reports) ?_
    refine .bind_step hcondition ?_
    refine .bind_step (.of_eq (expect_of_ahead rfl hclose)) ?_
    refine .bind_step hincrement ?_
    refine .bind_step (.of_eq (expect_of_ahead rfl hr)) ?_
    exact .bind (fun _ _ _ => orderly_pure _ _) (hbody n) fun _ => Or.inl rfl

end Branches

mutual

/-- Every statement is read, unless nesting gets too deep. -/
theorem StmtPhrase.attains {dangling : Bool} {ts rs : List Token} {stmt : Stmt}
    (h : StmtPhrase dangling ts stmt rs) (hno : dangling = true → NoElse rs)
    (hend : ∃ t ∈ rs, t.kind = .eof) (n : Nat) (reports : List Report) :
    Attains (readStatement n) ⟨ts, reports⟩ stmt ⟨rs, reports⟩ := by
  cases n with
  | zero => exact .of_orStops .stop
  | succ n =>
  match h with
  | .effect inner =>
    obtain ⟨t, r, rfl, ht⟩ := inner.starts
    refine .congr (readStatement_effect rfl fun hk => ?_) (.of_orStops (inner.reads n reports))
    simp only [List.mem_cons, List.not_mem_nil, or_false] at hk
    rcases hk with hk | hk | hk | hk | hk <;> rw [hk] at ht <;> cases ht
  | .print hword inner hclose =>
    exact .congr (readStatement_print rfl hword) (attains_readPrint inner hclose n)
  | @StmtPhrase.block _ ts _ r _ hl inner hr =>
    have hbody := fun n => inner.attains closesBlock rfl (by simp [closesBlock, or_comm])
      ⟨r, rs, rfl, by rw [hr]; rfl⟩ (exists_eof_of_suffix (List.suffix_cons r rs) hend) n reports
      (Nat.le_refl ts.length)
    exact .congr (readStatement_block rfl hl) (.map _ (attains_readBlock hr hbody n))
  | .ifThen hword hl hcondition hr hthen =>
    have hthen := fun n => hthen.attains (fun _ => hno rfl) hend n reports
    have hrs := List.ne_nil_of_mem hend.choose_spec.1
    exact .congr (readStatement_if rfl hword)
      (attains_readIf_ifThen hl hcondition hr hthen (hno rfl) hrs n)
  | .ifElse hword hl hcondition hr hthen hother helse =>
    have hthen := fun n => hthen.attains (by simp)
      (exists_eof_of_suffix (suffix_behind helse.suffix) hend) n reports
    have helse := fun n => helse.attains hno hend n reports
    exact .congr (readStatement_if rfl hword)
      (attains_readIf_ifElse hl hcondition hr hthen hother helse n)
  | .whileLoop hword hl hcondition hr hbody =>
    have hbody := fun n => hbody.attains hno hend n reports
    exact .congr (readStatement_while rfl hword) (attains_readWhile hl hcondition hr hbody n)
  | .forLoop hword hl hinitializer hcondition hclose hincrement hr hbody =>
    have hbody := fun n => hbody.attains hno hend n reports
    exact .congr (readStatement_for rfl hword)
      (attains_readFor hl hinitializer hcondition hclose hincrement hr hbody n)

/-- Every sequence of declarations is read, unless nesting gets too deep. -/
theorem SequencePhrase.attains {ts rs : List Token} {ss : List Stmt} (h : SequencePhrase ts ss rs)
    (closes : Kind → Bool) (hc : closes .eof = true)
    (hcloses : ∀ k, closes k = true → k = .eof ∨ k = .rightBrace)
    (hrs : ∃ close r, rs = close :: r ∧ closes close.kind = true)
    (hend : ∃ t ∈ rs, t.kind = .eof) (n : Nat) (reports : List Report) {bound : List Token}
    (hb : ts.length ≤ bound.length) :
    Attains (gather closes (readDeclaration n) bound) ⟨ts, reports⟩ ss ⟨rs, reports⟩ := by
  match h with
  | .nil =>
    obtain ⟨close, r, rfl, hclose⟩ := hrs
    exact attains_gather_nil hclose hb
  | .variable hword first rest =>
    have hfirst := attains_readDeclaration_variable hword first
      (exists_eof_of_suffix rest.suffix hend) n reports
    refine attains_gather_cons hc ?_ hb hfirst fun bound hb => ?_
    · exact closes_eq_false hcloses (by rw [hword]; decide) (by rw [hword]; decide)
    · exact rest.attains closes hc hcloses hrs hend n reports hb
  | .statement first rest =>
    have hends := exists_eof_of_suffix rest.suffix hend
    have hno : NoElse rs := by
      obtain ⟨close, r, rfl, hclose⟩ := hrs
      intro t r' ht hk
      rw [(List.cons.inj ht).1] at hclose
      rcases hcloses _ hclose with h | h <;> rw [hk] at h <;> cases h
    have hstmt := first.attains fun _ => rest.noElse hno
    obtain ⟨t, r', rfl, ht⟩ := first.starts
    have hfirst := attains_readDeclaration_statement ht (exists_eof_of_suffix first.suffix hends)
      (fun n => hstmt hends n reports) n
    refine attains_gather_cons hc ?_ hb hfirst fun bound hb => ?_
    · refine closes_eq_false hcloses ?_ ?_ <;> intro hk <;> rw [hk] at ht <;> cases ht
    · exact rest.attains closes hc hcloses hrs hend n reports hb

end

end Lox.Grammar

namespace Lox

open Grammar

/-! ## Programs -/

/-- While the tokens were read, nesting was never too deep. -/
def Parse.WithinNesting (p : Parse) : Prop := ∀ t, Report.atToken t .tooDeep ∉ p.reports

variable {ts : List Token} {e : Token} {program : List Stmt}

/-- What the rule reads is the program, and what it reports are the reports. -/
theorem parse_of_readProgram {tokens : List Token} {t : Token} {s : Reading} (ht : t ∈ tokens)
    (h : readProgram nestingLimit ⟨tokens, []⟩ = .ok program s) :
    parse tokens = ⟨some program, s.reports⟩ := by
  unfold parse
  rw [closed_of_mem ht, h]

/-- Reading tokens with an end among them is reading a program in full. -/
theorem exists_parse_eq {tokens : List Token} (h : ∃ t ∈ tokens, t.kind = .eof) :
    ∃ program s, readProgram nestingLimit ⟨tokens, []⟩ = .ok program s ∧
      parse tokens = ⟨some program, s.reports⟩ := by
  obtain ⟨program, s, hr⟩ := exists_readProgram_eq_ok h
  obtain ⟨t, ht, -⟩ := h
  exact ⟨program, s, hr, parse_of_readProgram ht hr⟩

/-- If nesting has been too deep, it has been reported. -/
theorem not_overflows_of_withinNesting {tokens : List Token} (h : ∃ t ∈ tokens, t.kind = .eof)
    (hn : (parse tokens).WithinNesting) :
    ¬ Overflows (readProgram nestingLimit ⟨tokens, []⟩) := by
  obtain ⟨program, s, hr, hp⟩ := exists_parse_eq h
  rw [hr]
  rw [hp] at hn
  rintro (⟨_, h⟩ | ⟨t, ht⟩)
  · cases h
  · exact hn t ht

/-- What the rule attains is the program, unless nesting gets too deep. -/
theorem parse_of_attains {tokens : List Token} {s : Reading} (h : ∃ t ∈ tokens, t.kind = .eof)
    (hn : (parse tokens).WithinNesting)
    (ha : Attains (readProgram nestingLimit) ⟨tokens, []⟩ program s) :
    parse tokens = ⟨some program, s.reports⟩ := by
  rcases ha with ha | ha
  · obtain ⟨t, ht, -⟩ := h
    exact parse_of_readProgram ht ha
  · exact absurd ha (not_overflows_of_withinNesting h hn)

/-- What is read without a report is a sequence of declarations up to an end. -/
theorem exists_sequencePhrase_of_parse {tokens : List Token}
    (h : parse tokens = ⟨some program, []⟩) :
    ∃ e r, e.kind = .eof ∧ SequencePhrase (closed tokens) program (e :: r) := by
  unfold parse at h
  cases hr : readProgram nestingLimit ⟨closed tokens, []⟩ with
  | error stop s =>
    rw [hr] at h
    cases h
  | ok program' s =>
    rw [hr] at h
    obtain ⟨hp, hs⟩ := Parse.mk.inj h
    obtain rfl := Option.some.inj hp
    exact sequencePhrase_of_readProgram hr (by simp [Reading.count, hs])

/-- Without a report, what is read up to the only end is a sequence of declarations. -/
theorem sequencePhrase_of_parse (he : e.kind = .eof) (hts : ∀ t ∈ ts, t.kind ≠ .eof)
    (h : (parse (ts ++ [e])).reports = []) :
    ∃ program, parse (ts ++ [e]) = ⟨some program, []⟩ ∧
      SequencePhrase (ts ++ [e]) program [e] := by
  obtain ⟨program, s, -, hp⟩ :=
    exists_parse_eq ⟨e, List.mem_append_right ts (List.mem_singleton_self _), he⟩
  have hp : parse (ts ++ [e]) = ⟨some program, []⟩ := by
    rw [hp] at h ⊢
    exact congrArg _ h
  obtain ⟨e', r, he', hseq⟩ := exists_sequencePhrase_of_parse hp
  rw [closed_of_mem (List.mem_append_right ts (List.mem_singleton_self e))] at hseq
  refine ⟨program, hp, ?_⟩
  -- there is but one end, so nothing is behind it
  obtain ⟨w, hw⟩ : (e' :: r) <:+ ts ++ [e] := hseq.suffix
  have hr : r = [] := by
    rcases List.eq_nil_or_concat r with hr | ⟨r', u, rfl⟩
    · exact hr
    · have hmem : e' ∈ ts := by
        have hw' : (w ++ e' :: r') ++ [u] = ts ++ [e] := by
          rw [← hw, List.concat_eq_append, List.append_assoc, List.cons_append]
        rw [← (List.append_inj' hw' rfl).1]
        exact List.mem_append_right _ List.mem_cons_self
      exact absurd he' (hts e' hmem)
  subst hr
  obtain ⟨-, hee⟩ := List.append_inj' hw rfl
  exact hee ▸ hseq

/-- A sequence of declarations up to an end is read without a report, unless nesting gets too
deep. -/
theorem parse_of_sequencePhrase (he : e.kind = .eof)
    (hn : (parse (ts ++ [e])).WithinNesting) (h : SequencePhrase (ts ++ [e]) program [e]) :
    parse (ts ++ [e]) = ⟨some program, []⟩ := by
  have hattains := h.attains (· = .eof) (by simp) (fun k hk => Or.inl (by simpa using hk))
    ⟨e, [], rfl, by simp [he]⟩ ⟨e, List.mem_singleton_self _, he⟩ nestingLimit []
    (Nat.le_refl (ts ++ [e]).length)
  exact parse_of_attains ⟨e, List.mem_append_right ts (List.mem_singleton_self _), he⟩ hn
    (.congr rfl hattains)

end Lox
