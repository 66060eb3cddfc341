import Lox.Proofs.Grammar.Close

/-!
# Attempts at one statement

An attempt is a row of tokens that a semicolon ends, with no other semicolon, no braces, and no word
that begins a statement but the first.  Whether it is a statement or not, reading takes all of it and
nothing behind it (`exists_readDeclaration_attempt`): a rule stops before it has come to the
semicolon (`Settles`), and recovery goes on behind that.
-/

namespace Lox.Grammar

open Computing

variable {α β : Type} {s s' s'' : Reading} {f : Frame} {t : Token} {r : List Token}
  {kinds : List Kind} {stop : Stop}

/-! ## Rules that read no semicolon -/

/-- No semicolon is between one place and the other. -/
def Reading.Spares (s s' : Reading) : Prop :=
  ∃ w, s.ahead = w ++ s'.ahead ∧ ∀ t ∈ w, t.kind ≠ .semicolon

namespace Reading.Spares

theorem of_eq (h : s'.ahead = s.ahead) : s.Spares s' := ⟨[], h.symm, by simp⟩

theorem of_read (h : s.ahead = t :: s'.ahead) (ht : t.kind ≠ .semicolon) : s.Spares s' :=
  ⟨[t], h, by simpa using ht⟩

theorem trans (h : s.Spares s') (h' : s'.Spares s'') : s.Spares s'' := by
  obtain ⟨w, hw, hne⟩ := h
  obtain ⟨w', hw', hne'⟩ := h'
  refine ⟨w ++ w', by rw [hw, hw', List.append_assoc], fun t ht => ?_⟩
  rcases List.mem_append.1 ht with ht | ht
  · exact hne t ht
  · exact hne' t ht

end Reading.Spares

/-- The rule goes forward over tokens that are no semicolons. -/
structure Spares (rule : Rule α) : Prop where
  orderly : Orderly rule
  spares : ∀ s : Reading, s.Spares (endState (rule s))

section Steps

theorem spares_pure (a : α) : Spares (pure a : Rule α) := ⟨orderly_pure a, fun _ => .of_eq rfl⟩

theorem spares_throw_tooDeep : Spares (throw .tooDeep : Rule α) :=
  ⟨orderly_throw_tooDeep, fun _ => .of_eq rfl⟩

/-- A composed rule reads no semicolon from here if its parts do not. -/
theorem Reading.Spares.bind {x : Rule α} {next : α → Rule β} (hx : s.Spares (endState (x s)))
    (hn : ∀ a s₁, x s = .ok a s₁ → s₁.Spares (endState (next a s₁))) :
    s.Spares (endState ((x >>= next) s)) := by
  cases hr : x s with
  | ok a s₁ =>
    rw [hr] at hx
    rw [bind_of_ok hr]
    exact hx.trans (hn a s₁ hr)
  | error stop s₁ =>
    rw [hr] at hx
    rw [bind_of_error hr]
    exact hx

theorem Spares.bind {x : Rule α} {next : α → Rule β} (hx : Spares x) (hn : ∀ a, Spares (next a)) :
    Spares (x >>= next) where
  orderly := hx.orderly.bind fun a => (hn a).orderly
  spares s := (hx.spares s).bind fun a s₁ _ => (hn a).spares s₁

theorem spares_accept (hk : .semicolon ∉ kinds) : Spares (accept kinds) where
  orderly := orderly_accept
  spares s := by
    cases hr : accept kinds s with
    | ok o s₁ =>
      cases o with
      | none =>
        obtain ⟨rfl, -⟩ := accept_eq_none.1 hr
        exact .of_eq rfl
      | some t =>
        obtain ⟨hs, -, -, hmem⟩ := accept_eq_some.1 hr
        exact .of_read hs fun ht => hk (ht ▸ hmem)
    | error stop s₁ =>
      obtain ⟨-, rfl, -⟩ := accept_eq_error.1 hr
      exact .of_eq rfl

theorem spares_report {n : Nat} (t : Token) (fault : Fault) : Spares (report n t fault) :=
  ⟨orderly_report t fault, fun _ => .of_eq ahead_endState_report⟩

theorem spares_fail {n : Nat} (fault : Fault) : Spares (fail n fault : Rule α) :=
  ⟨orderly_fail fault, fun _ => .of_eq ahead_endState_fail⟩

theorem spares_expect {n : Nat} {e : Expectation} (he : e.kind ≠ .semicolon) :
    Spares (expect n e) := by
  refine (spares_accept (by simpa using he.symm)).bind fun o => ?_
  cases o with
  | none => exact ⟨orderly_failBelow _, fun _ => .of_eq ahead_endState_failBelow⟩
  | some t => exact spares_pure t

theorem spares_chain {operators : List Kind} {join : Expr → Token → Expr → Expr}
    {operand : Rule Expr} (hk : .semicolon ∉ operators) (h : Spares operand) (bound : List Token)
    (left : Expr) (s : Reading) :
    s.Spares (endState (chain operators join operand bound left s)) := by
  induction bound generalizing left s with
  | nil => exact .of_eq rfl
  | cons _ bound ih =>
    unfold chain
    refine ((spares_accept hk).spares s).bind fun o s₁ _ => ?_
    cases o with
    | none => exact .of_eq rfl
    | some operator => exact (h.spares s₁).bind fun right s₂ _ => ih _ s₂

theorem spares_leftJoined {operators : List Kind} {join : Expr → Token → Expr → Expr}
    {operand : Rule Expr} (hk : .semicolon ∉ operators) (h : Spares operand) :
    Spares (leftJoined operators join operand) where
  orderly := orderly_leftJoined h.orderly
  spares s := (h.spares s).bind fun first s₁ _ => spares_chain hk h s₁.ahead first s₁

end Steps

theorem spares_primary {n : Nat} (ih : ∀ tier, Spares (readTier n tier)) :
    Spares (readTier (n + 1) .primary) where
  orderly := orderly_readTier (n + 1) .primary
  spares s := by
    cases hs : s.ahead with
    | nil =>
      unfold readTier
      rw [bind_of_error (peek_eq_error.2 ⟨rfl, rfl, hs⟩)]
      exact .of_eq rfl
    | cons t r =>
      by_cases hname : t.kind = .identifier
      · rw [readTier_reference hs hname]
        exact .of_read hs (by simp [hname])
      by_cases hparen : t.kind = .leftParen
      · rw [readTier_grouping hs hparen]
        have hread : s.Spares { s with ahead := r } := .of_read hs (by simp [hparen])
        exact hread.trans (((ih .expression).bind fun inner =>
          (spares_expect (by decide)).bind fun _ => spares_pure (Expr.grouping inner)).spares _)
      cases hv : t.value? with
      | some v =>
        rw [readTier_literal hs hv]
        refine .of_read hs fun hk => ?_
        simp [Token.value?, hk] at hv
      | none =>
        rw [readTier_noExpression hs hv hname hparen]
        exact (spares_fail .noExpression).spares s

/-- Rules for expressions read no semicolon. -/
theorem spares_readTier (n : Nat) (tier : Tier) : Spares (readTier n tier) := by
  induction n generalizing tier with
  | zero => exact spares_throw_tooDeep
  | succ n ih =>
    cases tier with
    | expression => exact ih .assignment
    | assignment =>
      unfold readTier
      refine (ih .or).bind fun target => (spares_accept (by decide)).bind fun o => ?_
      cases o with
      | none => exact spares_pure target
      | some equal =>
        refine (ih .assignment).bind fun value => ?_
        split
        · exact spares_pure _
        · exact (spares_report equal .badTarget).bind fun _ => spares_pure target
    | or => exact spares_leftJoined (by decide) (ih .and)
    | and => exact spares_leftJoined (by decide) (ih .equality)
    | equality => exact spares_leftJoined (by decide) (ih .comparison)
    | comparison => exact spares_leftJoined (by decide) (ih .term)
    | term => exact spares_leftJoined (by decide) (ih .factor)
    | factor => exact spares_leftJoined (by decide) (ih .unary)
    | unary =>
      unfold readTier
      refine (spares_accept (by decide)).bind fun o => ?_
      cases o with
      | none => exact ih .primary
      | some operator => exact (ih .unary).bind fun e => spares_pure _
    | primary => exact spares_primary ih

theorem spares_readExpression (n : Nat) : Spares (readExpression n) := spares_readTier n .expression

/-! ## Rules that stop before a semicolon or end behind it -/

/-- Tokens up to their only semicolon, with nothing in front of it that starts a block or the clauses
of a loop. -/
def UpToSemicolon (ts : List Token) : Prop :=
  ∃ v c, ts = v ++ [c] ∧ c.kind = .semicolon ∧
    ∀ t ∈ v, t.kind ∉ [Kind.semicolon, .leftBrace, .forWord]

namespace UpToSemicolon

variable {ts : List Token}

theorem ne_nil (h : UpToSemicolon ts) : ts ≠ [] := by
  obtain ⟨v, c, rfl, -⟩ := h
  exact List.append_ne_nil_of_right_ne_nil v (List.cons_ne_nil c [])

/-- What is left of such tokens when some that are no semicolons are gone. -/
theorem of_append {w us vs : List Token} (h : UpToSemicolon ts) (hw : ts ++ us = w ++ vs)
    (hne : ∀ t ∈ w, t.kind ≠ .semicolon) :
    ∃ rest, vs = rest ++ us ∧ ts = w ++ rest ∧ UpToSemicolon rest := by
  obtain ⟨v, c, rfl, hc, hv⟩ := h
  rw [List.append_assoc] at hw
  rcases List.append_eq_append_iff.1 hw with ⟨x, rfl, hx⟩ | ⟨x, rfl, rfl⟩
  · cases x with
    | nil => exact ⟨[c], hx.symm, by simp, [], c, rfl, hc, by simp⟩
    | cons t x =>
      obtain ⟨rfl, -⟩ := List.cons.inj hx
      exact absurd hc (hne c (by simp))
  · exact ⟨x ++ [c], by simp, by simp, x, c, rfl, hc, fun t ht => hv t (by simp [ht])⟩

theorem of_cons (h : UpToSemicolon (t :: r)) (ht : t.kind ≠ .semicolon) : UpToSemicolon r := by
  have hsplit : t :: r ++ [] = [t] ++ r := by simp
  obtain ⟨rest, -, hr, hrest⟩ := h.of_append hsplit (by simpa using ht)
  obtain ⟨-, rfl⟩ := List.cons.inj hr
  exact hrest

theorem eq_nil_of_semicolon (h : UpToSemicolon (t :: r)) (ht : t.kind = .semicolon) : r = [] := by
  obtain ⟨v, c, hr, hc, hv⟩ := h
  cases v with
  | nil => exact (List.cons.inj hr).2
  | cons u v =>
    obtain ⟨rfl, -⟩ := List.cons.inj hr
    exact absurd (by simp [ht]) (hv t List.mem_cons_self)

/-- Nothing but a semicolon stands in their place if it begins a block or the clauses of a loop. -/
theorem kind_head (h : UpToSemicolon (t :: r)) : t.kind ∉ [Kind.leftBrace, .forWord] := by
  obtain ⟨v, c, hr, hc, hv⟩ := h
  cases v with
  | nil =>
    obtain ⟨rfl, -⟩ := List.cons.inj hr
    simp [hc]
  | cons u v =>
    obtain ⟨rfl, -⟩ := List.cons.inj hr
    exact fun hk => hv t List.mem_cons_self (List.mem_cons_of_mem _ hk)

end UpToSemicolon

/-- What is reached over tokens of its own is a reading in the frame again. -/
theorem Reading.Leads.exists_within {v : List Token} (h : (s.within f).Leads s')
    (hv : s'.ahead = v ++ f.behind) : ∃ s₁ : Reading, s' = s₁.within f ∧ s₁.ahead = v := by
  obtain ⟨-, more, hmore⟩ := h
  obtain ⟨ahead, reports⟩ := s'
  refine ⟨⟨v, s.reports ++ more⟩, ?_, rfl⟩
  simp only [Reading.within, Reading.mk.injEq]
  exact ⟨hv, hmore.symm.trans (List.append_assoc _ _ _)⟩

/-- A rule that reads no semicolon stays in front of the next one. -/
theorem Spares.exists_within {rule : Rule α} (h : Spares rule) (hs : UpToSemicolon s.ahead)
    (f : Frame) : ∃ s' : Reading, endState (rule (s.within f)) = s'.within f ∧
      UpToSemicolon s'.ahead ∧ s'.ahead <:+ s.ahead := by
  obtain ⟨w, hw, hne⟩ := h.spares (s.within f)
  obtain ⟨rest, hrest, hs', hup⟩ := hs.of_append hw hne
  obtain ⟨s', hwithin, rfl⟩ := (h.orderly _).leads.exists_within hrest
  exact ⟨s', hwithin, hup, w, hs'.symm⟩

/-- In front of a semicolon the rule ends right behind it, or it stops before it. -/
structure Settles (rule : Rule α) : Prop where
  ok : ∀ {f : Frame} {s : Reading} {a s₁}, f.Follows → UpToSemicolon s.ahead →
    rule (s.within f) = .ok a s₁ → s₁.ahead = f.behind
  error : ∀ {f : Frame} {s : Reading} {stop s₁}, f.Follows → UpToSemicolon s.ahead →
    rule (s.within f) = .error stop s₁ →
      ∃ s' : Reading, s₁ = s'.within f ∧ UpToSemicolon s'.ahead ∧ s'.ahead <:+ s.ahead

theorem settles_throw_tooDeep : Settles (throw .tooDeep : Rule α) where
  ok _ _ h := absurd h throw_ne_ok
  error _ hs h := by
    obtain ⟨-, rfl⟩ := throw_eq_error.1 h
    exact ⟨_, rfl, hs, List.suffix_rfl⟩

/-- A part that reads no semicolon can come first. -/
theorem Spares.bind_settles {x : Rule α} {next : α → Rule β} (hx : Spares x)
    (hn : ∀ a, Settles (next a)) : Settles (x >>= next) where
  ok {f s b s₂} hf hs h := by
    obtain ⟨a, s₁, ha, hb⟩ := bind_eq_ok.1 h
    obtain ⟨s', hs', hup, -⟩ := hx.exists_within hs f
    rw [ha] at hs'
    obtain rfl : s₁ = s'.within f := hs'
    exact (hn a).ok hf hup hb
  error {f s stop s₂} hf hs h := by
    obtain ⟨s', hs', hup, hsuffix⟩ := hx.exists_within hs f
    rcases bind_eq_error.1 h with ha | ⟨a, s₁, ha, hb⟩
    · rw [ha] at hs'
      exact ⟨s', hs', hup, hsuffix⟩
    · rw [ha] at hs'
      obtain rfl : s₁ = s'.within f := hs'
      obtain ⟨s'', hs'', hup', hsuffix'⟩ := (hn a).error hf hup hb
      exact ⟨s'', hs'', hup', hsuffix'.trans hsuffix⟩

/-- What leaves the tokens behind the semicolon as they are can come last. -/
theorem Settles.bind {x : Rule α} {next : α → Rule β} (hx : Settles x)
    (hn : ∀ a s, s.ahead ≠ [] → NoElse s.ahead → ∃ b, next a s = .ok b s) :
    Settles (x >>= next) where
  ok {f s b s₂} hf hs h := by
    obtain ⟨a, s₁, ha, hb⟩ := bind_eq_ok.1 h
    have hs₁ := hx.ok hf hs ha
    obtain ⟨b', hb'⟩ := hn a s₁ (hs₁ ▸ hf.1) (hs₁ ▸ hf.2)
    obtain ⟨-, rfl⟩ := EStateM.Result.ok.inj (hb'.symm.trans hb)
    exact hs₁
  error {f s stop s₂} hf hs h := by
    rcases bind_eq_error.1 h with ha | ⟨a, s₁, ha, hb⟩
    · exact hx.error hf hs ha
    · have hs₁ := hx.ok hf hs ha
      obtain ⟨b', hb'⟩ := hn a s₁ (hs₁ ▸ hf.1) (hs₁ ▸ hf.2)
      rw [hb'] at hb
      cases hb

theorem Settles.bind_pure {x : Rule α} (hx : Settles x) (g : α → β) :
    Settles (do let a ← x; return g a) :=
  hx.bind fun a _ _ _ => ⟨g a, rfl⟩

/-- The semicolon itself can be expected. -/
theorem settles_expect {n : Nat} {e : Expectation} (he : e.kind = .semicolon) :
    Settles (expect n e) where
  ok {f s t s₁} _ hs h := by
    obtain ⟨ahead, reports⟩ := s
    obtain ⟨u, r, rfl⟩ := List.exists_cons_of_ne_nil hs.ne_nil
    obtain ⟨hs₁, -, hk⟩ := expect_eq_ok.1 h
    obtain ⟨rfl, hbehind⟩ := List.cons.inj hs₁
    obtain rfl := hs.eq_nil_of_semicolon (hk.trans he)
    exact hbehind.symm
  error {f s stop s₁} _ hs h := by
    have hsame : s₁.ahead = s.ahead ++ f.behind := by
      rcases bind_eq_error.1 h with h | ⟨o, s', ho, h⟩
      · obtain ⟨-, rfl, -⟩ := accept_eq_error.1 h
        rfl
      · cases o with
        | some t => exact absurd h pure_ne_error
        | none =>
          obtain ⟨rfl, -⟩ := accept_eq_none.1 ho
          have hahead := congrArg (fun result => (endState result).ahead) h
          exact hahead.symm.trans ahead_endState_failBelow
    obtain ⟨s', rfl, hs'⟩ := ((orderly_expect e _).error h).1.exists_within hsame
    exact ⟨s', rfl, hs' ▸ hs, hs' ▸ List.suffix_rfl⟩

theorem settles_readVariable (n : Nat) : Settles (readVariable n) := by
  cases n with
  | zero => exact settles_throw_tooDeep
  | succ n =>
    unfold readVariable
    refine (spares_expect (by decide)).bind_settles fun name =>
      (spares_accept (by decide)).bind_settles fun o => ?_
    cases o with
    | none =>
      exact (spares_pure none).bind_settles fun initializer =>
        (settles_expect rfl).bind_pure fun _ => Stmt.declare name initializer
    | some equal =>
      exact ((spares_readExpression n).bind fun e => spares_pure (some e)).bind_settles
        fun initializer => (settles_expect rfl).bind_pure fun _ => Stmt.declare name initializer

theorem settles_readPrint (n : Nat) : Settles (readPrint n) := by
  cases n with
  | zero => exact settles_throw_tooDeep
  | succ n =>
    exact (spares_readExpression n).bind_settles fun e =>
      (settles_expect rfl).bind_pure fun _ => Stmt.print e

theorem settles_readEffect (n : Nat) : Settles (readEffect n) := by
  cases n with
  | zero => exact settles_throw_tooDeep
  | succ n =>
    exact (spares_readExpression n).bind_settles fun e =>
      (settles_expect rfl).bind_pure fun _ => Stmt.expression e

/-- What is kept at one depth: the rules for statements settle, but for those that read more than one
semicolon. -/
structure SettlesStatements (n : Nat) : Prop where
  statement : Settles (readStatement n)
  conditional : Settles (readIf n)
  whileLoop : Settles (readWhile n)

namespace SettlesStatements

variable {n : Nat} (h : SettlesStatements n)

theorem zero : SettlesStatements 0 where
  statement := settles_throw_tooDeep
  conditional := settles_throw_tooDeep
  whileLoop := settles_throw_tooDeep

include h

/-- In front of a semicolon, a statement is what its first word says, or an expression. -/
theorem exists_readStatement (hs : UpToSemicolon s.ahead) (f : Frame) :
    ∃ (rule : Rule Stmt) (s' : Reading), readStatement (n + 1) (s.within f) = rule (s'.within f) ∧
      Settles rule ∧ UpToSemicolon s'.ahead ∧ s'.ahead <:+ s.ahead := by
  obtain ⟨ahead, reports⟩ := s
  obtain ⟨t, r, rfl⟩ := List.exists_cons_of_ne_nil hs.ne_nil
  have hahead : (Reading.within ⟨t :: r, reports⟩ f).ahead = t :: (r ++ f.behind) := rfl
  have hword : ∀ {k : Kind}, t.kind = k → k ≠ .semicolon → UpToSemicolon r :=
    fun ht hk => hs.of_cons (ht ▸ hk)
  have hkind := hs.kind_head
  by_cases hprint : t.kind = .printWord
  · exact ⟨readPrint n, ⟨r, reports⟩, readStatement_print hahead hprint, settles_readPrint n,
      hword hprint (by decide), List.suffix_cons t r⟩
  by_cases hif : t.kind = .ifWord
  · exact ⟨readIf n, ⟨r, reports⟩, readStatement_if hahead hif, h.conditional,
      hword hif (by decide), List.suffix_cons t r⟩
  by_cases hwhile : t.kind = .whileWord
  · exact ⟨readWhile n, ⟨r, reports⟩, readStatement_while hahead hwhile, h.whileLoop,
      hword hwhile (by decide), List.suffix_cons t r⟩
  · have hk : t.kind ∉ [Kind.printWord, .ifWord, .whileWord, .forWord, .leftBrace] := by
      simp only [List.mem_cons, List.not_mem_nil, or_false, not_or] at hkind ⊢
      exact ⟨hprint, hif, hwhile, hkind.2, hkind.1⟩
    exact ⟨readEffect n, ⟨t :: r, reports⟩, readStatement_effect hahead hk, settles_readEffect n, hs,
      List.suffix_rfl⟩

theorem statement_succ : Settles (readStatement (n + 1)) where
  ok {f s a s₁} hf hs hr := by
    obtain ⟨rule, s', heq, hrule, hs', -⟩ := h.exists_readStatement hs f
    rw [heq] at hr
    exact hrule.ok hf hs' hr
  error {f s stop s₁} hf hs hr := by
    obtain ⟨rule, s', heq, hrule, hs', hsuffix⟩ := h.exists_readStatement hs f
    rw [heq] at hr
    obtain ⟨s'', hs'', hup, hsuffix'⟩ := hrule.error hf hs' hr
    exact ⟨s'', hs'', hup, hsuffix'.trans hsuffix⟩

theorem conditional_succ : Settles (readIf (n + 1)) := by
  unfold readIf
  refine (spares_expect (by decide)).bind_settles fun _ =>
    (spares_readExpression n).bind_settles fun condition =>
    (spares_expect (by decide)).bind_settles fun _ => h.statement.bind fun thenBranch s hne hno => ?_
  obtain ⟨t, r, hs⟩ := List.exists_cons_of_ne_nil hne
  rw [bind_of_ok (accept_of_not_mem hs (by simpa using hno t r hs))]
  exact ⟨.ifThen condition thenBranch, rfl⟩

theorem whileLoop_succ : Settles (readWhile (n + 1)) :=
  (spares_expect (by decide)).bind_settles fun _ =>
    (spares_readExpression n).bind_settles fun condition =>
    (spares_expect (by decide)).bind_settles fun _ =>
    h.statement.bind_pure fun body => Stmt.loop condition body

omit h in
theorem all (n : Nat) : SettlesStatements n := by
  induction n with
  | zero => exact zero
  | succ n ih =>
    exact {
      statement := ih.statement_succ
      conditional := ih.conditional_succ
      whileLoop := ih.whileLoop_succ }

end SettlesStatements

theorem settles_declared (n : Nat) : Settles (declared n) := by
  refine (spares_accept (by decide)).bind_settles fun o => ?_
  cases o with
  | none => exact (SettlesStatements.all n).statement
  | some t => exact settles_readVariable n

/-! ## Attempts -/

/-- An attempt at one statement: a semicolon at its end and nowhere else, no braces, no word that
begins a statement but the first, and that is no `for`. -/
structure Attempt (ts : List Token) : Prop where
  ends : ∃ v c, ts = v ++ [c] ∧ c.kind = .semicolon ∧ ∀ t ∈ v, t.kind ≠ .semicolon
  noBrace : ∀ t ∈ ts, t.kind ≠ .leftBrace ∧ t.kind ≠ .rightBrace
  noWord : ∀ t ∈ ts.tail, ¬ t.kind.startsStatement
  noLoop : ∀ t r, ts = t :: r → t.kind ≠ .forWord

theorem mem_tail_of_suffix {us ts : List Token} (h : us <:+ ts) (ht : t ∈ us.tail) :
    t ∈ ts.tail := by
  obtain ⟨w, rfl⟩ := h
  cases w with
  | nil => exact ht
  | cons u w => exact List.mem_append_right w (List.mem_of_mem_tail ht)

theorem Attempt.upToSemicolon {ts : List Token} (h : Attempt ts) : UpToSemicolon ts := by
  obtain ⟨v, c, rfl, hc, hv⟩ := h.ends
  refine ⟨v, c, rfl, hc, fun t ht => ?_⟩
  have hfor : t.kind ≠ .forWord := by
    cases v with
    | nil => exact absurd ht List.not_mem_nil
    | cons u v =>
      rcases List.mem_cons.1 ht with rfl | ht
      · exact h.noLoop t _ rfl
      · exact fun hk => h.noWord t (List.mem_append_left _ ht) (hk ▸ rfl)
  simp only [List.mem_cons, List.not_mem_nil, or_false, not_or]
  exact ⟨hv t ht, (h.noBrace t (List.mem_append_left _ ht)).1, hfor⟩

/-- The boundary behind a fault is right behind the next semicolon. -/
theorem dropToBoundary_of_upToSemicolon {last : Token} {ts us : List Token}
    (h : UpToSemicolon (last :: ts)) (hus : us ≠ [])
    (hts : ∀ t ∈ ts, t.kind ≠ .eof ∧ ¬ t.kind.startsStatement) :
    dropToBoundary last (ts ++ us) = us := by
  induction ts generalizing last with
  | nil =>
    obtain ⟨v, c, hv, hc, -⟩ := h
    obtain rfl : last = c := by simpa using congrArg List.getLast? hv
    obtain ⟨u, us, rfl⟩ := List.exists_cons_of_ne_nil hus
    exact if_pos (Or.inr (Or.inl hc))
  | cons t ts ih =>
    have hlast : last.kind ≠ .semicolon := fun hk =>
      List.cons_ne_nil t ts (h.eq_nil_of_semicolon hk)
    obtain ⟨heof, hstart⟩ := hts t List.mem_cons_self
    have hdrop : dropToBoundary last (t :: ts ++ us) = dropToBoundary t (ts ++ us) :=
      if_neg (by simp [heof, hlast, hstart])
    rw [hdrop]
    exact ih (h.of_cons hlast) fun u hu => hts u (List.mem_cons_of_mem t hu)

theorem afterFault_of_upToSemicolon {ts us : List Token} (h : UpToSemicolon ts) (hus : us ≠ [])
    (heof : ∀ t ∈ ts, t.kind ≠ .eof) (hstart : ∀ t ∈ ts.tail, ¬ t.kind.startsStatement) :
    afterFault (ts ++ us) = us := by
  obtain ⟨t, r, rfl⟩ := List.exists_cons_of_ne_nil h.ne_nil
  have hdrop : afterFault (t :: r ++ us) = dropToBoundary t (r ++ us) :=
    if_neg (heof t List.mem_cons_self)
  rw [hdrop]
  exact dropToBoundary_of_upToSemicolon h hus fun u hu =>
    ⟨heof u (List.mem_cons_of_mem t hu), hstart u hu⟩

/-- A declaration takes all of these tokens, and nothing behind, with the same outcome wherever they
stand. -/
def Fills (ts : List Token) (o : Option Stmt) (reports : List Report) (item : Rule (Option Stmt)) :
    Prop :=
  ∀ f : Frame, f.Follows →
    item (Reading.within ⟨ts, []⟩ f) = .ok o ⟨f.behind, f.before ++ reports⟩

/-- An attempt fills a declaration, with or without a fault. -/
theorem Attempt.exists_fills {ts : List Token} (h : Attempt ts) (heof : ∀ t ∈ ts, t.kind ≠ .eof)
    (n : Nat) : ∃ o reports, Fills ts o reports (readDeclaration (n + 2)) := by
  -- the outcome is found with an end right behind the attempt
  obtain ⟨f₀, hf₀, hbefore⟩ : ∃ f₀ : Frame, f₀.Ends ∧ f₀.before = [] :=
    ⟨⟨[.eof 1], []⟩, ⟨.eof 1, [], rfl, rfl⟩, rfl⟩
  cases hr : declared (n + 1) (Reading.within ⟨ts, []⟩ f₀) with
  | ok stmt s₁ =>
    have hend := (settles_declared (n + 1)).ok hf₀.follows h.upToSemicolon hr
    refine ⟨some stmt, s₁.reports, fun f hf => ?_⟩
    obtain ⟨s', rfl, hr'⟩ := (closes_declared (ρ := .none) (n + 1)).fits f₀ f _ _ _ hf₀ hf hr
    have hnil : s'.ahead = [] := List.append_left_eq_self.1 hend
    rw [Reading.relabel_none, Reading.relabel_none, Stmt.relabel_none] at hr'
    rw [readDeclaration_succ, recover_of_ok hr', Reading.reports_within, hbefore, List.nil_append,
      Reading.within, hnil, List.nil_append]
  | error stop s₁ =>
    obtain ⟨s', rfl, hup, hsuffix⟩ := (settles_declared (n + 1)).error hf₀.follows h.upToSemicolon hr
    have hstop : stop ≠ .ranOut := by
      rintro rfl
      obtain ⟨e, r, hb, he⟩ := hf₀
      exact ((closes_declared (ρ := .none) (n + 1)).orderly _).error hr |>.2 ⟨e, by simp [hb], he⟩
    obtain ⟨t, r, ht⟩ := List.exists_cons_of_ne_nil hup.ne_nil
    refine ⟨none, s'.reports ++ stop.reportAt t, fun f hf => ?_⟩
    have hr' : declared (n + 1) (Reading.within ⟨ts, []⟩ f) = .error stop (s'.within f) := by
      have hagrees :=
        (UniformStatements.all (ρ := .none) (n + 1)).uniform_declared.agrees f₀ f ⟨ts, []⟩
      rcases (hr ▸ hagrees).error_cases with ⟨s'', hs'', hr'⟩ | hpast
      · rwa [Reading.within_injective hs'', ← Reading.relabel_none ⟨ts, []⟩,
          ← Reading.relabel_none s'']
      · have hle := hpast.length_le
        rw [Reading.ahead_within, ht, List.length_append, List.length_cons] at hle
        omega
    have hafter : afterFault (s'.within f).ahead = f.behind :=
      afterFault_of_upToSemicolon hup hf.1 (fun u hu => heof u (hsuffix.subset hu))
        fun u hu => h.noWord u (mem_tail_of_suffix hsuffix hu)
    rw [readDeclaration_succ, recover_of_error hr' hstop (fun _ => Nat.succ_ne_zero n) (t := t)
      (r := r ++ f.behind) (by simp [ht]) (hafter ▸ hf.1), hafter, Reading.reports_within,
      List.append_assoc]

end Lox.Grammar
