import Lox.Proofs.Grammar.Uniform

/-!
# Declarations close themselves

A declaration that is read up to an end and no further is read the same with other tokens in place
of the end (`closes_declared`).  It ends in a semicolon or a brace, and all that is looked at behind
them is whether an `else` follows.
-/

namespace Lox.Grammar

open Computing

variable {α β γ δ : Type} {ρ : Relabeling} {f f' : Frame} {s s' : Reading}

/-! ## Own tokens and an end behind them -/

/-- An end is right behind the tokens of its own. -/
def Frame.Ends (f : Frame) : Prop := ∃ e r, f.behind = e :: r ∧ e.kind = .eof

/-- Something is behind the tokens of its own, and it does not begin with an `else`. -/
def Frame.Follows (f : Frame) : Prop := f.behind ≠ [] ∧ NoElse f.behind

theorem noElse_cons {t : Token} {r : List Token} (h : t.kind ≠ .elseWord) : NoElse (t :: r) := by
  rintro u us hu
  obtain ⟨rfl, -⟩ := List.cons.inj hu
  exact h

theorem Frame.Ends.follows (h : f.Ends) : f.Follows := by
  obtain ⟨e, r, hf, he⟩ := h
  rw [Frame.Follows, hf]
  exact ⟨List.cons_ne_nil e r, noElse_cons (by simp [he])⟩

/-- Reading does not lead past the end behind the tokens of its own. -/
theorem Frame.Ends.length_le (hf : f.Ends) (h : (s.within f).Leads s') :
    f.behind.length ≤ s'.ahead.length := by
  obtain ⟨e, r, hf, he⟩ := hf
  obtain ⟨⟨w, hw, hne⟩, -⟩ := h
  rw [Reading.ahead_within, hf] at hw
  rcases List.append_eq_append_iff.1 hw with ⟨v, rfl, hv⟩ | ⟨v, hv, hv'⟩
  · cases v with
    | nil => exact Nat.le_of_eq (congrArg List.length (hf.trans hv))
    | cons t v =>
      obtain ⟨rfl, -⟩ := List.cons.inj hv
      exact absurd he (hne e (by simp))
  · rw [hv', hf, List.length_append]
    omega

/-! ## Rules that close themselves -/

/-- If the rule ends well in front of an end, it has kept to tokens of its own, and it ends the same
with other tokens in place of the end. -/
structure Fits (ρ : Relabeling) (g : α → β) (rule : Rule α) (rule' : Rule β) : Prop where
  orderly : Orderly rule
  fits : ∀ (f f' : Frame) (s : Reading) a s₁, f.Ends → f'.Follows →
    rule (s.within f) = .ok a s₁ → ∃ s' : Reading, s₁ = s'.within f ∧
      rule' ((s.relabel ρ).within f') = .ok (g a) ((s'.relabel ρ).within f')

/-- Besides, the rule takes a token. -/
structure Closes (ρ : Relabeling) (g : α → β) (rule : Rule α) (rule' : Rule β) : Prop
    extends Fits ρ g rule rule' where
  takes : Takes rule

section Steps

variable {g : α → β} {k : γ → δ}

theorem fits_pure (a : α) : Fits ρ g (pure a) (pure (g a)) where
  orderly := orderly_pure a
  fits f f' s a' s₁ _ _ h := by
    obtain ⟨rfl, rfl⟩ := pure_eq_ok.1 h
    exact ⟨s, rfl, rfl⟩

theorem closes_throw_tooDeep : Closes ρ g (throw .tooDeep) (throw .tooDeep) where
  orderly := orderly_throw_tooDeep
  fits _ _ _ _ _ _ _ h := absurd h throw_ne_ok
  takes := takes_throw _

theorem Fits.bind {x : Rule α} {x' : Rule β} {next : α → Rule γ} {next' : β → Rule δ}
    (hx : Fits ρ g x x') (hn : ∀ a, Fits ρ k (next a) (next' (g a))) :
    Fits ρ k (x >>= next) (x' >>= next') where
  orderly := hx.orderly.bind fun a => (hn a).orderly
  fits f f' s b s₂ hf hf' h := by
    obtain ⟨a, s₁, ha, hb⟩ := bind_eq_ok.1 h
    obtain ⟨s', rfl, hx'⟩ := hx.fits f f' s a s₁ hf hf' ha
    rw [bind_of_ok hx']
    exact (hn a).fits f f' s' b s₂ hf hf' hb

theorem Closes.bind {x : Rule α} {x' : Rule β} {next : α → Rule γ} {next' : β → Rule δ}
    (hx : Closes ρ g x x') (hn : ∀ a, Fits ρ k (next a) (next' (g a))) :
    Closes ρ k (x >>= next) (x' >>= next') where
  toFits := hx.toFits.bind hn
  takes := hx.takes.bind_left fun a => (hn a).orderly

/-- A part that may look at the token behind it can come first if a token must follow: the end
cannot be that one. -/
theorem Uniform.bind_closes {x : Rule α} {x' : Rule β} {next : α → Rule γ} {next' : β → Rule δ}
    (hx : Uniform ρ g x x') (hn : ∀ a, Closes ρ k (next a) (next' (g a))) :
    Closes ρ k (x >>= next) (x' >>= next') where
  orderly := hx.orderly.bind fun a => (hn a).orderly
  takes := Takes.bind_right hx.orderly fun a => (hn a).takes
  fits f f' s b s₂ hf hf' h := by
    obtain ⟨a, s₁, ha, hb⟩ := bind_eq_ok.1 h
    rcases (ha ▸ hx.agrees f f' s).ok_cases with ⟨s', rfl, hx'⟩ | hpast
    · rw [bind_of_ok hx']
      exact (hn a).fits f f' s' b s₂ hf hf' hb
    · have hle := hf.length_le (((hx.orderly _).ok ha).trans (((hn a).orderly _).ok hb))
      have hlt := (hn a).takes _ _ _ hb
      have hle' := hpast.length_le
      omega

theorem Closes.map {x : Rule α} {x' : Rule β} (hx : Closes ρ g x x') {h : α → γ} {h' : β → δ}
    (hk : ∀ a, h' (g a) = k (h a)) : Closes ρ k (h <$> x) (h' <$> x') :=
  hx.bind fun a => by
    show Fits ρ k (pure (h a)) (pure (h' (g a)))
    rw [hk]
    exact fits_pure (h a)

/-- A rule that takes a token can be looked at with tokens of its own only. -/
theorem closes_of_cons {rule : Rule α} {rule' : Rule β} (ho : Orderly rule) (ht : Takes rule)
    (h : ∀ (f f' : Frame) t r reports a s₁, f.Ends → f'.Follows →
      rule (Reading.within ⟨t :: r, reports⟩ f) = .ok a s₁ → ∃ s' : Reading, s₁ = s'.within f ∧
        rule' ((Reading.relabel ρ ⟨t :: r, reports⟩).within f') =
          .ok (g a) ((s'.relabel ρ).within f')) :
    Closes ρ g rule rule' where
  orderly := ho
  takes := ht
  fits f f' s a s₁ hf hf' hr := by
    obtain ⟨ahead, reports⟩ := s
    cases ahead with
    | nil =>
      have hle := hf.length_le ((ho _).ok hr)
      have hlt := ht _ _ _ hr
      rw [Reading.ahead_within, List.nil_append] at hlt
      omega
    | cons t r => exact h f f' t r reports a s₁ hf hf' hr

theorem closes_expect {n : Nat} (e : Expectation) :
    Closes ρ (Token.relabel ρ) (expect n e) (expect n e) := by
  refine closes_of_cons (orderly_expect e) (takes_expect e) fun f f' t r reports a s₁ _ _ h => ?_
  obtain ⟨hs, hr, hk⟩ := expect_eq_ok.1 h
  obtain ⟨rfl, hs⟩ := List.cons.inj hs
  refine ⟨⟨r, reports⟩, ?_, expect_of_ahead rfl hk⟩
  cases s₁
  cases hs
  cases hr
  rfl

/-- Whether an `else` is next may be asked in front of the end. -/
theorem fits_accept_else :
    Fits ρ (Option.map (Token.relabel ρ)) (accept [.elseWord]) (accept [.elseWord]) where
  orderly := orderly_accept
  fits f f' s a s₁ hf hf' h := by
    obtain ⟨ahead, reports⟩ := s
    cases ahead with
    | nil =>
      obtain ⟨e, r, hb, he⟩ := hf
      have hs : (Reading.within ⟨[], reports⟩ f).ahead = e :: r := hb
      rw [accept_of_eof hs he] at h
      obtain ⟨rfl, rfl⟩ := EStateM.Result.ok.inj h
      obtain ⟨u, us, hb'⟩ := List.exists_cons_of_ne_nil hf'.1
      have hs' : ((Reading.relabel ρ ⟨[], reports⟩).within f').ahead = u :: us := hb'
      refine ⟨⟨[], reports⟩, rfl, accept_of_not_mem hs' ?_⟩
      simpa using hf'.2 u us hb'
    | cons t r =>
      obtain ⟨o, s', ho⟩ := exists_accept_eq ρ [.elseWord] t r reports
      rw [(ho f f').1] at h
      obtain ⟨rfl, rfl⟩ := EStateM.Result.ok.inj h
      exact ⟨s', rfl, (ho f f').2⟩

end Steps

/-! ## Statements without statements inside -/

theorem closes_readVariable (n : Nat) :
    Closes ρ (Stmt.relabel ρ) (readVariable n) (readVariable n) := by
  cases n with
  | zero => exact closes_throw_tooDeep
  | succ n =>
    unfold readVariable
    have hend : ∀ name initializer, Closes ρ (Stmt.relabel ρ)
        (do let _ ← expect n .endOfVariable; return .declare name initializer)
        (do
          let _ ← expect n .endOfVariable
          return .declare (name.relabel ρ) (initializer.map (Expr.relabel ρ))) :=
      fun name initializer => (closes_expect _).bind fun _ =>
        fits_pure (Stmt.declare name initializer)
    refine (uniform_expect _).bind_closes fun name => uniform_accept.bind_closes fun o => ?_
    cases o with
    | none => exact hend name none
    | some equal =>
      have he : Uniform ρ (Option.map (Expr.relabel ρ)) (some <$> readExpression n)
          (some <$> readExpression n) := (uniform_readExpression n).map fun _ => rfl
      exact he.bind_closes fun initializer => hend name initializer

theorem closes_readPrint (n : Nat) :
    Closes ρ (Stmt.relabel ρ) (readPrint n) (readPrint n) := by
  cases n with
  | zero => exact closes_throw_tooDeep
  | succ n =>
    exact (uniform_readExpression n).bind_closes fun e => (closes_expect _).bind fun _ =>
      fits_pure (Stmt.print e)

theorem closes_readEffect (n : Nat) :
    Closes ρ (Stmt.relabel ρ) (readEffect n) (readEffect n) := by
  cases n with
  | zero => exact closes_throw_tooDeep
  | succ n =>
    exact (uniform_readExpression n).bind_closes fun e => (closes_expect _).bind fun _ =>
      fits_pure (Stmt.expression e)

/-! ## Statements with statements inside -/

/-- What is kept at one depth: all rules for statements close themselves. -/
structure ClosesStatements (ρ : Relabeling) (n : Nat) : Prop where
  statement : Closes ρ (Stmt.relabel ρ) (readStatement n) (readStatement n)
  conditional : Closes ρ (Stmt.relabel ρ) (readIf n) (readIf n)
  whileLoop : Closes ρ (Stmt.relabel ρ) (readWhile n) (readWhile n)
  forLoop : Closes ρ (Stmt.relabel ρ) (readFor n) (readFor n)
  block : Closes ρ (List.map (Stmt.relabel ρ)) (readBlock n) (readBlock n)

namespace ClosesStatements

variable {n : Nat}

theorem zero : ClosesStatements ρ 0 where
  statement := closes_throw_tooDeep
  conditional := closes_throw_tooDeep
  whileLoop := closes_throw_tooDeep
  forLoop := closes_throw_tooDeep
  block := closes_throw_tooDeep

theorem block_succ (n : Nat) :
    Closes ρ (List.map (Stmt.relabel ρ)) (readBlock (n + 1)) (readBlock (n + 1)) := by
  rw [readBlock_succ]
  exact (uniform_gatherAhead rfl (UniformStatements.all n).declaration
    (OrderlyStatements.all n).progresses).bind_closes
    fun body => (closes_expect _).bind fun _ => fits_pure body

variable (h : ClosesStatements ρ n)

include h

theorem statement_succ : Closes ρ (Stmt.relabel ρ) (readStatement (n + 1)) (readStatement (n + 1)) :=
  closes_of_cons (OrderlyStatements.all (n + 1)).statement (OrderlyStatements.all (n + 1)).takes
    fun f f' t r reports a s₁ hf hf' hr => by
      have hs : (Reading.within ⟨t :: r, reports⟩ f).ahead = t :: (r ++ f.behind) := rfl
      have hs' : ((Reading.relabel ρ ⟨t :: r, reports⟩).within f').ahead =
          t.relabel ρ :: (r.map (Token.relabel ρ) ++ f'.behind) := rfl
      by_cases hprint : t.kind = .printWord
      · rw [readStatement_print hs hprint] at hr
        rw [readStatement_print hs' hprint]
        exact (closes_readPrint n).fits f f' ⟨r, reports⟩ a s₁ hf hf' hr
      by_cases hif : t.kind = .ifWord
      · rw [readStatement_if hs hif] at hr
        rw [readStatement_if hs' hif]
        exact h.conditional.fits f f' ⟨r, reports⟩ a s₁ hf hf' hr
      by_cases hwhile : t.kind = .whileWord
      · rw [readStatement_while hs hwhile] at hr
        rw [readStatement_while hs' hwhile]
        exact h.whileLoop.fits f f' ⟨r, reports⟩ a s₁ hf hf' hr
      by_cases hfor : t.kind = .forWord
      · rw [readStatement_for hs hfor] at hr
        rw [readStatement_for hs' hfor]
        exact h.forLoop.fits f f' ⟨r, reports⟩ a s₁ hf hf' hr
      by_cases hblock : t.kind = .leftBrace
      · rw [readStatement_block hs hblock] at hr
        rw [readStatement_block hs' hblock]
        have hb : Closes ρ (Stmt.relabel ρ) (.block <$> readBlock n) (.block <$> readBlock n) :=
          h.block.map fun body => (Stmt.relabel_block ρ body).symm
        exact hb.fits f f' ⟨r, reports⟩ a s₁ hf hf' hr
      · have hk : t.kind ∉ [Kind.printWord, .ifWord, .whileWord, .forWord, .leftBrace] := by
          simp [hprint, hif, hwhile, hfor, hblock]
        rw [readStatement_effect hs hk] at hr
        rw [readStatement_effect hs' hk]
        exact (closes_readEffect n).fits f f' ⟨t :: r, reports⟩ a s₁ hf hf' hr

theorem conditional_succ : Closes ρ (Stmt.relabel ρ) (readIf (n + 1)) (readIf (n + 1)) := by
  unfold readIf
  refine (uniform_expect _).bind_closes fun _ => (uniform_readExpression n).bind_closes
    fun condition => (uniform_expect _).bind_closes fun _ => h.statement.bind fun thenBranch =>
    fits_accept_else.bind fun o => ?_
  cases o with
  | none => exact fits_pure (Stmt.ifThen condition thenBranch)
  | some other =>
    exact h.statement.toFits.bind fun elseBranch =>
      fits_pure (Stmt.ifElse condition thenBranch elseBranch)

theorem whileLoop_succ : Closes ρ (Stmt.relabel ρ) (readWhile (n + 1)) (readWhile (n + 1)) :=
  (uniform_expect _).bind_closes fun _ => (uniform_readExpression n).bind_closes fun condition =>
    (uniform_expect _).bind_closes fun _ => h.statement.bind fun body =>
    fits_pure (Stmt.loop condition body)

theorem forLoop_succ : Closes ρ (Stmt.relabel ρ) (readFor (n + 1)) (readFor (n + 1)) := by
  unfold readFor
  refine (uniform_expect _).bind_closes fun _ => (uniform_readInitializer n).bind_closes
    fun initializer => (uniform_readOptional _ n).bind_closes fun condition =>
    (uniform_expect _).bind_closes fun _ => (uniform_readOptional _ n).bind_closes fun increment =>
    (uniform_expect _).bind_closes fun _ => h.statement.bind fun body => ?_
  rw [← Stmt.relabel_forLoop]
  exact fits_pure _

omit h in
theorem all (n : Nat) : ClosesStatements ρ n := by
  induction n with
  | zero => exact zero
  | succ n ih =>
    exact {
      statement := ih.statement_succ
      conditional := ih.conditional_succ
      whileLoop := ih.whileLoop_succ
      forLoop := ih.forLoop_succ
      block := block_succ n }

end ClosesStatements

/-! ## Declarations -/

theorem closes_declared (n : Nat) : Closes ρ (Stmt.relabel ρ) (declared n) (declared n) := by
  refine uniform_accept.bind_closes fun o => ?_
  cases o with
  | none => exact (ClosesStatements.all n).statement
  | some t => exact closes_readVariable n

end Lox.Grammar
