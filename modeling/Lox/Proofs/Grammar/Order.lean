import Lox.Proofs.Grammar.Step

/-!
# Rules go forward

A rule of the grammar goes forward over tokens, never over an end, and takes no report back.  If it
stops at a fault, it has reported one, and it runs out of tokens only if no end was ahead.  This is
`OrderlyAt`.  Here it is shown of the rules for expressions (`orderly_readTier`) and of the
statements that hold no others.
-/

namespace Lox.Grammar

open Computing

variable {α β : Type} {s s' s'' : Reading} {t : Token} {r : List Token} {kinds : List Kind}
  {stop : Stop}

/-! ## Going forward -/

/-- There is an end ahead. -/
def Reading.HasEnd (s : Reading) : Prop := ∃ t ∈ s.ahead, t.kind = .eof

/-- Reading can lead from one place to the other: forward, never over an end, and with all
reports kept. -/
structure Reading.Leads (s s' : Reading) : Prop where
  ahead : ∃ w, s.ahead = w ++ s'.ahead ∧ ∀ t ∈ w, t.kind ≠ .eof
  reports : s.reports <+: s'.reports

namespace Reading.Leads

theorem refl (s : Reading) : s.Leads s := ⟨⟨[], rfl, by simp⟩, List.prefix_rfl⟩

theorem trans (h : s.Leads s') (h' : s'.Leads s'') : s.Leads s'' := by
  obtain ⟨⟨w, hw, hne⟩, hr⟩ := h
  obtain ⟨⟨w', hw', hne'⟩, hr'⟩ := h'
  refine ⟨⟨w ++ w', by rw [hw, hw', List.append_assoc], ?_⟩, hr.trans hr'⟩
  intro t ht
  rcases List.mem_append.1 ht with ht | ht
  · exact hne t ht
  · exact hne' t ht

/-- A token that is no end is read. -/
theorem of_read (h : s.ahead = t :: s'.ahead) (ht : t.kind ≠ .eof) (hr : s'.reports = s.reports) :
    s.Leads s' :=
  ⟨⟨[t], h, by simpa using ht⟩, hr ▸ List.prefix_rfl⟩

theorem hasEnd (h : s.Leads s') (he : s.HasEnd) : s'.HasEnd := by
  obtain ⟨⟨w, hw, hne⟩, -⟩ := h
  obtain ⟨t, ht, hk⟩ := he
  rw [hw] at ht
  rcases List.mem_append.1 ht with ht | ht
  · exact absurd hk (hne t ht)
  · exact ⟨t, ht, hk⟩

theorem suffix (h : s.Leads s') : s'.ahead <:+ s.ahead := by
  obtain ⟨⟨w, hw, -⟩, -⟩ := h
  exact ⟨w, hw.symm⟩

theorem length_le (h : s.Leads s') : s'.ahead.length ≤ s.ahead.length := h.suffix.length_le

end Reading.Leads

/-! ## Orderly rules -/

/-- What must be so for a rule to stop in this way. -/
def Stop.Explains : Stop → Reading → Reading → Prop
  | .fault _, s, s' => s.reports.length < s'.reports.length
  | .tooDeep, _, _ => True
  | .ranOut, s, _ => ¬ s.HasEnd

/-- The stop of a later part of a rule explains the stop of the whole. -/
theorem Stop.Explains.of_leads (h : s.Leads s') (he : stop.Explains s' s'') :
    stop.Explains s s'' := by
  cases stop with
  | fault f => exact Nat.lt_of_le_of_lt h.reports.length_le he
  | tooDeep => trivial
  | ranOut => exact fun hs => he (h.hasEnd hs)

theorem not_hasEnd_of_nil (h : s.ahead = []) : ¬ s.HasEnd := by
  rintro ⟨t, ht, -⟩
  rw [h] at ht
  exact absurd ht List.not_mem_nil

/-- From this place the rule goes forward, and its stop explains itself. -/
structure OrderlyAt (rule : Rule α) (s : Reading) : Prop where
  ok : ∀ {a s'}, rule s = .ok a s' → s.Leads s'
  error : ∀ {stop s'}, rule s = .error stop s' → s.Leads s' ∧ stop.Explains s s'

/-- From every place the rule goes forward, and its stop explains itself. -/
def Orderly (rule : Rule α) : Prop := ∀ s, OrderlyAt rule s

theorem orderly_pure (a : α) : Orderly (pure a : Rule α) := by
  intro s
  refine ⟨fun h => ?_, fun h => absurd h pure_ne_error⟩
  obtain ⟨-, rfl⟩ := pure_eq_ok.1 h
  exact .refl s

theorem orderly_throw_tooDeep : Orderly (throw .tooDeep : Rule α) := by
  intro s
  refine ⟨fun h => absurd h throw_ne_ok, fun h => ?_⟩
  obtain ⟨rfl, rfl⟩ := throw_eq_error.1 h
  exact ⟨.refl s, trivial⟩

theorem OrderlyAt.bind {rule : Rule α} {next : α → Rule β} (h : OrderlyAt rule s)
    (hn : ∀ a s', rule s = .ok a s' → OrderlyAt (next a) s') : OrderlyAt (rule >>= next) s := by
  constructor
  · intro b s'' hb
    obtain ⟨a, s', ha, hb⟩ := bind_eq_ok.1 hb
    exact (h.ok ha).trans ((hn a s' ha).ok hb)
  · intro stop s'' hb
    rcases bind_eq_error.1 hb with ha | ⟨a, s', ha, hb⟩
    · exact h.error ha
    · obtain ⟨hl, he⟩ := (hn a s' ha).error hb
      exact ⟨(h.ok ha).trans hl, he.of_leads (h.ok ha)⟩

theorem Orderly.bind {rule : Rule α} {next : α → Rule β} (h : Orderly rule)
    (hn : ∀ a, Orderly (next a)) : Orderly (rule >>= next) :=
  fun s => (h s).bind fun a s' _ => hn a s'

theorem Orderly.map {rule : Rule α} (h : Orderly rule) (g : α → β) : Orderly (g <$> rule) :=
  h.bind fun a => orderly_pure (g a)

theorem orderly_get : Orderly (get : Rule Reading) := by
  intro s
  refine ⟨fun h => ?_, fun h => by cases h⟩
  obtain ⟨rfl, rfl⟩ := get_eq_ok.1 h
  exact .refl _

theorem orderly_peek : Orderly peek := by
  intro s
  constructor
  · intro t s' h
    obtain ⟨rfl, -⟩ := peek_eq_ok.1 h
    exact .refl _
  · intro stop s' h
    obtain ⟨rfl, rfl, hs⟩ := peek_eq_error.1 h
    exact ⟨.refl _, not_hasEnd_of_nil hs⟩

theorem orderly_isNext : Orderly (isNext kinds) := by
  intro s
  constructor
  · intro t s' h
    obtain ⟨rfl, -⟩ := isNext_eq_ok.1 h
    exact .refl _
  · intro stop s' h
    obtain ⟨rfl, rfl, hs⟩ := isNext_eq_error.1 h
    exact ⟨.refl _, not_hasEnd_of_nil hs⟩

theorem orderly_accept : Orderly (accept kinds) := by
  intro s
  constructor
  · intro o s' h
    cases o with
    | none =>
      obtain ⟨rfl, -⟩ := accept_eq_none.1 h
      exact .refl _
    | some t =>
      obtain ⟨hs, hr, ht, -⟩ := accept_eq_some.1 h
      exact .of_read hs ht hr
  · intro stop s' h
    obtain ⟨rfl, rfl, hs⟩ := accept_eq_error.1 h
    exact ⟨.refl _, not_hasEnd_of_nil hs⟩

/-- Dropping a token is orderly if it is no end. -/
theorem orderlyAt_skip (h : s.ahead = t :: r) (ht : t.kind ≠ .eof) : OrderlyAt skip s := by
  constructor
  · intro u s' hs
    obtain ⟨t', hs, hr⟩ := skip_eq_ok.1 hs
    obtain ⟨rfl, -⟩ := List.cons.inj (h.symm.trans hs)
    exact .of_read hs ht hr
  · intro stop s' hs
    obtain ⟨-, -, hs⟩ := skip_eq_error.1 hs
    rw [h] at hs
    exact absurd hs (List.cons_ne_nil _ _)

section Report

variable {n : Nat}

theorem orderly_report (t : Token) (fault : Fault) : Orderly (report n t fault) := by
  intro s
  constructor
  · intro u s' h
    obtain ⟨-, rfl⟩ := report_eq_ok.1 h
    exact ⟨⟨[], rfl, by simp⟩, List.prefix_append _ _⟩
  · intro stop s' h
    obtain ⟨-, rfl, rfl⟩ := report_eq_error.1 h
    exact ⟨⟨⟨[], rfl, by simp⟩, List.prefix_append _ _⟩, trivial⟩

theorem orderly_fail (fault : Fault) : Orderly (fail n fault : Rule α) := by
  intro s
  refine ⟨fun h => absurd h fail_ne_ok, fun h => ?_⟩
  rcases fail_eq_error.1 h with ⟨rfl, rfl, hs⟩ | ⟨t, r, -, ⟨-, rfl, rfl⟩ | ⟨-, rfl, rfl⟩⟩
  · exact ⟨.refl _, not_hasEnd_of_nil hs⟩
  · exact ⟨⟨⟨[], rfl, by simp⟩, List.prefix_append _ _⟩, by simp [Stop.Explains]⟩
  · exact ⟨⟨⟨[], rfl, by simp⟩, List.prefix_append _ _⟩, trivial⟩

theorem orderly_failBelow (fault : Fault) : Orderly (failBelow n fault : Rule α) := by
  cases n with
  | zero => exact orderly_throw_tooDeep
  | succ n => exact orderly_fail fault

theorem orderly_expect (e : Expectation) : Orderly (expect n e) := by
  unfold expect consume
  refine orderly_accept.bind fun o => ?_
  cases o with
  | none => exact orderly_failBelow _
  | some t => exact orderly_pure t

end Report

/-! ## Chains of operators -/

/-- A chain is orderly if its rounds are enough for the tokens ahead. -/
theorem orderlyAt_chain {operators : List Kind} {join : Expr → Token → Expr → Expr}
    {operand : Rule Expr} (h : Orderly operand) (bound : List Token) (left : Expr) (s : Reading)
    (hb : s.ahead.length ≤ bound.length) :
    OrderlyAt (chain operators join operand bound left) s := by
  induction bound generalizing left s with
  | nil =>
    have hs : s.ahead = [] := List.length_eq_zero_iff.1 (Nat.le_zero.1 hb)
    refine ⟨fun h => absurd h throw_ne_ok, fun h => ?_⟩
    obtain ⟨rfl, rfl⟩ := throw_eq_error.1 h
    exact ⟨.refl _, not_hasEnd_of_nil hs⟩
  | cons _ bound ih =>
    unfold chain
    refine (orderly_accept s).bind fun o s₁ ho => ?_
    cases o with
    | none => exact orderly_pure left s₁
    | some operator =>
      refine (h s₁).bind fun right s₂ hr => ih _ s₂ ?_
      have hlen := ((h s₁).ok hr).length_le
      have hs := congrArg List.length (accept_eq_some.1 ho).1
      simp only [List.length_cons] at hs hb
      omega

/-- The tokens ahead are rounds enough. -/
theorem orderly_chain_ahead {operators : List Kind} {join : Expr → Token → Expr → Expr}
    {operand : Rule Expr} (h : Orderly operand) (first : Expr) : Orderly (do
    chain operators join operand (← get).ahead first) :=
  fun s => (orderly_get s).bind fun here s' hg => by
    obtain ⟨rfl, rfl⟩ := get_eq_ok.1 hg
    exact orderlyAt_chain h _ first _ (Nat.le_refl _)

theorem orderly_leftJoined {operators : List Kind} {join : Expr → Token → Expr → Expr}
    {operand : Rule Expr} (h : Orderly operand) : Orderly (leftJoined operators join operand) :=
  h.bind (orderly_chain_ahead h)

/-! ## Rules for expressions -/

/-- What follows the target of an assignment, if anything does. -/
theorem orderly_assigned {n : Nat} (h : Orderly (readTier n .assignment)) (target : Expr) :
    Orderly (do
      match ← accept [.equal] with
      | none => return target
      | some equal =>
        let value ← readTier n .assignment
        match target with
        | .reference name => return .assign name value
        | _ =>
          report n equal .badTarget
          return target) := by
  refine orderly_accept.bind fun o => ?_
  cases o with
  | none => exact orderly_pure target
  | some equal =>
    refine h.bind fun value => ?_
    split
    · exact orderly_pure _
    · exact (orderly_report equal .badTarget).bind fun _ => orderly_pure target

/-- Rules for expressions are orderly at every depth. -/
theorem orderly_readTier (n : Nat) (tier : Tier) : Orderly (readTier n tier) := by
  induction n generalizing tier with
  | zero => exact orderly_throw_tooDeep
  | succ n ih =>
    cases tier with
    | expression => exact ih .assignment
    | assignment =>
      unfold readTier
      exact (ih .or).bind (orderly_assigned (ih .assignment))
    | or => exact orderly_leftJoined (ih .and)
    | and => exact orderly_leftJoined (ih .equality)
    | equality => exact orderly_leftJoined (ih .comparison)
    | comparison => exact orderly_leftJoined (ih .term)
    | term => exact orderly_leftJoined (ih .factor)
    | factor => exact orderly_leftJoined (ih .unary)
    | unary =>
      unfold readTier
      refine orderly_accept.bind fun o => ?_
      cases o with
      | none => exact ih .primary
      | some operator => exact (ih .unary).bind fun e => orderly_pure _
    | primary =>
      unfold readTier
      intro s
      refine (orderly_peek s).bind fun t s' ht => ?_
      obtain ⟨rfl, r, hs⟩ := peek_eq_ok.1 ht
      -- every branch that drops the token knows its kind
      split
      iterate 5
        next hk => exact (orderlyAt_skip hs (by simp [hk])).bind fun _ s' _ => orderly_pure _ s'
      next hk => exact (orderlyAt_skip hs (by simp [hk])).bind fun _ s' _ => orderly_pure _ s'
      next hk =>
        refine (orderlyAt_skip hs (by simp [hk])).bind fun _ s' _ => ?_
        exact (ih .expression).bind (fun inner => (orderly_expect _).bind fun _ =>
          orderly_pure _) s'
      next => exact orderly_fail _ _

theorem orderly_readExpression (n : Nat) : Orderly (readExpression n) :=
  orderly_readTier n .expression

/-! ## Statements without statements inside -/

theorem orderly_readVariable (n : Nat) : Orderly (readVariable n) := by
  cases n with
  | zero => exact orderly_throw_tooDeep
  | succ n =>
    unfold readVariable
    refine (orderly_expect _).bind fun name => orderly_accept.bind fun o => ?_
    cases o with
    | none => exact (orderly_pure _).bind fun _ => (orderly_expect _).bind fun _ => orderly_pure _
    | some equal =>
      exact ((orderly_readExpression n).map some).bind fun _ =>
        (orderly_expect _).bind fun _ => orderly_pure _

theorem orderly_readPrint (n : Nat) : Orderly (readPrint n) := by
  cases n with
  | zero => exact orderly_throw_tooDeep
  | succ n =>
    exact (orderly_readExpression n).bind fun e => (orderly_expect _).bind fun _ => orderly_pure _

theorem orderly_readEffect (n : Nat) : Orderly (readEffect n) := by
  cases n with
  | zero => exact orderly_throw_tooDeep
  | succ n =>
    exact (orderly_readExpression n).bind fun e => (orderly_expect _).bind fun _ => orderly_pure _

theorem orderly_readInitializer (n : Nat) : Orderly (readInitializer n) := by
  unfold readInitializer
  refine orderly_accept.bind fun o => ?_
  split
  · exact orderly_pure none
  · refine orderly_accept.bind fun o => ?_
    split
    · exact (orderly_readVariable n).map some
    · exact (orderly_readEffect n).map some

theorem orderly_readOptional (closing : Kind) (n : Nat) : Orderly (readOptional closing n) := by
  unfold readOptional
  refine orderly_isNext.bind fun b => ?_
  split
  · exact orderly_pure none
  · exact (orderly_readExpression n).map some

end Lox.Grammar
