import Lox.Proofs.Grammar.Phrase
import Lox.Proofs.Grammar.Progress

/-!
# What is read without a report is a phrase

A rule that ends well and has reported nothing has read a phrase for the tree it gives.  Reports are
never taken back, so it is enough to count them: if there are no more at the end than at the start,
there were no more at any point between.
-/

namespace Lox.Grammar

open Computing

variable {α : Type} {s s' : Reading} {n : Nat}

/-- How many reports there are. -/
def Reading.count (s : Reading) : Nat := s.reports.length

theorem Reading.Leads.count_le (h : s.Leads s') : s.count ≤ s'.count := h.reports.length_le

theorem Reading.count_congr (h : s'.reports = s.reports) : s'.count = s.count :=
  congrArg List.length h

/-! ## Rules by the next token -/

section NextToken

variable {t : Token} {r : List Token}

theorem readTier_literal {v : Value} (hs : s.ahead = t :: r) (hv : t.value? = some v) :
    readTier (n + 1) .primary s = .ok (.literal v) { s with ahead := r } := by
  rw [readTier, bind_of_ok (peek_of_ahead hs)]
  unfold Token.value? at hv
  split at hv
  case h_6 => cases hv
  all_goals
    next hk =>
      obtain rfl := Option.some.inj hv
      simp only [hk]
      exact bind_of_ok (skip_of_ahead hs)

theorem readTier_reference (hs : s.ahead = t :: r) (hk : t.kind = .identifier) :
    readTier (n + 1) .primary s = .ok (.reference t) { s with ahead := r } := by
  rw [readTier, bind_of_ok (peek_of_ahead hs)]
  simp only [hk]
  exact bind_of_ok (skip_of_ahead hs)

theorem readTier_grouping (hs : s.ahead = t :: r) (hk : t.kind = .leftParen) :
    readTier (n + 1) .primary s =
      (do
        let inner ← readTier n .expression
        let _ ← expect n .endOfGroup
        return .grouping inner : Rule Expr) { s with ahead := r } := by
  rw [readTier, bind_of_ok (peek_of_ahead hs)]
  simp only [hk]
  exact bind_of_ok (skip_of_ahead hs)

theorem readTier_noExpression (hs : s.ahead = t :: r) (hv : t.value? = none)
    (hname : t.kind ≠ .identifier) (hparen : t.kind ≠ .leftParen) :
    readTier (n + 1) .primary s = (fail n .noExpression : Rule Expr) s := by
  rw [readTier, bind_of_ok (peek_of_ahead hs)]
  unfold Token.value? at hv
  cases hk : t.kind <;> simp_all

theorem readStatement_print (hs : s.ahead = t :: r) (hk : t.kind = .printWord) :
    readStatement (n + 1) s = readPrint n { s with ahead := r } := by
  rw [readStatement, bind_of_ok (peek_of_ahead hs)]
  simp only [hk]
  exact bind_of_ok (skip_of_ahead hs)

theorem readStatement_if (hs : s.ahead = t :: r) (hk : t.kind = .ifWord) :
    readStatement (n + 1) s = readIf n { s with ahead := r } := by
  rw [readStatement, bind_of_ok (peek_of_ahead hs)]
  simp only [hk]
  exact bind_of_ok (skip_of_ahead hs)

theorem readStatement_while (hs : s.ahead = t :: r) (hk : t.kind = .whileWord) :
    readStatement (n + 1) s = readWhile n { s with ahead := r } := by
  rw [readStatement, bind_of_ok (peek_of_ahead hs)]
  simp only [hk]
  exact bind_of_ok (skip_of_ahead hs)

theorem readStatement_for (hs : s.ahead = t :: r) (hk : t.kind = .forWord) :
    readStatement (n + 1) s = readFor n { s with ahead := r } := by
  rw [readStatement, bind_of_ok (peek_of_ahead hs)]
  simp only [hk]
  exact bind_of_ok (skip_of_ahead hs)

theorem readStatement_block (hs : s.ahead = t :: r) (hk : t.kind = .leftBrace) :
    readStatement (n + 1) s = (Stmt.block <$> readBlock n) { s with ahead := r } := by
  rw [readStatement, bind_of_ok (peek_of_ahead hs)]
  simp only [hk]
  exact bind_of_ok (skip_of_ahead hs)

/-- Any other token begins an expression, if anything. -/
theorem readStatement_effect (hs : s.ahead = t :: r)
    (hk : t.kind ∉ [Kind.printWord, .ifWord, .whileWord, .forWord, .leftBrace]) :
    readStatement (n + 1) s = readEffect n s := by
  rw [readStatement, bind_of_ok (peek_of_ahead hs)]
  cases ht : t.kind <;> simp_all

end NextToken

/-! ## Expressions -/

theorem phrase_of_chain {tier : Tier} {operand : Rule Expr} (ho : Orderly operand)
    (hp : ∀ {s e s'}, operand s = .ok e s' → s'.count ≤ s.count →
      Phrase tier.next s.ahead e s'.ahead)
    {ts : List Token} (bound : List Token) {left e : Expr} (hb : s.ahead.length ≤ bound.length)
    (hleft : Phrase tier ts left s.ahead)
    (h : chain tier.operators tier.join operand bound left s = .ok e s')
    (hq : s'.count ≤ s.count) : Phrase tier ts e s'.ahead := by
  induction bound generalizing left s with
  | nil => exact absurd h throw_ne_ok
  | cons _ bound ih =>
    unfold chain at h
    obtain ⟨o, s₁, h₁, h⟩ := bind_eq_ok.1 h
    cases o with
    | none =>
      obtain ⟨rfl, -⟩ := accept_eq_none.1 h₁
      obtain ⟨rfl, rfl⟩ := pure_eq_ok.1 h
      exact hleft
    | some operator =>
      obtain ⟨hs, hr, -, hmem⟩ := accept_eq_some.1 h₁
      obtain ⟨right, s₂, h₂, h⟩ := bind_eq_ok.1 h
      have hlen : s₂.ahead.length ≤ bound.length := by
        have := ((ho s₁).ok h₂).length_le
        rw [hs, List.length_cons, List.length_cons] at hb
        omega
      have hc := Reading.count_congr hr
      have hle := ((ho s₁).ok h₂).count_le
      have hle' := ((orderlyAt_chain ho bound _ s₂ hlen).ok h).count_le
      rw [hs] at hleft
      exact ih hlen (.joined hleft hmem (hp h₂ (by omega))) h (by omega)

theorem phrase_of_leftJoined {tier : Tier} {operand : Rule Expr} (ho : Orderly operand)
    (hp : ∀ {s e s'}, operand s = .ok e s' → s'.count ≤ s.count →
      Phrase tier.next s.ahead e s'.ahead)
    {e : Expr} (h : leftJoined tier.operators tier.join operand s = .ok e s')
    (hq : s'.count ≤ s.count) : Phrase tier s.ahead e s'.ahead := by
  unfold leftJoined at h
  obtain ⟨first, s₁, h₁, h⟩ := bind_eq_ok.1 h
  obtain ⟨here, s₂, h₂, h⟩ := bind_eq_ok.1 h
  obtain ⟨rfl, rfl⟩ := get_eq_ok.1 h₂
  have hle := ((ho s).ok h₁).count_le
  have hle' := ((orderlyAt_chain ho _ first _ (Nat.le_refl _)).ok h).count_le
  exact phrase_of_chain ho hp _ (Nat.le_refl _) (.tighter (hp h₁ (by omega))) h (by omega)

/-- At a tier with operators the rule joins operands of the next tier. -/
theorem readTier_of_operators {tier : Tier} (h : tier.operators ≠ []) :
    readTier (n + 1) tier = leftJoined tier.operators tier.join (readTier n tier.next) := by
  cases tier <;> first | rfl | exact absurd rfl h

/-- An assignment is read without a report only if its target is a name. -/
theorem phrase_of_assignment
    (ih : ∀ {tier s e s'}, readTier n tier s = .ok e s' → s'.count ≤ s.count →
      Phrase tier s.ahead e s'.ahead)
    {e : Expr} (h : readTier (n + 1) .assignment s = .ok e s') (hq : s'.count ≤ s.count) :
    Phrase .assignment s.ahead e s'.ahead := by
  unfold readTier at h
  obtain ⟨target, s₁, h₁, h⟩ := bind_eq_ok.1 h
  obtain ⟨o, s₂, h₂, h⟩ := bind_eq_ok.1 h
  have hle₁ := ((orderly_readTier n .or s).ok h₁).count_le
  cases o with
  | none =>
    obtain ⟨rfl, -⟩ := accept_eq_none.1 h₂
    obtain ⟨rfl, rfl⟩ := pure_eq_ok.1 h
    exact .tighter (ih h₁ hq)
  | some equal =>
    obtain ⟨hs, hr, -, hmem⟩ := accept_eq_some.1 h₂
    obtain ⟨value, s₃, h₃, h⟩ := bind_eq_ok.1 h
    have hc := Reading.count_congr hr
    have hle₃ := ((orderly_readTier n .assignment s₂).ok h₃).count_le
    split at h
    next name =>
      obtain ⟨rfl, rfl⟩ := pure_eq_ok.1 h
      obtain ⟨hts, hname⟩ := (ih h₁ (by omega)).eq_cons_of_reference rfl
      rw [hts, hs]
      exact .assign hname (List.mem_singleton.1 hmem) (ih h₃ (by omega))
    next =>
      -- the target is no name, so there is one more report
      obtain ⟨u, s₄, h₄, h⟩ := bind_eq_ok.1 h
      obtain ⟨-, rfl⟩ := report_eq_ok.1 h₄
      obtain ⟨-, rfl⟩ := pure_eq_ok.1 h
      simp only [Reading.count, List.length_append, List.length_singleton] at hq hle₁ hle₃ hc
      omega

theorem phrase_of_unary
    (ih : ∀ {tier s e s'}, readTier n tier s = .ok e s' → s'.count ≤ s.count →
      Phrase tier s.ahead e s'.ahead)
    {e : Expr} (h : readTier (n + 1) .unary s = .ok e s') (hq : s'.count ≤ s.count) :
    Phrase .unary s.ahead e s'.ahead := by
  unfold readTier at h
  obtain ⟨o, s₁, h₁, h⟩ := bind_eq_ok.1 h
  cases o with
  | none =>
    obtain ⟨rfl, -⟩ := accept_eq_none.1 h₁
    exact .tighter (ih h hq)
  | some operator =>
    obtain ⟨hs, hr, -, hmem⟩ := accept_eq_some.1 h₁
    obtain ⟨operand, s₂, h₂, h⟩ := bind_eq_ok.1 h
    obtain ⟨rfl, rfl⟩ := pure_eq_ok.1 h
    have hc := Reading.count_congr hr
    rw [hs]
    exact .unary hmem (ih h₂ (by omega))

theorem phrase_of_primary
    (ih : ∀ {tier s e s'}, readTier n tier s = .ok e s' → s'.count ≤ s.count →
      Phrase tier s.ahead e s'.ahead)
    {e : Expr} (h : readTier (n + 1) .primary s = .ok e s') (hq : s'.count ≤ s.count) :
    Phrase .primary s.ahead e s'.ahead := by
  cases hs : s.ahead with
  | nil =>
    rw [readTier, bind_of_error (peek_eq_error.2 ⟨rfl, rfl, hs⟩)] at h
    cases h
  | cons t r =>
    by_cases hname : t.kind = .identifier
    · rw [readTier_reference hs hname] at h
      obtain ⟨rfl, rfl⟩ := EStateM.Result.ok.inj h
      exact .reference hname
    by_cases hparen : t.kind = .leftParen
    · rw [readTier_grouping hs hparen, bind_eq_ok] at h
      obtain ⟨inner, s₁, h₁, h⟩ := h
      obtain ⟨close, s₂, h₂, h⟩ := bind_eq_ok.1 h
      obtain ⟨rfl, rfl⟩ := pure_eq_ok.1 h
      obtain ⟨hs₁, hr₁, hclose⟩ := expect_eq_ok.1 h₂
      have hc := Reading.count_congr hr₁
      exact .grouping hparen hclose (hs₁ ▸ ih h₁ (hc ▸ hq))
    cases hv : t.value? with
    | some v =>
      rw [readTier_literal hs hv] at h
      obtain ⟨rfl, rfl⟩ := EStateM.Result.ok.inj h
      exact .literal hv
    | none =>
      rw [readTier_noExpression hs hv hname hparen] at h
      exact absurd h fail_ne_ok

/-- An expression that is read without a report is a phrase. -/
theorem phrase_of_readTier {tier : Tier} {e : Expr} (h : readTier n tier s = .ok e s')
    (hq : s'.count ≤ s.count) : Phrase tier s.ahead e s'.ahead := by
  induction n generalizing tier s e s' with
  | zero => exact absurd h throw_ne_ok
  | succ n ih =>
    by_cases hop : tier.operators = []
    · cases tier with
      | expression => exact .tighter (ih h hq)
      | assignment => exact phrase_of_assignment ih h hq
      | unary => exact phrase_of_unary ih h hq
      | primary => exact phrase_of_primary ih h hq
      | _ => exact absurd hop (List.cons_ne_nil _ _)
    · rw [readTier_of_operators hop] at h
      exact phrase_of_leftJoined (orderly_readTier n _) ih h hq

/-! ## Statements without statements inside -/

theorem count_expect {n : Nat} {e : Expectation} {t : Token} (h : expect n e s = .ok t s') :
    s'.count = s.count := Reading.count_congr (expect_eq_ok.1 h).2.1

theorem variablePhrase_of_readVariable {stmt : Stmt} (h : readVariable n s = .ok stmt s')
    (hq : s'.count ≤ s.count) : VariablePhrase s.ahead stmt s'.ahead := by
  cases n with
  | zero => exact absurd h throw_ne_ok
  | succ n =>
    unfold readVariable at h
    obtain ⟨name, s₁, h₁, h⟩ := bind_eq_ok.1 h
    obtain ⟨o, s₂, h₂, h⟩ := bind_eq_ok.1 h
    have hc₁ := count_expect h₁
    obtain ⟨hs₁, -, hname⟩ := expect_eq_ok.1 h₁
    rw [hs₁]
    cases o with
    | none =>
      obtain ⟨rfl, -⟩ := accept_eq_none.1 h₂
      obtain ⟨initializer, s₃, h₃, h⟩ := bind_eq_ok.1 h
      obtain ⟨rfl, rfl⟩ := pure_eq_ok.1 h₃
      obtain ⟨close, s₄, h₄, h⟩ := bind_eq_ok.1 h
      obtain ⟨rfl, rfl⟩ := pure_eq_ok.1 h
      obtain ⟨hs₄, -, hclose⟩ := expect_eq_ok.1 h₄
      rw [hs₄]
      exact .plain hname hclose
    | some equal =>
      obtain ⟨hs₂, hr₂, -, hequal⟩ := accept_eq_some.1 h₂
      obtain ⟨initializer, s₃, h₃, h⟩ := bind_eq_ok.1 h
      obtain ⟨e, hvalue, rfl⟩ := (map_eq_ok some).1 h₃
      obtain ⟨close, s₄, h₄, h⟩ := bind_eq_ok.1 h
      obtain ⟨rfl, rfl⟩ := pure_eq_ok.1 h
      obtain ⟨hs₄, -, hclose⟩ := expect_eq_ok.1 h₄
      have hc₂ := Reading.count_congr hr₂
      have hc₄ := count_expect h₄
      have he := phrase_of_readTier hvalue (by omega)
      rw [hs₄] at he
      rw [hs₂]
      exact .initialized hname (List.mem_singleton.1 hequal) he hclose

theorem effectPhrase_of_readEffect {stmt : Stmt} (h : readEffect n s = .ok stmt s')
    (hq : s'.count ≤ s.count) : EffectPhrase s.ahead stmt s'.ahead := by
  cases n with
  | zero => exact absurd h throw_ne_ok
  | succ n =>
    unfold readEffect at h
    obtain ⟨e, s₁, h₁, h⟩ := bind_eq_ok.1 h
    obtain ⟨close, s₂, h₂, h⟩ := bind_eq_ok.1 h
    obtain ⟨rfl, rfl⟩ := pure_eq_ok.1 h
    obtain ⟨hs₂, -, hclose⟩ := expect_eq_ok.1 h₂
    have hc₂ := count_expect h₂
    have he := phrase_of_readTier h₁ (by omega)
    rw [hs₂] at he
    exact .mk he hclose

theorem initializerPhrase_of_readInitializer {o : Option Stmt}
    (h : readInitializer n s = .ok o s') (hq : s'.count ≤ s.count) :
    InitializerPhrase s.ahead o s'.ahead := by
  unfold readInitializer at h
  obtain ⟨semicolon, s₁, h₁, h⟩ := bind_eq_ok.1 h
  cases semicolon with
  | some close =>
    obtain ⟨hs₁, -, -, hclose⟩ := accept_eq_some.1 h₁
    obtain ⟨rfl, rfl⟩ := pure_eq_ok.1 h
    rw [hs₁]
    exact .missing (List.mem_singleton.1 hclose)
  | none =>
    obtain ⟨rfl, -⟩ := accept_eq_none.1 h₁
    obtain ⟨word, s₂, h₂, h⟩ := bind_eq_ok.1 h
    cases word with
    | some word =>
      obtain ⟨hs₂, hr₂, -, hword⟩ := accept_eq_some.1 h₂
      obtain ⟨stmt, hstmt, rfl⟩ := (map_eq_ok some).1 h
      have hc₂ := Reading.count_congr hr₂
      rw [hs₂]
      exact .variable (List.mem_singleton.1 hword) (variablePhrase_of_readVariable hstmt (by omega))
    | none =>
      obtain ⟨rfl, -⟩ := accept_eq_none.1 h₂
      obtain ⟨stmt, hstmt, rfl⟩ := (map_eq_ok some).1 h
      exact .effect (effectPhrase_of_readEffect hstmt hq)

theorem optionalPhrase_of_readOptional {closing : Kind} {o : Option Expr}
    (h : readOptional closing n s = .ok o s') (hq : s'.count ≤ s.count) :
    OptionalPhrase s.ahead o s'.ahead := by
  unfold readOptional at h
  obtain ⟨b, s₁, h₁, h⟩ := bind_eq_ok.1 h
  obtain ⟨rfl, -⟩ := isNext_eq_ok.1 h₁
  cases b with
  | true =>
    obtain ⟨rfl, rfl⟩ := pure_eq_ok.1 h
    exact .missing
  | false =>
    obtain ⟨e, he, rfl⟩ := (map_eq_ok some).1 h
    exact .present (phrase_of_readTier he hq)

/-! ## Sequences of declarations -/

/-- A declaration that is recovered without a report is none that a fault has lost. -/
theorem eq_ok_of_recover {n : Nat} {rule : Rule Stmt} {o : Option Stmt} (ho : Orderly rule)
    (h : recover n rule s = .ok o s') (hq : s'.count ≤ s.count) :
    ∃ stmt, o = some stmt ∧ rule s = .ok stmt s' := by
  rcases recover_eq_ok h with hstmt | ⟨-, stop, s₁, t, r, hr, hstop, -, -, rfl⟩
  · exact hstmt
  obtain ⟨hl, hrest⟩ := (ho s).error hr
  have hle := hl.count_le
  simp only [Reading.count, List.length_append] at hq hle
  cases stop with
  | ranOut => exact absurd rfl hstop
  | fault f =>
    have hlt : s.reports.length < s₁.reports.length := hrest
    omega
  | tooDeep =>
    simp only [Stop.reportAt, List.length_singleton] at hq
    omega

/-- What the item reads without a report can stand in front of a sequence. -/
def ReadsDeclarations (item : Rule (Option Stmt)) : Prop :=
  ∀ {s o s'}, item s = .ok o s' → s'.count ≤ s.count →
    ∃ stmt, o = some stmt ∧ ∀ {ss rs}, SequencePhrase s'.ahead ss rs →
      SequencePhrase s.ahead (stmt :: ss) rs

theorem sequencePhrase_of_gather {closes : Kind → Bool} {item : Rule (Option Stmt)}
    (hc : closes .eof = true) (ho : Orderly item) (hp : Progresses item)
    (hi : ReadsDeclarations item) (bound : List Token) {ss : List Stmt}
    (hb : s.ahead.length ≤ bound.length) (h : gather closes item bound s = .ok ss s')
    (hq : s'.count ≤ s.count) :
    SequencePhrase s.ahead ss s'.ahead ∧ ∃ t r, s'.ahead = t :: r ∧ closes t.kind = true := by
  induction bound generalizing s ss with
  | nil => exact absurd h throw_ne_ok
  | cons _ bound ih =>
    unfold gather at h
    obtain ⟨t, s₁, h₁, h⟩ := bind_eq_ok.1 h
    obtain ⟨rfl, r, hs⟩ := peek_eq_ok.1 h₁
    split at h
    next hk =>
      obtain ⟨rfl, rfl⟩ := pure_eq_ok.1 h
      exact ⟨.nil, t, r, hs, hk⟩
    next hk =>
      have heof : t.kind ≠ .eof := fun heof => hk (heof ▸ hc)
      obtain ⟨o, s₂, h₂, h⟩ := bind_eq_ok.1 h
      obtain ⟨rest, s₃, h₃, h⟩ := bind_eq_ok.1 h
      obtain ⟨rfl, rfl⟩ := pure_eq_ok.1 h
      have hlt := hp _ _ _ _ _ hs heof h₂
      have hlen : s₂.ahead.length ≤ bound.length := by
        rw [List.length_cons] at hb
        omega
      have hle₂ := ((ho s).ok h₂).count_le
      have hle₃ := ((orderlyAt_gather hc ho hp bound s₂ hlen).ok h₃).count_le
      obtain ⟨stmt, rfl, hstmt⟩ := hi h₂ (by omega)
      obtain ⟨hrest, hend⟩ := ih hlen h₃ (by omega)
      exact ⟨hstmt hrest, hend⟩

/-! ## Statements with statements inside -/

/-- What is kept at one depth: all rules for statements read phrases if they report nothing. -/
structure SoundStatements (n : Nat) : Prop where
  declaration : ReadsDeclarations (readDeclaration n)
  statement : ∀ {s stmt s'}, readStatement n s = .ok stmt s' → s'.count ≤ s.count →
    WholePhrase s.ahead stmt s'.ahead
  conditional : ∀ {s stmt s'}, readIf n s = .ok stmt s' → s'.count ≤ s.count →
    ∀ {word : Token}, word.kind = .ifWord → WholePhrase (word :: s.ahead) stmt s'.ahead
  whileLoop : ∀ {s stmt s'}, readWhile n s = .ok stmt s' → s'.count ≤ s.count →
    ∀ {word : Token}, word.kind = .whileWord → WholePhrase (word :: s.ahead) stmt s'.ahead
  forLoop : ∀ {s stmt s'}, readFor n s = .ok stmt s' → s'.count ≤ s.count →
    ∀ {word : Token}, word.kind = .forWord → WholePhrase (word :: s.ahead) stmt s'.ahead
  block : ∀ {s body s'}, readBlock n s = .ok body s' → s'.count ≤ s.count →
    ∃ r, r.kind = .rightBrace ∧ SequencePhrase s.ahead body (r :: s'.ahead)

namespace SoundStatements

theorem zero : SoundStatements 0 where
  declaration h := absurd h throw_ne_ok
  statement h := absurd h throw_ne_ok
  conditional h := absurd h throw_ne_ok
  whileLoop h := absurd h throw_ne_ok
  forLoop h := absurd h throw_ne_ok
  block h := absurd h throw_ne_ok

variable (ih : SoundStatements n)

include ih

theorem declaration_succ : ReadsDeclarations (readDeclaration (n + 1)) := by
  intro s o s' h hq
  unfold readDeclaration at h
  obtain ⟨stmt, rfl, hstmt⟩ := eq_ok_of_recover (OrderlyStatements.all n).orderly_declaration h hq
  refine ⟨stmt, rfl, fun {ss rs} hrest => ?_⟩
  obtain ⟨o, s₁, h₁, h⟩ := bind_eq_ok.1 hstmt
  cases o with
  | some word =>
    obtain ⟨hs₁, hr₁, -, hword⟩ := accept_eq_some.1 h₁
    have hc₁ := Reading.count_congr hr₁
    rw [hs₁]
    exact .variable (List.mem_singleton.1 hword)
      (variablePhrase_of_readVariable h (by omega)) hrest
  | none =>
    obtain ⟨rfl, -⟩ := accept_eq_none.1 h₁
    obtain ⟨dangling, hstmt, -⟩ := ih.statement h hq
    exact .statement hstmt hrest

theorem statement_succ {stmt : Stmt} (h : readStatement (n + 1) s = .ok stmt s')
    (hq : s'.count ≤ s.count) : WholePhrase s.ahead stmt s'.ahead := by
  cases hs : s.ahead with
  | nil =>
    rw [readStatement, bind_of_error (peek_eq_error.2 ⟨rfl, rfl, hs⟩)] at h
    cases h
  | cons t r =>
    by_cases hif : t.kind = .ifWord
    · rw [readStatement_if hs hif] at h
      exact ih.conditional h hq hif
    by_cases hwhile : t.kind = .whileWord
    · rw [readStatement_while hs hwhile] at h
      exact ih.whileLoop h hq hwhile
    by_cases hfor : t.kind = .forWord
    · rw [readStatement_for hs hfor] at h
      exact ih.forLoop h hq hfor
    -- the other statements are never dangling
    refine ⟨false, ?_, fun hf => absurd hf Bool.false_ne_true⟩
    by_cases hprint : t.kind = .printWord
    · rw [readStatement_print hs hprint] at h
      cases n with
      | zero => exact absurd h throw_ne_ok
      | succ n =>
        unfold readPrint at h
        obtain ⟨e, s₁, h₁, h⟩ := bind_eq_ok.1 h
        obtain ⟨close, s₂, h₂, h⟩ := bind_eq_ok.1 h
        obtain ⟨rfl, rfl⟩ := pure_eq_ok.1 h
        obtain ⟨hs₂, -, hclose⟩ := expect_eq_ok.1 h₂
        have hc₂ := count_expect h₂
        have he := phrase_of_readTier h₁ (hc₂ ▸ hq)
        rw [hs₂] at he
        exact .print hprint he hclose
    by_cases hblock : t.kind = .leftBrace
    · rw [readStatement_block hs hblock, map_eq_ok] at h
      obtain ⟨body, h, rfl⟩ := h
      obtain ⟨close, hclose, hbody⟩ := ih.block h hq
      exact .block hblock hbody hclose
    · rw [readStatement_effect hs (by simp [hif, hwhile, hfor, hprint, hblock])] at h
      exact hs ▸ .effect (effectPhrase_of_readEffect h hq)

theorem conditional_succ {stmt : Stmt} (h : readIf (n + 1) s = .ok stmt s')
    (hq : s'.count ≤ s.count) {word : Token} (hword : word.kind = .ifWord) :
    WholePhrase (word :: s.ahead) stmt s'.ahead := by
  unfold readIf at h
  obtain ⟨l, s₁, h₁, h⟩ := bind_eq_ok.1 h
  obtain ⟨condition, s₂, h₂, h⟩ := bind_eq_ok.1 h
  obtain ⟨r, s₃, h₃, h⟩ := bind_eq_ok.1 h
  obtain ⟨thenBranch, s₄, h₄, h⟩ := bind_eq_ok.1 h
  obtain ⟨o, s₅, h₅, h⟩ := bind_eq_ok.1 h
  obtain ⟨hs₁, -, hl⟩ := expect_eq_ok.1 h₁
  obtain ⟨hs₃, -, hr⟩ := expect_eq_ok.1 h₃
  have hc₁ := count_expect h₁
  have hle₂ := ((orderly_readExpression n s₁).ok h₂).count_le
  have hc₃ := count_expect h₃
  have hle₄ := (((OrderlyStatements.all n).statement s₃).ok h₄).count_le
  cases o with
  | none =>
    obtain ⟨rfl, t, r', hs, hk⟩ := accept_eq_none.1 h₅
    obtain ⟨rfl, rfl⟩ := pure_eq_ok.1 h
    obtain ⟨dangling, hthen, -⟩ := ih.statement h₄ (by omega)
    refine ⟨true, ?_, fun _ u r'' hu => ?_⟩
    · rw [hs₁]
      exact .ifThen hword hl (hs₃ ▸ phrase_of_readTier h₂ (by omega)) hr hthen
    · obtain ⟨rfl, -⟩ := List.cons.inj (hs.symm.trans hu)
      rcases hk with hk | hk
      · rw [hk]
        decide
      · exact fun hu => hk (List.mem_singleton.2 hu)
  | some other =>
    obtain ⟨hs₅, hr₅, -, hother⟩ := accept_eq_some.1 h₅
    obtain ⟨elseBranch, s₆, h₆, h⟩ := bind_eq_ok.1 h
    obtain ⟨rfl, rfl⟩ := pure_eq_ok.1 h
    have hc₅ := Reading.count_congr hr₅
    have hle₆ := (((OrderlyStatements.all n).statement s₅).ok h₆).count_le
    have hother := List.mem_singleton.1 hother
    obtain ⟨dangling, hthen, hno⟩ := ih.statement h₄ (by omega)
    obtain ⟨dangling', helse, hno'⟩ := ih.statement h₆ (by omega)
    -- the first branch is not dangling, since it would have taken the `else`
    cases dangling with
    | true => exact absurd hother (hno rfl _ _ hs₅)
    | false =>
      rw [hs₅] at hthen
      refine ⟨dangling', ?_, hno'⟩
      rw [hs₁]
      exact .ifElse hword hl (hs₃ ▸ phrase_of_readTier h₂ (by omega)) hr hthen hother helse

theorem whileLoop_succ {stmt : Stmt} (h : readWhile (n + 1) s = .ok stmt s')
    (hq : s'.count ≤ s.count) {word : Token} (hword : word.kind = .whileWord) :
    WholePhrase (word :: s.ahead) stmt s'.ahead := by
  unfold readWhile at h
  obtain ⟨l, s₁, h₁, h⟩ := bind_eq_ok.1 h
  obtain ⟨condition, s₂, h₂, h⟩ := bind_eq_ok.1 h
  obtain ⟨r, s₃, h₃, h⟩ := bind_eq_ok.1 h
  obtain ⟨body, s₄, h₄, h⟩ := bind_eq_ok.1 h
  obtain ⟨rfl, rfl⟩ := pure_eq_ok.1 h
  obtain ⟨hs₁, -, hl⟩ := expect_eq_ok.1 h₁
  obtain ⟨hs₃, -, hr⟩ := expect_eq_ok.1 h₃
  have hc₁ := count_expect h₁
  have hle₂ := ((orderly_readExpression n s₁).ok h₂).count_le
  have hc₃ := count_expect h₃
  have hle₄ := (((OrderlyStatements.all n).statement s₃).ok h₄).count_le
  obtain ⟨dangling, hbody, hno⟩ := ih.statement h₄ (by omega)
  refine ⟨dangling, ?_, hno⟩
  rw [hs₁]
  exact .whileLoop hword hl (hs₃ ▸ phrase_of_readTier h₂ (by omega)) hr hbody

theorem forLoop_succ {stmt : Stmt} (h : readFor (n + 1) s = .ok stmt s')
    (hq : s'.count ≤ s.count) {word : Token} (hword : word.kind = .forWord) :
    WholePhrase (word :: s.ahead) stmt s'.ahead := by
  unfold readFor at h
  obtain ⟨l, s₁, h₁, h⟩ := bind_eq_ok.1 h
  obtain ⟨initializer, s₂, h₂, h⟩ := bind_eq_ok.1 h
  obtain ⟨condition, s₃, h₃, h⟩ := bind_eq_ok.1 h
  obtain ⟨close, s₄, h₄, h⟩ := bind_eq_ok.1 h
  obtain ⟨increment, s₅, h₅, h⟩ := bind_eq_ok.1 h
  obtain ⟨r, s₆, h₆, h⟩ := bind_eq_ok.1 h
  obtain ⟨body, s₇, h₇, h⟩ := bind_eq_ok.1 h
  obtain ⟨rfl, rfl⟩ := pure_eq_ok.1 h
  obtain ⟨hs₁, -, hl⟩ := expect_eq_ok.1 h₁
  obtain ⟨hs₄, -, hclose⟩ := expect_eq_ok.1 h₄
  obtain ⟨hs₆, -, hr⟩ := expect_eq_ok.1 h₆
  have hc₁ := count_expect h₁
  have hle₂ := ((orderly_readInitializer n s₁).ok h₂).count_le
  have hle₃ := ((orderly_readOptional _ n s₂).ok h₃).count_le
  have hc₄ := count_expect h₄
  have hle₅ := ((orderly_readOptional _ n s₄).ok h₅).count_le
  have hc₆ := count_expect h₆
  have hle₇ := (((OrderlyStatements.all n).statement s₆).ok h₇).count_le
  have hcondition := optionalPhrase_of_readOptional h₃ (by omega)
  have hincrement := optionalPhrase_of_readOptional h₅ (by omega)
  obtain ⟨dangling, hbody, hno⟩ := ih.statement h₇ (by omega)
  refine ⟨dangling, ?_, hno⟩
  rw [hs₄] at hcondition
  rw [hs₆] at hincrement
  rw [hs₁]
  exact .forLoop hword hl (initializerPhrase_of_readInitializer h₂ (by omega)) hcondition hclose
    hincrement hr hbody

theorem block_succ {body : List Stmt} (h : readBlock (n + 1) s = .ok body s')
    (hq : s'.count ≤ s.count) :
    ∃ r, r.kind = .rightBrace ∧ SequencePhrase s.ahead body (r :: s'.ahead) := by
  unfold readBlock at h
  obtain ⟨here, s₁, h₁, h⟩ := bind_eq_ok.1 h
  obtain ⟨rfl, rfl⟩ := get_eq_ok.1 h₁
  obtain ⟨body', s₂, h₂, h⟩ := bind_eq_ok.1 h
  obtain ⟨close, s₃, h₃, h⟩ := bind_eq_ok.1 h
  obtain ⟨rfl, rfl⟩ := pure_eq_ok.1 h
  obtain ⟨hs₃, -, hclose⟩ := expect_eq_ok.1 h₃
  have hc₃ := count_expect h₃
  have ho := OrderlyStatements.all n
  obtain ⟨hbody, -⟩ := sequencePhrase_of_gather rfl ho.declaration ho.progresses ih.declaration _
    (Nat.le_refl _) h₂ (by omega)
  exact ⟨close, hclose, hs₃ ▸ hbody⟩

omit ih in
theorem all (n : Nat) : SoundStatements n := by
  induction n with
  | zero => exact zero
  | succ n ih =>
    exact {
      declaration := ih.declaration_succ
      statement := ih.statement_succ
      conditional := ih.conditional_succ
      whileLoop := ih.whileLoop_succ
      forLoop := ih.forLoop_succ
      block := ih.block_succ }

end SoundStatements

/-! ## Programs -/

/-- A program that is read without a report is a sequence of declarations up to an end. -/
theorem sequencePhrase_of_readProgram {program : List Stmt} (h : readProgram n s = .ok program s')
    (hq : s'.count ≤ s.count) :
    ∃ e r, e.kind = .eof ∧ SequencePhrase s.ahead program (e :: r) := by
  unfold readProgram at h
  obtain ⟨here, s₁, h₁, h⟩ := bind_eq_ok.1 h
  obtain ⟨rfl, rfl⟩ := get_eq_ok.1 h₁
  have ho := OrderlyStatements.all n
  obtain ⟨hbody, e, r, hs', he⟩ := sequencePhrase_of_gather (by simp) ho.declaration ho.progresses
    (SoundStatements.all n).declaration _ (Nat.le_refl _) h hq
  exact ⟨e, r, by simpa using he, hs' ▸ hbody⟩

end Lox.Grammar
