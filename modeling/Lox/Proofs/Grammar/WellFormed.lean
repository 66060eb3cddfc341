import Lox.Proofs.Grammar.Sound
import Lox.Token.Scan

/-!
# Trees that are read are well formed

Whatever is read from scanned tokens, with faults among them or without, has no misfit in it: the
operators are operators of their nodes, the names are names, the literals are values a program can
have, and variables are declared only in sequences (`exists_parse_scan`).  A fault may lose a
declaration, but what is kept of the others is whole.
-/

namespace Lox

/-! ## Well-formed trees -/

/-- A value of one of the four kinds that programs make. -/
def Value.Plain : Value → Prop
  | integer _ => False
  | _ => True

/-- Values that programs make can be shown. -/
theorem Value.Plain.exists_text {v : Value} (h : v.Plain) : ∃ text, v.text? = some text := by
  cases v with
  | integer n => exact h.elim
  | _ => exact ⟨_, rfl⟩

/-- The operators that stand between two operands and take the values of both. -/
def Kind.binaryOperators : List Kind :=
  [.plus, .minus, .star, .slash, .greater, .greaterEqual, .less, .lessEqual, .equalEqual,
   .bangEqual]

/-- Every node is where it may stand and has all its parts. -/
def Expr.WellFormed : Expr → Prop
  | literal v => v.Plain
  | grouping e => e.WellFormed
  | unary operator e => operator.kind ∈ [Kind.bang, .minus] ∧ e.WellFormed
  | binary a operator b =>
    operator.kind ∈ Kind.binaryOperators ∧ a.WellFormed ∧ b.WellFormed
  | logical a operator b => operator.kind ∈ [Kind.andWord, .orWord] ∧ a.WellFormed ∧ b.WellFormed
  | reference name => name.kind = .identifier
  | assign name e => name.kind = .identifier ∧ e.WellFormed
  | misfit _ => False

namespace Stmt

/-- A variable with a name, and with a well-formed initializer or none. -/
def WellFormedVariable (s : Stmt) : Prop :=
  ∃ name initializer, s = declare name initializer ∧ name.kind = .identifier ∧
    ∀ e ∈ initializer, e.WellFormed

mutual

/-- A statement that is no variable, with well-formed parts. -/
def WellFormed : Stmt → Prop
  | expression e | print e => e.WellFormed
  | declare _ _ => False
  | block body => WellFormedAll body
  | ifThen condition thenBranch => condition.WellFormed ∧ thenBranch.WellFormed
  | ifElse condition thenBranch elseBranch =>
    condition.WellFormed ∧ thenBranch.WellFormed ∧ elseBranch.WellFormed
  | loop condition body => condition.WellFormed ∧ body.WellFormed
  | misfit _ => False

/-- Variables and statements one after the other, all of them well formed. -/
def WellFormedAll : List Stmt → Prop
  | [] => True
  | s :: ss => (s.WellFormedVariable ∨ s.WellFormed) ∧ WellFormedAll ss

end

/-- A well-formed declaration: a variable or a statement. -/
def WellFormedDeclaration (s : Stmt) : Prop := s.WellFormedVariable ∨ s.WellFormed

/-- A `for` loop with well-formed parts is well formed. -/
theorem wellFormed_forLoop {initializer : Option Stmt} {condition increment : Option Expr}
    {body : Stmt} (hi : ∀ s ∈ initializer, s.WellFormedDeclaration)
    (hc : ∀ e ∈ condition, e.WellFormed) (hn : ∀ e ∈ increment, e.WellFormed)
    (hb : body.WellFormed) : (forLoop initializer condition increment body).WellFormed := by
  have hcondition : (condition.getD (.literal (.bool true))).WellFormed := by
    cases condition with
    | none => exact trivial
    | some e => exact hc e rfl
  cases increment with
  | none =>
    cases initializer with
    | none => exact ⟨hcondition, hb⟩
    | some s => exact ⟨hi s rfl, Or.inr ⟨hcondition, hb⟩, trivial⟩
  | some e =>
    have hbody : (block [body, expression e]).WellFormed :=
      ⟨Or.inr hb, Or.inr (hn e rfl), trivial⟩
    cases initializer with
    | none => exact ⟨hcondition, hbody⟩
    | some s => exact ⟨hi s rfl, Or.inr ⟨hcondition, hbody⟩, trivial⟩

end Stmt

namespace Grammar

open Computing

/-! ## What rules yield -/

variable {α β : Type} {P : α → Prop} {Q : β → Prop} {s s' : Reading} {n : Nat}

/-- The literals of the tokens ahead are values that programs make. -/
def Reading.Plain (s : Reading) : Prop := ∀ t ∈ s.ahead, t.literal.Plain

theorem Reading.Plain.of_suffix (h : s.Plain) (hs : s'.ahead <:+ s.ahead) : s'.Plain :=
  fun t ht => h t (hs.subset ht)

/-- Over plain tokens, whatever the rule reads has this property. -/
def Yields (rule : Rule α) (P : α → Prop) : Prop :=
  ∀ s a s', s.Plain → rule s = .ok a s' → s'.Plain ∧ P a

theorem yields_pure {a : α} (h : P a) : Yields (pure a) P := by
  intro s a' s' hs hr
  obtain ⟨rfl, rfl⟩ := pure_eq_ok.1 hr
  exact ⟨hs, h⟩

theorem yields_throw (stop : Stop) : Yields (throw stop) P :=
  fun _ _ _ _ h => absurd h throw_ne_ok

theorem Yields.bind {rule : Rule α} {next : α → Rule β} (h : Yields rule P)
    (hn : ∀ a, P a → Yields (next a) Q) : Yields (rule >>= next) Q := by
  intro s b s'' hs hr
  obtain ⟨a, s', ha, hb⟩ := bind_eq_ok.1 hr
  obtain ⟨hs', hp⟩ := h s a s' hs ha
  exact hn a hp s' b s'' hs' hb

theorem Yields.map {rule : Rule α} (h : Yields rule P) (g : α → β) (hg : ∀ a, P a → Q (g a)) :
    Yields (g <$> rule) Q :=
  h.bind fun a ha => yields_pure (hg a ha)

theorem yields_accept (kinds : List Kind) :
    Yields (accept kinds) fun o => ∀ t ∈ o, t.kind ∈ kinds := by
  intro s o s' hs hr
  cases o with
  | none =>
    obtain ⟨rfl, -⟩ := accept_eq_none.1 hr
    exact ⟨hs, by simp⟩
  | some t =>
    obtain ⟨hahead, -, -, hmem⟩ := accept_eq_some.1 hr
    refine ⟨hs.of_suffix (hahead ▸ List.suffix_cons _ _), ?_⟩
    rintro _ ⟨⟩
    exact hmem

theorem yields_expect {n : Nat} (e : Expectation) : Yields (expect n e) fun t => t.kind = e.kind := by
  intro s t s' hs hr
  obtain ⟨hahead, -, hk⟩ := expect_eq_ok.1 hr
  exact ⟨hs.of_suffix (hahead ▸ List.suffix_cons _ _), hk⟩

/-- A step that leaves the tokens as they are, or drops some. -/
theorem yields_of_orderly {rule : Rule α} (h : Orderly rule) : Yields rule fun _ => True :=
  fun s _ _ hs hr => ⟨hs.of_suffix ((h s).ok hr).suffix, trivial⟩

/-! ## Expressions -/

theorem yields_chain {operators : List Kind} {join : Expr → Token → Expr → Expr}
    {operand : Rule Expr} (ho : Yields operand Expr.WellFormed)
    (hj : ∀ a operator b, operator.kind ∈ operators → a.WellFormed → b.WellFormed →
      (join a operator b).WellFormed) (bound : List Token) {left : Expr} (hl : left.WellFormed) :
    Yields (chain operators join operand bound left) Expr.WellFormed := by
  induction bound generalizing left with
  | nil => exact yields_throw _
  | cons _ bound ih =>
    unfold chain
    refine (yields_accept _).bind fun o hmem => ?_
    cases o with
    | none => exact yields_pure hl
    | some operator => exact ho.bind fun right hr => ih (hj _ _ _ (hmem operator rfl) hl hr)

theorem yields_leftJoined {operators : List Kind} {join : Expr → Token → Expr → Expr}
    {operand : Rule Expr} (ho : Yields operand Expr.WellFormed)
    (hj : ∀ a operator b, operator.kind ∈ operators → a.WellFormed → b.WellFormed →
      (join a operator b).WellFormed) :
    Yields (leftJoined operators join operand) Expr.WellFormed :=
  ho.bind fun _ hfirst => (yields_of_orderly orderly_get).bind fun _ _ => yields_chain ho hj _ hfirst

theorem wellFormed_join {tier : Tier} {a b : Expr} {operator : Token}
    (hmem : operator.kind ∈ tier.operators) (ha : a.WellFormed) (hb : b.WellFormed) :
    (tier.join a operator b).WellFormed := by
  have hbinary : ∀ tier ∈ [Tier.equality, .comparison, .term, .factor],
      ∀ k ∈ tier.operators, k ∈ Kind.binaryOperators := by decide
  have hlogical : ∀ tier ∈ [Tier.or, .and], ∀ k ∈ tier.operators, k ∈ [Kind.andWord, .orWord] := by
    decide
  cases tier with
  | or | and => exact ⟨hlogical _ (by decide) _ hmem, ha, hb⟩
  | equality | comparison | term | factor => exact ⟨hbinary _ (by decide) _ hmem, ha, hb⟩
  | _ => exact absurd hmem List.not_mem_nil

theorem yields_primary (ih : ∀ tier, Yields (readTier n tier) Expr.WellFormed) :
    Yields (readTier (n + 1) .primary) Expr.WellFormed := by
  intro s e s' hs h
  cases hahead : s.ahead with
  | nil =>
    rw [readTier, bind_of_error (peek_eq_error.2 ⟨rfl, rfl, hahead⟩)] at h
    cases h
  | cons t r =>
    have hr : Reading.Plain { s with ahead := r } :=
      hs.of_suffix (hahead ▸ List.suffix_cons t r)
    by_cases hname : t.kind = .identifier
    · rw [readTier_reference hahead hname] at h
      obtain ⟨rfl, rfl⟩ := EStateM.Result.ok.inj h
      exact ⟨hr, hname⟩
    by_cases hparen : t.kind = .leftParen
    · rw [readTier_grouping hahead hparen] at h
      have hgroup : Yields (do
          let inner ← readTier n .expression
          let _ ← expect n .endOfGroup
          return Expr.grouping inner) Expr.WellFormed :=
        (ih .expression).bind fun _ hi => (yields_expect _).bind fun _ _ => yields_pure hi
      exact hgroup _ _ _ hr h
    cases hv : t.value? with
    | some v =>
      rw [readTier_literal hahead hv] at h
      obtain ⟨rfl, rfl⟩ := EStateM.Result.ok.inj h
      refine ⟨hr, ?_⟩
      unfold Token.value? at hv
      split at hv
      case h_6 => cases hv
      case h_4 | h_5 =>
        obtain rfl := Option.some.inj hv
        exact hs t (hahead ▸ List.mem_cons_self)
      all_goals
        obtain rfl := Option.some.inj hv
        exact trivial
    | none =>
      rw [readTier_noExpression hahead hv hname hparen] at h
      exact absurd h fail_ne_ok

/-- All that a rule for expressions gives is well formed. -/
theorem yields_readTier (n : Nat) (tier : Tier) : Yields (readTier n tier) Expr.WellFormed := by
  induction n generalizing tier with
  | zero => exact yields_throw _
  | succ n ih =>
    by_cases hop : tier.operators = []
    · cases tier with
      | expression => exact ih .assignment
      | assignment =>
        unfold readTier
        refine (ih .or).bind fun target ht => (yields_accept _).bind fun o _ => ?_
        cases o with
        | none => exact yields_pure ht
        | some equal =>
          refine (ih .assignment).bind fun value hv => ?_
          split
          · exact yields_pure ⟨ht, hv⟩
          · exact (yields_of_orderly (orderly_report _ _)).bind fun _ _ => yields_pure ht
      | unary =>
        unfold readTier
        refine (yields_accept _).bind fun o hmem => ?_
        cases o with
        | none => exact ih .primary
        | some operator => exact (ih .unary).bind fun e he => yields_pure ⟨hmem operator rfl, he⟩
      | primary => exact yields_primary ih
      | _ => exact absurd hop (List.cons_ne_nil _ _)
    · rw [readTier_of_operators hop]
      exact yields_leftJoined (ih tier.next) fun _ _ _ => wellFormed_join

theorem yields_readExpression (n : Nat) : Yields (readExpression n) Expr.WellFormed :=
  yields_readTier n .expression

/-! ## Statements without statements inside -/

theorem yields_readVariable (n : Nat) : Yields (readVariable n) Stmt.WellFormedVariable := by
  cases n with
  | zero => exact yields_throw _
  | succ n =>
    unfold readVariable
    refine (yields_expect _).bind fun name hname => (yields_accept _).bind fun o _ => ?_
    cases o with
    | none =>
      exact (yields_expect _).bind fun _ _ => yields_pure ⟨name, none, rfl, hname, by simp⟩
    | some equal =>
      refine ((yields_readExpression n).map (Q := fun o => ∀ e ∈ o, e.WellFormed) some ?_).bind
        fun o ho => (yields_expect _).bind fun _ _ => yields_pure ⟨name, o, rfl, hname, ho⟩
      rintro e he _ ⟨⟩
      exact he

theorem yields_readPrint (n : Nat) : Yields (readPrint n) Stmt.WellFormed := by
  cases n with
  | zero => exact yields_throw _
  | succ n =>
    exact (yields_readExpression n).bind fun e he => (yields_expect _).bind fun _ _ => yields_pure he

theorem yields_readEffect (n : Nat) : Yields (readEffect n) Stmt.WellFormed := by
  cases n with
  | zero => exact yields_throw _
  | succ n =>
    exact (yields_readExpression n).bind fun e he => (yields_expect _).bind fun _ _ => yields_pure he

theorem yields_readInitializer (n : Nat) :
    Yields (readInitializer n) fun o => ∀ s ∈ o, s.WellFormedDeclaration := by
  unfold readInitializer
  refine (yields_accept _).bind fun o _ => ?_
  split
  · exact yields_pure (by simp)
  · refine (yields_accept _).bind fun o _ => ?_
    split
    · refine (yields_readVariable n).map some ?_
      rintro s hs _ ⟨⟩
      exact Or.inl hs
    · refine (yields_readEffect n).map some ?_
      rintro s hs _ ⟨⟩
      exact Or.inr hs

theorem yields_readOptional (closing : Kind) (n : Nat) :
    Yields (readOptional closing n) fun o => ∀ e ∈ o, e.WellFormed := by
  unfold readOptional
  refine (yields_of_orderly orderly_isNext).bind fun b _ => ?_
  split
  · exact yields_pure (by simp)
  · refine (yields_readExpression n).map some ?_
    rintro e he _ ⟨⟩
    exact he

/-! ## Sequences of declarations -/

/-- What recovery keeps is what the rule has read in full. -/
theorem Yields.recover {n : Nat} {rule : Rule Stmt} {P : Stmt → Prop} (ho : Orderly rule)
    (h : Yields rule P) : Yields (recover n rule) fun o => ∀ s ∈ o, P s := by
  intro s o s' hs hr
  refine ⟨hs.of_suffix ((orderly_recover ho s).ok hr).suffix, ?_⟩
  rintro stmt ⟨⟩
  rcases recover_eq_ok hr with ⟨_, hstmt, hrule⟩ | ⟨hnone, -⟩
  · obtain rfl := Option.some.inj hstmt
    exact (h s _ s' hs hrule).2
  · cases hnone

theorem yields_gather {closes : Kind → Bool} {item : Rule (Option Stmt)}
    (h : Yields item fun o => ∀ s ∈ o, s.WellFormedDeclaration) (bound : List Token) :
    Yields (gather closes item bound) Stmt.WellFormedAll := by
  induction bound with
  | nil => exact yields_throw _
  | cons _ bound ih =>
    unfold gather
    refine (yields_of_orderly orderly_peek).bind fun t _ => ?_
    split
    · exact yields_pure trivial
    · refine h.bind fun o ho => ih.bind fun ss hss => yields_pure ?_
      cases o with
      | none => exact hss
      | some stmt => exact ⟨ho stmt rfl, hss⟩

/-! ## Statements with statements inside -/

/-- What is kept at one depth: all rules for statements give well-formed trees. -/
structure WellFormedStatements (n : Nat) : Prop where
  declaration : Yields (readDeclaration n) fun o => ∀ s ∈ o, s.WellFormedDeclaration
  statement : Yields (readStatement n) Stmt.WellFormed
  conditional : Yields (readIf n) Stmt.WellFormed
  whileLoop : Yields (readWhile n) Stmt.WellFormed
  forLoop : Yields (readFor n) Stmt.WellFormed
  block : Yields (readBlock n) Stmt.WellFormedAll

namespace WellFormedStatements

theorem zero : WellFormedStatements 0 where
  declaration := yields_throw _
  statement := yields_throw _
  conditional := yields_throw _
  whileLoop := yields_throw _
  forLoop := yields_throw _
  block := yields_throw _

variable (ih : WellFormedStatements n)

include ih

theorem declaration_succ :
    Yields (readDeclaration (n + 1)) fun o => ∀ s ∈ o, s.WellFormedDeclaration := by
  unfold readDeclaration
  refine .recover (OrderlyStatements.all n).orderly_declaration ?_
  refine (yields_accept _).bind fun o _ => ?_
  cases o with
  | none => exact fun s a s' hs hr => (ih.statement s a s' hs hr).imp_right Or.inr
  | some word => exact fun s a s' hs hr => (yields_readVariable n s a s' hs hr).imp_right Or.inl

theorem statement_succ : Yields (readStatement (n + 1)) Stmt.WellFormed := by
  intro s stmt s' hs h
  cases hahead : s.ahead with
  | nil =>
    rw [readStatement, bind_of_error (peek_eq_error.2 ⟨rfl, rfl, hahead⟩)] at h
    cases h
  | cons t r =>
    have hr : Reading.Plain { s with ahead := r } :=
      hs.of_suffix (hahead ▸ List.suffix_cons t r)
    by_cases hif : t.kind = .ifWord
    · rw [readStatement_if hahead hif] at h
      exact ih.conditional _ _ _ hr h
    by_cases hwhile : t.kind = .whileWord
    · rw [readStatement_while hahead hwhile] at h
      exact ih.whileLoop _ _ _ hr h
    by_cases hfor : t.kind = .forWord
    · rw [readStatement_for hahead hfor] at h
      exact ih.forLoop _ _ _ hr h
    by_cases hprint : t.kind = .printWord
    · rw [readStatement_print hahead hprint] at h
      exact yields_readPrint n _ _ _ hr h
    by_cases hblock : t.kind = .leftBrace
    · rw [readStatement_block hahead hblock] at h
      exact ih.block.map Stmt.block (fun _ hb => hb) _ _ _ hr h
    · rw [readStatement_effect hahead (by simp [hif, hwhile, hfor, hprint, hblock])] at h
      exact yields_readEffect n _ _ _ hs h

theorem conditional_succ : Yields (readIf (n + 1)) Stmt.WellFormed := by
  unfold readIf
  refine (yields_expect _).bind fun _ _ => (yields_readExpression n).bind fun _ hc =>
    (yields_expect _).bind fun _ _ => ih.statement.bind fun _ ht =>
    (yields_accept _).bind fun o _ => ?_
  cases o with
  | none => exact yields_pure ⟨hc, ht⟩
  | some other => exact ih.statement.bind fun _ he => yields_pure ⟨hc, ht, he⟩

theorem whileLoop_succ : Yields (readWhile (n + 1)) Stmt.WellFormed :=
  (yields_expect _).bind fun _ _ => (yields_readExpression n).bind fun _ hc =>
    (yields_expect _).bind fun _ _ => ih.statement.bind fun _ hb => yields_pure ⟨hc, hb⟩

theorem forLoop_succ : Yields (readFor (n + 1)) Stmt.WellFormed :=
  (yields_expect _).bind fun _ _ => (yields_readInitializer n).bind fun _ hi =>
    (yields_readOptional _ n).bind fun _ hc => (yields_expect _).bind fun _ _ =>
    (yields_readOptional _ n).bind fun _ hn => (yields_expect _).bind fun _ _ =>
    ih.statement.bind fun _ hb => yields_pure (Stmt.wellFormed_forLoop hi hc hn hb)

theorem block_succ : Yields (readBlock (n + 1)) Stmt.WellFormedAll :=
  (yields_of_orderly orderly_get).bind fun _ _ => (yields_gather ih.declaration _).bind
    fun _ hb => (yields_expect _).bind fun _ _ => yields_pure hb

omit ih in
theorem all (n : Nat) : WellFormedStatements n := by
  induction n with
  | zero => exact zero
  | succ n ih =>
    exact {
      declaration := ih.declaration_succ
      statement := ih.statement_succ
      conditional := ih.conditional_succ
      whileLoop := ih.whileLoop_succ
      forLoop := ih.forLoop_succ
      block := ih.block_succ }

end WellFormedStatements

end Grammar

open Grammar

/-! ## Scanned tokens -/

/-- What is read of tokens with plain literals is well formed. -/
theorem wellFormedAll_of_parse {tokens : List Token} {program : List Stmt}
    (hp : ∀ t ∈ tokens, t.literal.Plain) (h : (parse tokens).program? = some program) :
    Stmt.WellFormedAll program := by
  unfold parse at h
  cases hr : readProgram nestingLimit ⟨closed tokens, []⟩ with
  | error stop s =>
    rw [hr] at h
    cases h
  | ok program' s =>
    rw [hr] at h
    obtain rfl := Option.some.inj h
    have hs : Reading.Plain ⟨closed tokens, []⟩ := by
      unfold closed
      split
      · intro t ht
        rw [List.mem_singleton.1 ht]
        exact trivial
      · exact hp
    exact ((yields_of_orderly orderly_get).bind (fun _ _ =>
      yields_gather (WellFormedStatements.all _).declaration _) _ _ _ hs hr).2

theorem plain_of_mem_tokensFrom {line : Int} {ps : List Piece} {t : Token}
    (h : t ∈ tokensFrom line ps) : t.literal.Plain := by
  induction ps generalizing line with
  | nil =>
    rw [tokensFrom_nil, List.mem_singleton] at h
    rw [h]
    exact trivial
  | cons p ps ih =>
    rcases List.mem_append.1 h with h | h
    · rw [Option.mem_toList] at h
      unfold Piece.token? at h
      split at h
      case h_5 => cases h
      all_goals
        obtain rfl := Option.some.inj h
        exact trivial
    · exact ih h

/-- Scanned tokens come to an end. -/
theorem exists_eof_tokensFrom (line : Int) (ps : List Piece) :
    ∃ t ∈ tokensFrom line ps, t.kind = .eof := by
  induction ps generalizing line with
  | nil => exact ⟨_, List.mem_singleton_self _, rfl⟩
  | cons p ps ih =>
    obtain ⟨t, ht, hk⟩ := ih (line + p.lineEnds)
    exact ⟨t, List.mem_append_right _ ht, hk⟩

/-- Every source is read as a program, and that program is well formed. -/
theorem exists_parse_scan (source : String) :
    ∃ program, (parse (scan source).tokens).program? = some program ∧
      Stmt.WellFormedAll program := by
  obtain ⟨program, hp⟩ := Option.isSome_iff_exists.1 (isSome_parse (exists_eof_tokensFrom 1 _))
  exact ⟨program, hp, wellFormedAll_of_parse (fun t ht => plain_of_mem_tokensFrom ht) hp⟩

end Lox
