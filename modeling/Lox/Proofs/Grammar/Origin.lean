import Lox.Proofs.Grammar.WellFormed

/-!
# The tokens of a tree are tokens that were read

Operators and names stand in a tree as the tokens they were read from.  Reading makes no tokens of
its own and changes none: whatever holds of all tokens ahead holds of all tokens of the trees that
are read, with faults among them or without (`draws_readTier`, `DrawsStatements.all`).  So the
tokens of a program are among those it was read from (`mem_of_mem_tokensAll`), and those of a
well-formed program are operators and names.
-/

namespace Lox

/-! ## Tokens of trees -/

/-- The tokens that stand in an expression. -/
def Expr.tokens : Expr → List Token
  | literal _ | misfit _ => []
  | grouping e => e.tokens
  | unary operator e => operator :: e.tokens
  | binary a operator b | logical a operator b => operator :: (a.tokens ++ b.tokens)
  | reference name => [name]
  | assign name e => name :: e.tokens

namespace Stmt

mutual

/-- The tokens that stand in a statement. -/
def tokens : Stmt → List Token
  | expression e | print e => e.tokens
  | declare name none => [name]
  | declare name (some e) => name :: e.tokens
  | block body => tokensAll body
  | ifThen condition thenBranch => condition.tokens ++ thenBranch.tokens
  | ifElse condition thenBranch elseBranch =>
    condition.tokens ++ (thenBranch.tokens ++ elseBranch.tokens)
  | loop condition body => condition.tokens ++ body.tokens
  | misfit _ => []

/-- The tokens that stand in some statements. -/
def tokensAll : List Stmt → List Token
  | [] => []
  | s :: ss => s.tokens ++ tokensAll ss

end

theorem mem_tokensAll {t : Token} {ss : List Stmt} :
    t ∈ tokensAll ss ↔ ∃ s ∈ ss, t ∈ s.tokens := by
  induction ss with
  | nil => simp [tokensAll]
  | cons s ss ih => simp [tokensAll, ih]

end Stmt

/-- All tokens of the expression have the property. -/
def Expr.All (Q : Token → Prop) (e : Expr) : Prop := ∀ t ∈ e.tokens, Q t

/-- All tokens of the statement have the property. -/
def Stmt.All (Q : Token → Prop) (s : Stmt) : Prop := ∀ t ∈ s.tokens, Q t

section

variable {Q : Token → Prop} {operator name : Token} {a b e : Expr} {s other : Stmt}

namespace Expr.All

theorem literal (v : Value) : (Expr.literal v).All Q := fun _ h => absurd h List.not_mem_nil

theorem reference (h : Q name) : (Expr.reference name).All Q :=
  fun _ ht => List.mem_singleton.1 ht ▸ h

theorem unary (h : Q operator) (he : e.All Q) : (Expr.unary operator e).All Q :=
  List.forall_mem_cons.2 ⟨h, he⟩

theorem assign (h : Q name) (he : e.All Q) : (Expr.assign name e).All Q :=
  List.forall_mem_cons.2 ⟨h, he⟩

theorem binary (h : Q operator) (ha : a.All Q) (hb : b.All Q) : (Expr.binary a operator b).All Q :=
  List.forall_mem_cons.2 ⟨h, List.forall_mem_append.2 ⟨ha, hb⟩⟩

theorem logical (h : Q operator) (ha : a.All Q) (hb : b.All Q) :
    (Expr.logical a operator b).All Q :=
  List.forall_mem_cons.2 ⟨h, List.forall_mem_append.2 ⟨ha, hb⟩⟩

end Expr.All

namespace Stmt.All

theorem block {body : List Stmt} (h : ∀ s ∈ body, s.All Q) : (Stmt.block body).All Q := by
  intro t ht
  obtain ⟨s, hs, ht⟩ := mem_tokensAll.1 ht
  exact h s hs t ht

theorem ifThen (he : e.All Q) (hs : s.All Q) : (Stmt.ifThen e s).All Q :=
  List.forall_mem_append.2 ⟨he, hs⟩

theorem ifElse (he : e.All Q) (hs : s.All Q) (ho : other.All Q) : (Stmt.ifElse e s other).All Q :=
  List.forall_mem_append.2 ⟨he, List.forall_mem_append.2 ⟨hs, ho⟩⟩

theorem loop (he : e.All Q) (hs : s.All Q) : (Stmt.loop e s).All Q :=
  List.forall_mem_append.2 ⟨he, hs⟩

/-- A `for` loop holds no tokens but those of its clauses and its body. -/
theorem forLoop {initializer : Option Stmt} {condition increment : Option Expr}
    (hi : ∀ s ∈ initializer, s.All Q) (hc : ∀ e ∈ condition, e.All Q)
    (hn : ∀ e ∈ increment, e.All Q) (hs : s.All Q) :
    (Stmt.forLoop initializer condition increment s).All Q := by
  have hcondition : (condition.getD (.literal (.bool true))).All Q := by
    cases condition with
    | none => exact .literal _
    | some e => exact hc e rfl
  have hwhole : ∀ body : Stmt, body.All Q → ∀ other ∈ initializer,
      (Stmt.block [other, .loop (condition.getD (.literal (.bool true))) body]).All Q :=
    fun body hb other ho => .block (List.forall_mem_cons.2
      ⟨hi other ho, List.forall_mem_singleton.2 (.loop hcondition hb)⟩)
  have hbody : ∀ e ∈ increment, (Stmt.block [s, .expression e]).All Q := fun e he =>
    .block (List.forall_mem_cons.2 ⟨hs, List.forall_mem_singleton.2 (hn e he)⟩)
  cases increment with
  | none =>
    cases initializer with
    | none => exact .loop hcondition hs
    | some other => exact hwhole _ hs other rfl
  | some e =>
    cases initializer with
    | none => exact .loop hcondition (hbody e rfl)
    | some other => exact hwhole _ (hbody e rfl) other rfl

end Stmt.All

end

namespace Grammar

open Computing

/-! ## What rules draw from the tokens ahead -/

variable {α β : Type} {P : α → Prop} {P' : β → Prop} {Q : Token → Prop} {s s' : Reading} {n : Nat}

/-- All tokens ahead have the property. -/
def Reading.All (Q : Token → Prop) (s : Reading) : Prop := ∀ t ∈ s.ahead, Q t

theorem Reading.All.of_suffix (h : s.All Q) (hs : s'.ahead <:+ s.ahead) : s'.All Q :=
  fun t ht => h t (hs.subset ht)

/-- Where all tokens ahead have one property, what the rule reads has the other. -/
def Draws (Q : Token → Prop) (rule : Rule α) (P : α → Prop) : Prop :=
  ∀ s a s', s.All Q → rule s = .ok a s' → s'.All Q ∧ P a

theorem draws_pure {a : α} (h : P a) : Draws Q (pure a) P := by
  intro s a' s' hs hr
  obtain ⟨rfl, rfl⟩ := pure_eq_ok.1 hr
  exact ⟨hs, h⟩

theorem draws_throw (stop : Stop) : Draws Q (throw stop) P :=
  fun _ _ _ _ h => absurd h throw_ne_ok

theorem Draws.bind {rule : Rule α} {next : α → Rule β} (h : Draws Q rule P)
    (hn : ∀ a, P a → Draws Q (next a) P') : Draws Q (rule >>= next) P' := by
  intro s b s'' hs hr
  obtain ⟨a, s', ha, hb⟩ := bind_eq_ok.1 hr
  obtain ⟨hs', hp⟩ := h s a s' hs ha
  exact hn a hp s' b s'' hs' hb

theorem Draws.map {rule : Rule α} (h : Draws Q rule P) (g : α → β) (hg : ∀ a, P a → P' (g a)) :
    Draws Q (g <$> rule) P' :=
  h.bind fun a ha => draws_pure (hg a ha)

/-- What may be missing. -/
theorem Draws.some {rule : Rule α} (h : Draws Q rule P) :
    Draws Q (some <$> rule) fun o => ∀ a ∈ o, P a := by
  refine h.map _ ?_
  rintro a ha _ ⟨⟩
  exact ha

theorem draws_accept (kinds : List Kind) : Draws Q (accept kinds) fun o => ∀ t ∈ o, Q t := by
  intro s o s' hs hr
  cases o with
  | none =>
    obtain ⟨rfl, -⟩ := accept_eq_none.1 hr
    exact ⟨hs, by simp⟩
  | some t =>
    obtain ⟨hahead, -⟩ := accept_eq_some.1 hr
    refine ⟨hs.of_suffix (hahead ▸ List.suffix_cons _ _), ?_⟩
    rintro _ ⟨⟩
    exact hs t (hahead ▸ List.mem_cons_self)

theorem draws_expect {n : Nat} (e : Expectation) : Draws Q (expect n e) Q := by
  intro s t s' hs hr
  obtain ⟨hahead, -⟩ := expect_eq_ok.1 hr
  exact ⟨hs.of_suffix (hahead ▸ List.suffix_cons _ _), hs t (hahead ▸ List.mem_cons_self)⟩

theorem draws_peek : Draws Q peek Q := by
  intro s t s' hs hr
  obtain ⟨rfl, r, hahead⟩ := peek_eq_ok.1 hr
  exact ⟨hs, hs t (hahead ▸ List.mem_cons_self)⟩

theorem draws_skip : Draws Q skip fun _ => True := by
  intro s u s' hs hr
  obtain ⟨t, hahead, -⟩ := skip_eq_ok.1 hr
  exact ⟨hs.of_suffix (hahead ▸ List.suffix_cons _ _), trivial⟩

/-- A step that leaves the tokens as they are, or drops some. -/
theorem draws_of_orderly {rule : Rule α} (h : Orderly rule) : Draws Q rule fun _ => True :=
  fun s _ _ hs hr => ⟨hs.of_suffix ((h s).ok hr).suffix, trivial⟩

/-! ## Expressions -/

theorem draws_chain {operators : List Kind} {join : Expr → Token → Expr → Expr}
    {operand : Rule Expr} (ho : Draws Q operand (Expr.All Q))
    (hj : ∀ a operator b, Q operator → a.All Q → b.All Q → (join a operator b).All Q)
    (bound : List Token) {left : Expr} (hl : left.All Q) :
    Draws Q (chain operators join operand bound left) (Expr.All Q) := by
  induction bound generalizing left with
  | nil => exact draws_throw _
  | cons _ bound ih =>
    unfold chain
    refine (draws_accept _).bind fun o hQ => ?_
    cases o with
    | none => exact draws_pure hl
    | some operator => exact ho.bind fun right hr => ih (hj _ _ _ (hQ operator rfl) hl hr)

theorem draws_leftJoined {operators : List Kind} {join : Expr → Token → Expr → Expr}
    {operand : Rule Expr} (ho : Draws Q operand (Expr.All Q))
    (hj : ∀ a operator b, Q operator → a.All Q → b.All Q → (join a operator b).All Q) :
    Draws Q (leftJoined operators join operand) (Expr.All Q) :=
  ho.bind fun _ hfirst => (draws_of_orderly orderly_get).bind fun _ _ => draws_chain ho hj _ hfirst

theorem all_join (tier : Tier) {a b : Expr} {operator : Token} (h : Q operator) (ha : a.All Q)
    (hb : b.All Q) : (tier.join a operator b).All Q := by
  cases tier with
  | or | and => exact .logical h ha hb
  | _ => exact .binary h ha hb

theorem draws_primary (ih : ∀ tier, Draws Q (readTier n tier) (Expr.All Q)) :
    Draws Q (readTier (n + 1) .primary) (Expr.All Q) := by
  have hliteral : ∀ v, Draws Q (do skip; return Expr.literal v) (Expr.All Q) := fun v =>
    draws_skip.bind fun _ _ => draws_pure (.literal v)
  unfold readTier
  refine draws_peek.bind fun t ht => ?_
  split
  · exact hliteral _
  · exact hliteral _
  · exact hliteral _
  · exact hliteral _
  · exact hliteral _
  · exact draws_skip.bind fun _ _ => draws_pure (.reference ht)
  · exact draws_skip.bind fun _ _ => (ih .expression).bind fun _ hi =>
      (draws_expect _).bind fun _ _ => draws_pure hi
  · exact fun _ _ _ _ h => absurd h fail_ne_ok

/-- The tokens of an expression are among those it is read from. -/
theorem draws_readTier (n : Nat) (tier : Tier) : Draws Q (readTier n tier) (Expr.All Q) := by
  induction n generalizing tier with
  | zero => exact draws_throw _
  | succ n ih =>
    by_cases hop : tier.operators = []
    · cases tier with
      | expression => exact ih .assignment
      | assignment =>
        unfold readTier
        refine (ih .or).bind fun target ht => (draws_accept _).bind fun o _ => ?_
        cases o with
        | none => exact draws_pure ht
        | some equal =>
          refine (ih .assignment).bind fun value hv => ?_
          split
          · exact draws_pure (.assign (ht _ List.mem_cons_self) hv)
          · exact (draws_of_orderly (orderly_report _ _)).bind fun _ _ => draws_pure ht
      | unary =>
        unfold readTier
        refine (draws_accept _).bind fun o hQ => ?_
        cases o with
        | none => exact ih .primary
        | some operator =>
          exact (ih .unary).bind fun e he => draws_pure (.unary (hQ operator rfl) he)
      | primary => exact draws_primary ih
      | _ => exact absurd hop (List.cons_ne_nil _ _)
    · rw [readTier_of_operators hop]
      exact draws_leftJoined (ih tier.next) fun _ _ _ => all_join tier

theorem draws_readExpression (n : Nat) : Draws Q (readExpression n) (Expr.All Q) :=
  draws_readTier n .expression

/-! ## Statements without statements inside -/

theorem draws_readVariable (n : Nat) : Draws Q (readVariable n) (Stmt.All Q) := by
  cases n with
  | zero => exact draws_throw _
  | succ n =>
    unfold readVariable
    refine (draws_expect _).bind fun name hname => (draws_accept _).bind fun o _ => ?_
    cases o with
    | none =>
      refine (draws_expect _).bind fun _ _ => draws_pure fun t ht => ?_
      exact List.mem_singleton.1 ht ▸ hname
    | some equal =>
      refine (draws_readExpression n).some.bind fun o ho => (draws_expect _).bind fun _ _ => ?_
      cases o with
      | none => exact draws_pure fun t ht => List.mem_singleton.1 ht ▸ hname
      | some e => exact draws_pure (List.forall_mem_cons.2 ⟨hname, ho e rfl⟩)

theorem draws_readPrint (n : Nat) : Draws Q (readPrint n) (Stmt.All Q) := by
  cases n with
  | zero => exact draws_throw _
  | succ n =>
    exact (draws_readExpression n).bind fun e he => (draws_expect _).bind fun _ _ => draws_pure he

theorem draws_readEffect (n : Nat) : Draws Q (readEffect n) (Stmt.All Q) := by
  cases n with
  | zero => exact draws_throw _
  | succ n =>
    exact (draws_readExpression n).bind fun e he => (draws_expect _).bind fun _ _ => draws_pure he

theorem draws_readInitializer (n : Nat) :
    Draws Q (readInitializer n) fun o => ∀ s ∈ o, s.All Q := by
  unfold readInitializer
  refine (draws_accept _).bind fun o _ => ?_
  split
  · exact draws_pure (by simp)
  · refine (draws_accept _).bind fun o _ => ?_
    split
    · exact (draws_readVariable n).some
    · exact (draws_readEffect n).some

theorem draws_readOptional (closing : Kind) (n : Nat) :
    Draws Q (readOptional closing n) fun o => ∀ e ∈ o, e.All Q := by
  unfold readOptional
  refine (draws_of_orderly orderly_isNext).bind fun b _ => ?_
  split
  · exact draws_pure (by simp)
  · exact (draws_readExpression n).some

/-! ## Sequences of declarations -/

/-- What recovery keeps is what the rule has read in full. -/
theorem Draws.recover {n : Nat} {rule : Rule Stmt} {P : Stmt → Prop} (ho : Orderly rule)
    (h : Draws Q rule P) : Draws Q (recover n rule) fun o => ∀ s ∈ o, P s := by
  intro s o s' hs hr
  refine ⟨hs.of_suffix ((orderly_recover ho s).ok hr).suffix, ?_⟩
  rintro stmt ⟨⟩
  rcases recover_eq_ok hr with ⟨_, hstmt, hrule⟩ | ⟨hnone, -⟩
  · obtain rfl := Option.some.inj hstmt
    exact (h s _ s' hs hrule).2
  · cases hnone

theorem draws_gather {closes : Kind → Bool} {item : Rule (Option Stmt)}
    (h : Draws Q item fun o => ∀ s ∈ o, s.All Q) (bound : List Token) :
    Draws Q (gather closes item bound) fun ss => ∀ s ∈ ss, s.All Q := by
  induction bound with
  | nil => exact draws_throw _
  | cons _ bound ih =>
    unfold gather
    refine draws_peek.bind fun t _ => ?_
    split
    · exact draws_pure (by simp)
    · refine h.bind fun o ho => ih.bind fun ss hss => draws_pure ?_
      exact List.forall_mem_append.2 ⟨fun s hs => ho s (Option.mem_toList.1 hs), hss⟩

/-! ## Statements with statements inside -/

/-- What is kept at one depth: no rule for statements makes a token of its own. -/
structure DrawsStatements (Q : Token → Prop) (n : Nat) : Prop where
  declaration : Draws Q (readDeclaration n) fun o => ∀ s ∈ o, s.All Q
  statement : Draws Q (readStatement n) (Stmt.All Q)
  conditional : Draws Q (readIf n) (Stmt.All Q)
  whileLoop : Draws Q (readWhile n) (Stmt.All Q)
  forLoop : Draws Q (readFor n) (Stmt.All Q)
  block : Draws Q (readBlock n) fun ss => ∀ s ∈ ss, s.All Q

namespace DrawsStatements

theorem zero : DrawsStatements Q 0 where
  declaration := draws_throw _
  statement := draws_throw _
  conditional := draws_throw _
  whileLoop := draws_throw _
  forLoop := draws_throw _
  block := draws_throw _

variable (ih : DrawsStatements Q n)

include ih

theorem declaration_succ : Draws Q (readDeclaration (n + 1)) fun o => ∀ s ∈ o, s.All Q := by
  unfold readDeclaration
  refine .recover (OrderlyStatements.all n).orderly_declaration ?_
  refine (draws_accept _).bind fun o _ => ?_
  cases o with
  | none => exact ih.statement
  | some word => exact draws_readVariable n

theorem statement_succ : Draws Q (readStatement (n + 1)) (Stmt.All Q) := by
  unfold readStatement
  refine draws_peek.bind fun t _ => ?_
  split
  · exact draws_skip.bind fun _ _ => draws_readPrint n
  · exact draws_skip.bind fun _ _ => ih.conditional
  · exact draws_skip.bind fun _ _ => ih.whileLoop
  · exact draws_skip.bind fun _ _ => ih.forLoop
  · exact draws_skip.bind fun _ _ => ih.block.map Stmt.block fun _ => .block
  · exact draws_readEffect n

theorem conditional_succ : Draws Q (readIf (n + 1)) (Stmt.All Q) := by
  unfold readIf
  refine (draws_expect _).bind fun _ _ => (draws_readExpression n).bind fun _ hc =>
    (draws_expect _).bind fun _ _ => ih.statement.bind fun _ ht =>
    (draws_accept _).bind fun o _ => ?_
  cases o with
  | none => exact draws_pure (.ifThen hc ht)
  | some other => exact ih.statement.bind fun _ he => draws_pure (.ifElse hc ht he)

theorem whileLoop_succ : Draws Q (readWhile (n + 1)) (Stmt.All Q) :=
  (draws_expect _).bind fun _ _ => (draws_readExpression n).bind fun _ hc =>
    (draws_expect _).bind fun _ _ => ih.statement.bind fun _ hb => draws_pure (.loop hc hb)

theorem forLoop_succ : Draws Q (readFor (n + 1)) (Stmt.All Q) :=
  (draws_expect _).bind fun _ _ => (draws_readInitializer n).bind fun _ hi =>
    (draws_readOptional _ n).bind fun _ hc => (draws_expect _).bind fun _ _ =>
    (draws_readOptional _ n).bind fun _ hn => (draws_expect _).bind fun _ _ =>
    ih.statement.bind fun _ hb => draws_pure (.forLoop hi hc hn hb)

theorem block_succ : Draws Q (readBlock (n + 1)) fun ss => ∀ s ∈ ss, s.All Q :=
  (draws_of_orderly orderly_get).bind fun _ _ => (draws_gather ih.declaration _).bind
    fun _ hb => (draws_expect _).bind fun _ _ => draws_pure hb

omit ih in
theorem all (n : Nat) : DrawsStatements Q n := by
  induction n with
  | zero => exact zero
  | succ n ih =>
    exact {
      declaration := ih.declaration_succ
      statement := ih.statement_succ
      conditional := ih.conditional_succ
      whileLoop := ih.whileLoop_succ
      forLoop := ih.forLoop_succ
      block := ih.block_succ }

end DrawsStatements

end Grammar

open Grammar

/-! ## Programs -/

/-- The tokens of a program are among those it is read from, which are not none. -/
theorem mem_of_mem_tokensAll {tokens : List Token} {program : List Stmt} {t : Token}
    (hne : tokens ≠ []) (h : (parse tokens).program? = some program)
    (ht : t ∈ Stmt.tokensAll program) : t ∈ tokens := by
  unfold parse at h
  cases hr : readProgram nestingLimit ⟨closed tokens, []⟩ with
  | error stop s =>
    rw [hr] at h
    cases h
  | ok program' s =>
    rw [hr] at h
    obtain rfl := Option.some.inj h
    have hclosed : closed tokens = tokens := if_neg (by simpa using hne)
    have hs : Reading.All (· ∈ tokens) ⟨closed tokens, []⟩ := fun u hu => hclosed ▸ hu
    obtain ⟨stmt, hstmt, ht⟩ := Stmt.mem_tokensAll.1 ht
    exact ((draws_of_orderly orderly_get).bind (fun _ _ =>
      draws_gather (DrawsStatements.all _).declaration _) _ _ _ hs hr).2 stmt hstmt t ht

/-! ## Tokens of well-formed trees -/

/-- The kinds of names and operators. -/
def Kind.inTrees : List Kind :=
  .identifier :: .bang :: .andWord :: .orWord :: Kind.binaryOperators

/-- The tokens in a well-formed expression are names and operators. -/
theorem Expr.WellFormed.all {e : Expr} (h : e.WellFormed) : e.All (·.kind ∈ Kind.inTrees) := by
  have hunary : ∀ k ∈ [Kind.bang, .minus], k ∈ Kind.inTrees := by decide
  have hlogical : ∀ k ∈ [Kind.andWord, .orWord], k ∈ Kind.inTrees := by decide
  have hbinary : ∀ k ∈ Kind.binaryOperators, k ∈ Kind.inTrees := by decide
  induction e with
  | literal v => exact .literal v
  | grouping e ih => exact ih h
  | unary operator e ih => exact .unary (hunary _ h.1) (ih h.2)
  | binary a operator b iha ihb => exact .binary (hbinary _ h.1) (iha h.2.1) (ihb h.2.2)
  | logical a operator b iha ihb => exact .logical (hlogical _ h.1) (iha h.2.1) (ihb h.2.2)
  | reference name => exact .reference (h ▸ List.mem_cons_self)
  | assign name e ih => exact .assign (h.1 ▸ List.mem_cons_self) (ih h.2)
  | misfit node => exact h.elim

end Lox
