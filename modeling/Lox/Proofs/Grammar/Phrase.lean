import Lox.Grammar.Statement

/-!
# Phrases

A phrase says of tokens, of a tree and of the tokens behind it that the tree stands for what is
between.  `Phrase` does so for the tiers of expressions, `StmtPhrase` for statements and
`SequencePhrase` for declarations one after the other.  Operators of one tier join from the left, as
in the tree.  A statement that ends in a conditional without an `else` is dangling: an `else` behind
it would belong to it, so it is no first branch of a conditional with two.
-/

namespace Lox.Grammar

/-! ## Tiers and their operators -/

namespace Tier

/-- The tier of the operands. -/
def next : Tier → Tier
  | expression => assignment
  | assignment => or
  | or => and
  | and => equality
  | equality => comparison
  | comparison => term
  | term => factor
  | factor => unary
  | unary | primary => primary

/-- The operators that join operands at a tier. -/
def operators : Tier → List Kind
  | or => [.orWord]
  | and => [.andWord]
  | equality => [.bangEqual, .equalEqual]
  | comparison => [.less, .lessEqual, .greater, .greaterEqual]
  | term => [.plus, .minus]
  | factor => [.star, .slash]
  | _ => []

/-- Operands joined by an operator of a tier. -/
def join : Tier → Expr → Token → Expr → Expr
  | or | and => .logical
  | _ => .binary

/-- Tiers are numbered from the loosest to the tightest. -/
def rank : Tier → Nat
  | expression => 0
  | assignment => 1
  | or => 2
  | and => 3
  | equality => 4
  | comparison => 5
  | term => 6
  | factor => 7
  | unary => 8
  | primary => 9

theorem rank_injective {a b : Tier} (h : a.rank = b.rank) : a = b := by
  cases a <;> cases b <;> first | rfl | exact absurd h (by decide)

theorem rank_next_of_ne {t : Tier} (h : t ≠ primary) : t.next.rank = t.rank + 1 := by
  cases t <;> first | rfl | exact absurd rfl h

theorem rank_le_next (t : Tier) : t.rank ≤ t.next.rank := by cases t <;> decide

end Tier

end Lox.Grammar

namespace Lox

open Grammar

/-- The tier at which an operator between two operands stands. -/
def Kind.tier? : Kind → Option Tier
  | .equal => some .assignment
  | .orWord => some .or
  | .andWord => some .and
  | .bangEqual | .equalEqual => some .equality
  | .less | .lessEqual | .greater | .greaterEqual => some .comparison
  | .plus | .minus => some .term
  | .star | .slash => some .factor
  | _ => none

theorem Kind.tier?_of_mem_operators {k : Kind} {t : Tier} (h : k ∈ t.operators) :
    k.tier? = some t := by
  cases t <;> simp only [Tier.operators, List.mem_cons, List.not_mem_nil, or_false] at h
  case equality | term | factor => rcases h with rfl | rfl <;> rfl
  case comparison => rcases h with rfl | rfl | rfl | rfl <;> rfl
  case or | and => subst h; rfl

/-- Words, signs and marks with which an expression begins. -/
def Kind.startsExpression : Kind → Bool
  | .bang | .minus | .falseWord | .trueWord | .nilWord | .number | .string | .identifier
  | .leftParen => true
  | _ => false

/-- Words, signs and marks with which a statement begins. -/
def Kind.opensStatement (k : Kind) : Bool :=
  k.startsExpression || [Kind.printWord, .ifWord, .whileWord, .forWord, .leftBrace].contains k

/-- The value that a token stands for by itself. -/
def Token.value? (t : Token) : Option Value :=
  match t.kind with
  | .falseWord => some (.bool false)
  | .trueWord => some (.bool true)
  | .nilWord => some .nil
  | .number | .string => some t.literal
  | _ => none

end Lox

namespace Lox.Grammar

/-! ## Expressions -/

/-- The first tokens are an expression of a tier, and the last ones are what is behind it. -/
inductive Phrase : Tier → List Token → Expr → List Token → Prop
  | tighter {tier ts e rs} (inner : Phrase tier.next ts e rs) : Phrase tier ts e rs
  | joined {tier ts a operator us b rs} (left : Phrase tier ts a (operator :: us))
      (mem : operator.kind ∈ tier.operators) (right : Phrase tier.next us b rs) :
      Phrase tier ts (tier.join a operator b) rs
  | assign {name equal ts e rs} (hname : name.kind = .identifier) (hequal : equal.kind = .equal)
      (value : Phrase .assignment ts e rs) :
      Phrase .assignment (name :: equal :: ts) (.assign name e) rs
  | unary {operator ts e rs} (mem : operator.kind ∈ [Kind.bang, .minus])
      (operand : Phrase .unary ts e rs) : Phrase .unary (operator :: ts) (.unary operator e) rs
  | literal {t v rs} (hv : t.value? = some v) : Phrase .primary (t :: rs) (.literal v) rs
  | reference {name rs} (hname : name.kind = .identifier) :
      Phrase .primary (name :: rs) (.reference name) rs
  | grouping {l ts e r rs} (hl : l.kind = .leftParen) (hr : r.kind = .rightParen)
      (inner : Phrase .expression ts e (r :: rs)) : Phrase .primary (l :: ts) (.grouping e) rs

/-! ## Statements -/

/-- What follows the word `var`: a name, and an initializer or none. -/
inductive VariablePhrase : List Token → Stmt → List Token → Prop
  | plain {name close rs} (hname : name.kind = .identifier) (hclose : close.kind = .semicolon) :
      VariablePhrase (name :: close :: rs) (.declare name none) rs
  | initialized {name equal ts e close rs} (hname : name.kind = .identifier)
      (hequal : equal.kind = .equal) (initializer : Phrase .expression ts e (close :: rs))
      (hclose : close.kind = .semicolon) :
      VariablePhrase (name :: equal :: ts) (.declare name (some e)) rs

/-- An expression that stands for its effects. -/
inductive EffectPhrase : List Token → Stmt → List Token → Prop
  | mk {ts e close rs} (inner : Phrase .expression ts e (close :: rs))
      (hclose : close.kind = .semicolon) : EffectPhrase ts (.expression e) rs

/-- The first clause of a `for` loop, with the semicolon that ends it. -/
inductive InitializerPhrase : List Token → Option Stmt → List Token → Prop
  | missing {close rs} (hclose : close.kind = .semicolon) : InitializerPhrase (close :: rs) none rs
  | variable {word ts s rs} (hword : word.kind = .varWord) (inner : VariablePhrase ts s rs) :
      InitializerPhrase (word :: ts) (some s) rs
  | effect {ts s rs} (inner : EffectPhrase ts s rs) : InitializerPhrase ts (some s) rs

/-- An expression that may be missing. -/
inductive OptionalPhrase : List Token → Option Expr → List Token → Prop
  | missing {rs} : OptionalPhrase rs none rs
  | present {ts e rs} (inner : Phrase .expression ts e rs) : OptionalPhrase ts (some e) rs

mutual

/-- The first tokens are a statement, which may be dangling, and the last ones are what is
behind it. -/
inductive StmtPhrase : Bool → List Token → Stmt → List Token → Prop
  | effect {ts s rs} (inner : EffectPhrase ts s rs) : StmtPhrase false ts s rs
  | print {word ts e close rs} (hword : word.kind = .printWord)
      (inner : Phrase .expression ts e (close :: rs)) (hclose : close.kind = .semicolon) :
      StmtPhrase false (word :: ts) (.print e) rs
  | block {l ts body r rs} (hl : l.kind = .leftBrace) (inner : SequencePhrase ts body (r :: rs))
      (hr : r.kind = .rightBrace) : StmtPhrase false (l :: ts) (.block body) rs
  | ifThen {word l ts condition r us dangling thenBranch rs} (hword : word.kind = .ifWord)
      (hl : l.kind = .leftParen) (hcondition : Phrase .expression ts condition (r :: us))
      (hr : r.kind = .rightParen) (hthen : StmtPhrase dangling us thenBranch rs) :
      StmtPhrase true (word :: l :: ts) (.ifThen condition thenBranch) rs
  | ifElse {word l ts condition r us thenBranch other vs dangling elseBranch rs}
      (hword : word.kind = .ifWord) (hl : l.kind = .leftParen)
      (hcondition : Phrase .expression ts condition (r :: us)) (hr : r.kind = .rightParen)
      (hthen : StmtPhrase false us thenBranch (other :: vs)) (hother : other.kind = .elseWord)
      (helse : StmtPhrase dangling vs elseBranch rs) :
      StmtPhrase dangling (word :: l :: ts) (.ifElse condition thenBranch elseBranch) rs
  | whileLoop {word l ts condition r us dangling body rs} (hword : word.kind = .whileWord)
      (hl : l.kind = .leftParen) (hcondition : Phrase .expression ts condition (r :: us))
      (hr : r.kind = .rightParen) (hbody : StmtPhrase dangling us body rs) :
      StmtPhrase dangling (word :: l :: ts) (.loop condition body) rs
  | forLoop {word l ts initializer us condition close vs increment r ws dangling body rs}
      (hword : word.kind = .forWord) (hl : l.kind = .leftParen)
      (hinitializer : InitializerPhrase ts initializer us)
      (hcondition : OptionalPhrase us condition (close :: vs)) (hclose : close.kind = .semicolon)
      (hincrement : OptionalPhrase vs increment (r :: ws)) (hr : r.kind = .rightParen)
      (hbody : StmtPhrase dangling ws body rs) :
      StmtPhrase dangling (word :: l :: ts) (.forLoop initializer condition increment body) rs

/-- The first tokens are declarations, and the last ones are what is behind them. -/
inductive SequencePhrase : List Token → List Stmt → List Token → Prop
  | nil {rs} : SequencePhrase rs [] rs
  | variable {word ts s us ss rs} (hword : word.kind = .varWord) (first : VariablePhrase ts s us)
      (rest : SequencePhrase us ss rs) : SequencePhrase (word :: ts) (s :: ss) rs
  | statement {dangling ts s us ss rs} (first : StmtPhrase dangling ts s us)
      (rest : SequencePhrase us ss rs) : SequencePhrase ts (s :: ss) rs

end

/-- The next token is no `else`. -/
def NoElse (rs : List Token) : Prop := ∀ t r, rs = t :: r → t.kind ≠ .elseWord

/-- The first tokens are a statement to which no `else` behind it belongs. -/
def WholePhrase (ts : List Token) (stmt : Stmt) (rs : List Token) : Prop :=
  ∃ dangling, StmtPhrase dangling ts stmt rs ∧ (dangling = true → NoElse rs)

/-! ## First tokens -/

/-- An expression begins with a token that can begin one. -/
theorem Phrase.starts {tier : Tier} {ts rs : List Token} {e : Expr} (h : Phrase tier ts e rs) :
    ∃ t r, ts = t :: r ∧ t.kind.startsExpression = true := by
  induction h with
  | tighter _ ih => exact ih
  | joined _ _ _ ih _ => exact ih
  | assign hname _ _ _ => exact ⟨_, _, rfl, by rw [hname]; rfl⟩
  | unary mem _ _ =>
    refine ⟨_, _, rfl, ?_⟩
    rcases List.mem_cons.1 mem with h | h
    · rw [h]; rfl
    · rw [List.mem_singleton.1 h]; rfl
  | @literal t v rs hv =>
    refine ⟨_, _, rfl, ?_⟩
    unfold Token.value? at hv
    split at hv
    case h_6 => cases hv
    all_goals next hk => rw [hk]; rfl
  | reference hname => exact ⟨_, _, rfl, by rw [hname]; rfl⟩
  | grouping hl _ _ _ => exact ⟨_, _, rfl, by rw [hl]; rfl⟩

/-- An operand without an operator before it begins with no such operator. -/
theorem Phrase.primary_starts {tier : Tier} {ts rs : List Token} {e : Expr}
    (h : Phrase tier ts e rs) (ht : tier = .primary) :
    ∃ t r, ts = t :: r ∧ t.kind ∉ [Kind.bang, .minus] := by
  induction h with
  | tighter _ ih => exact ih (by rw [ht]; rfl)
  | joined _ mem _ _ _ =>
    rw [ht] at mem
    exact absurd mem List.not_mem_nil
  | assign => cases ht
  | unary => cases ht
  | @literal t v rs hv =>
    refine ⟨_, _, rfl, fun hmem => ?_⟩
    unfold Token.value? at hv
    rcases List.mem_cons.1 hmem with h | h
    · rw [h] at hv
      cases hv
    · rw [List.mem_singleton.1 h] at hv
      cases hv
  | reference hname => exact ⟨_, _, rfl, by rw [hname]; decide⟩
  | grouping hl _ _ _ => exact ⟨_, _, rfl, by rw [hl]; decide⟩

theorem EffectPhrase.starts {ts rs : List Token} {stmt : Stmt} (h : EffectPhrase ts stmt rs) :
    ∃ t r, ts = t :: r ∧ t.kind.startsExpression = true := by
  cases h with
  | mk inner => exact inner.starts

theorem StmtPhrase.starts {dangling : Bool} {ts rs : List Token} {stmt : Stmt}
    (h : StmtPhrase dangling ts stmt rs) : ∃ t r, ts = t :: r ∧ t.kind.opensStatement = true := by
  cases h with
  | effect inner =>
    obtain ⟨t, r, rfl, ht⟩ := inner.starts
    exact ⟨t, r, rfl, by simp [Kind.opensStatement, ht]⟩
  | print h => exact ⟨_, _, rfl, by rw [h]; rfl⟩
  | block h => exact ⟨_, _, rfl, by rw [h]; rfl⟩
  | ifThen h => exact ⟨_, _, rfl, by rw [h]; rfl⟩
  | ifElse h => exact ⟨_, _, rfl, by rw [h]; rfl⟩
  | whileLoop h => exact ⟨_, _, rfl, by rw [h]; rfl⟩
  | forLoop h => exact ⟨_, _, rfl, by rw [h]; rfl⟩

/-- No declaration begins with an `else`. -/
theorem SequencePhrase.noElse {ts rs : List Token} {ss : List Stmt} (h : SequencePhrase ts ss rs)
    (hrs : NoElse rs) : NoElse ts := by
  intro t r ht
  cases h with
  | nil => exact hrs t r ht
  | «variable» hword =>
    rw [← (List.cons.inj ht).1, hword]
    decide
  | statement first =>
    obtain ⟨u, r', rfl, hu⟩ := first.starts
    rw [← (List.cons.inj ht).1]
    intro hk
    rw [hk] at hu
    cases hu

/-- A lone name is a phrase of one token. -/
theorem Phrase.eq_cons_of_reference {tier : Tier} {ts rs : List Token} {e : Expr} {name : Token}
    (h : Phrase tier ts e rs) (he : e = .reference name) :
    ts = name :: rs ∧ name.kind = .identifier := by
  induction h with
  | tighter _ ih => exact ih he
  | @joined tier =>
    cases tier <;> cases he
  | reference hname =>
    obtain rfl := Expr.reference.inj he
    exact ⟨rfl, hname⟩
  | _ => cases he

/-! ## Last tokens -/

theorem suffix_behind {t : Token} {ts rs : List Token} (h : rs <:+ ts) : rs <:+ t :: ts :=
  h.trans (List.suffix_cons t ts)

theorem suffix_through {t : Token} {ts us rs : List Token} (h : rs <:+ us) (h' : t :: us <:+ ts) :
    rs <:+ ts := (suffix_behind h).trans h'

/-- What is behind a phrase is the end of what it begins. -/
theorem Phrase.suffix {tier : Tier} {ts rs : List Token} {e : Expr} (h : Phrase tier ts e rs) :
    rs <:+ ts := by
  induction h with
  | tighter _ ih => exact ih
  | joined _ _ _ ih ih' => exact suffix_through ih' ih
  | assign _ _ _ ih => exact suffix_behind (suffix_behind ih)
  | unary _ _ ih => exact suffix_behind ih
  | literal => exact List.suffix_cons _ _
  | reference => exact List.suffix_cons _ _
  | grouping _ _ _ ih => exact suffix_behind (suffix_through List.suffix_rfl ih)

theorem VariablePhrase.suffix {ts rs : List Token} {stmt : Stmt} (h : VariablePhrase ts stmt rs) :
    rs <:+ ts := by
  cases h with
  | plain => exact suffix_behind (List.suffix_cons _ _)
  | initialized _ _ initializer =>
    exact suffix_behind (suffix_behind (suffix_through List.suffix_rfl initializer.suffix))

theorem EffectPhrase.suffix {ts rs : List Token} {stmt : Stmt} (h : EffectPhrase ts stmt rs) :
    rs <:+ ts := by
  cases h with
  | mk inner => exact suffix_through List.suffix_rfl inner.suffix

theorem InitializerPhrase.suffix {ts rs : List Token} {o : Option Stmt}
    (h : InitializerPhrase ts o rs) : rs <:+ ts := by
  cases h with
  | missing => exact List.suffix_cons _ _
  | «variable» _ inner => exact suffix_behind inner.suffix
  | effect inner => exact inner.suffix

theorem OptionalPhrase.suffix {ts rs : List Token} {o : Option Expr}
    (h : OptionalPhrase ts o rs) : rs <:+ ts := by
  cases h with
  | missing => exact List.suffix_rfl
  | present inner => exact inner.suffix

mutual

theorem StmtPhrase.suffix {dangling : Bool} {ts rs : List Token} {stmt : Stmt}
    (h : StmtPhrase dangling ts stmt rs) : rs <:+ ts := by
  match h with
  | .effect inner => exact inner.suffix
  | .print _ inner _ => exact suffix_behind (suffix_through List.suffix_rfl inner.suffix)
  | .block _ inner _ => exact suffix_behind (suffix_through List.suffix_rfl inner.suffix)
  | .ifThen _ _ hcondition _ hthen =>
    have hs := suffix_through hthen.suffix hcondition.suffix
    exact suffix_behind (suffix_behind hs)
  | .ifElse _ _ hcondition _ hthen _ helse =>
    have hs := suffix_through helse.suffix hthen.suffix
    exact suffix_behind (suffix_behind (suffix_through hs hcondition.suffix))
  | .whileLoop _ _ hcondition _ hbody =>
    have hs := suffix_through hbody.suffix hcondition.suffix
    exact suffix_behind (suffix_behind hs)
  | .forLoop _ _ hinitializer hcondition _ hincrement _ hbody =>
    have hs := suffix_through hbody.suffix hincrement.suffix
    have hs' := (suffix_through hs hcondition.suffix).trans hinitializer.suffix
    exact suffix_behind (suffix_behind hs')

theorem SequencePhrase.suffix {ts rs : List Token} {ss : List Stmt}
    (h : SequencePhrase ts ss rs) : rs <:+ ts := by
  match h with
  | .nil => exact List.suffix_rfl
  | .variable _ first rest => exact suffix_behind (rest.suffix.trans first.suffix)
  | .statement first rest => exact rest.suffix.trans first.suffix

end

end Lox.Grammar
