import Lox.Proofs.Grammar.Complete

/-!
# The documented grammar

The grammar in the notation of its documentation: a production for each symbol, with alternatives,
options and repetitions.  Reading reports nothing exactly if the tokens before the end can be derived
from the productions (`parse_reports_eq_nil_iff`), unless nesting gets too deep.

The productions leave open to which `if` an `else` belongs; phrases do not.  So a derivation does
not name the phrase: an `else` that the derivation gives to one conditional goes to the last one
in front of it that is still dangling (`StmtPhrase.takeElse`).
-/

namespace Lox.Grammar

/-! ## Productions -/

/-- The symbols of the grammar. -/
inductive Symbol
  | declaration
  | varDecl
  | statement
  | exprStmt
  | expression
  | logicOr
  | logicAnd
  | equality
  | comparison
  | term
  | factor
  | unary
  | primary
deriving DecidableEq, Repr

/-- The right side of a production. -/
inductive Ebnf
  | token (kinds : List Kind)
  | rule (symbol : Symbol)
  | sequence (first second : Ebnf)
  | choice (left right : Ebnf)
  | option (inner : Ebnf)
  | star (inner : Ebnf)
deriving DecidableEq, Repr

namespace Ebnf

instance : Append Ebnf := ⟨sequence⟩

instance : OrOp Ebnf := ⟨choice⟩

/-- Operands with operators between them. -/
def separated (operand : Symbol) (operators : List Kind) : Ebnf :=
  rule operand ++ star (token operators ++ rule operand)

end Ebnf

open Ebnf in
/-- The productions of the documented grammar. -/
def production : Symbol → Ebnf
  | .declaration => rule .varDecl ||| rule .statement
  | .varDecl =>
    token [.varWord] ++ token [.identifier] ++ option (token [.equal] ++ rule .expression) ++
      token [.semicolon]
  | .statement =>
    token [.printWord] ++ rule .expression ++ token [.semicolon]
      ||| token [.ifWord] ++ token [.leftParen] ++ rule .expression ++ token [.rightParen] ++
        rule .statement ++ option (token [.elseWord] ++ rule .statement)
      ||| token [.whileWord] ++ token [.leftParen] ++ rule .expression ++ token [.rightParen] ++
        rule .statement
      ||| token [.forWord] ++ token [.leftParen] ++
        (rule .varDecl ||| rule .exprStmt ||| token [.semicolon]) ++
        option (rule .expression) ++ token [.semicolon] ++ option (rule .expression) ++
        token [.rightParen] ++ rule .statement
      ||| token [.leftBrace] ++ star (rule .declaration) ++ token [.rightBrace]
      ||| rule .exprStmt
  | .exprStmt => rule .expression ++ token [.semicolon]
  | .expression =>
    token [.identifier] ++ token [.equal] ++ rule .expression ||| rule .logicOr
  | .logicOr => separated .logicAnd [.orWord]
  | .logicAnd => separated .equality [.andWord]
  | .equality => separated .comparison [.bangEqual, .equalEqual]
  | .comparison => separated .term [.less, .lessEqual, .greater, .greaterEqual]
  | .term => separated .factor [.plus, .minus]
  | .factor => separated .unary [.star, .slash]
  | .unary => token [.bang, .minus] ++ rule .unary ||| rule .primary
  | .primary =>
    token [.number, .string, .trueWord, .falseWord, .nilWord, .identifier]
      ||| token [.leftParen] ++ rule .expression ++ token [.rightParen]

/-- The tokens can be derived from the right side of a production. -/
inductive Derives : Ebnf → List Token → Prop
  | token {t kinds} (mem : t.kind ∈ kinds) : Derives (.token kinds) [t]
  | rule {symbol w} (h : Derives (production symbol) w) : Derives (.rule symbol) w
  | sequence {a b u v} (first : Derives a u) (second : Derives b v) : Derives (a ++ b) (u ++ v)
  | left {a b w} (h : Derives a w) : Derives (a ||| b) w
  | right {a b w} (h : Derives b w) : Derives (a ||| b) w
  | none {a} : Derives (.option a) []
  | some {a w} (h : Derives a w) : Derives (.option a) w
  | nil {a} : Derives (.star a) []
  | cons {a u v} (first : Derives a u) (rest : Derives (.star a) v) :
      Derives (.star a) (u ++ v)

/-! ## Derivations -/

/-- What the right side of a production means for tokens if one knows what its symbols mean. -/
def Ebnf.Matches (meaning : Symbol → List Token → Prop) : Ebnf → List Token → Prop
  | .token kinds, w => ∃ t, w = [t] ∧ t.kind ∈ kinds
  | .rule symbol, w => meaning symbol w
  | .sequence a b, w => ∃ u v, w = u ++ v ∧ a.Matches meaning u ∧ b.Matches meaning v
  | .choice a b, w => a.Matches meaning w ∨ b.Matches meaning w
  | .option a, w => w = [] ∨ a.Matches meaning w
  | .star a, w => ∃ ws : List (List Token), w = ws.flatten ∧ ∀ u ∈ ws, a.Matches meaning u

/-- What follows from each production for its symbol holds of all that is derived. -/
theorem Derives.matches {meaning : Symbol → List Token → Prop}
    (h : ∀ symbol w, (production symbol).Matches meaning w → meaning symbol w) {a : Ebnf}
    {w : List Token} (hd : Derives a w) : a.Matches meaning w := by
  induction hd with
  | token mem => exact ⟨_, rfl, mem⟩
  | rule _ ih => exact h _ _ ih
  | sequence _ _ ih₁ ih₂ => exact ⟨_, _, rfl, ih₁, ih₂⟩
  | left _ ih => exact Or.inl ih
  | right _ ih => exact Or.inr ih
  | none => exact Or.inl rfl
  | some _ ih => exact Or.inr ih
  | nil => exact ⟨[], rfl, by simp⟩
  | cons _ _ ih₁ ih₂ =>
    obtain ⟨ws, rfl, hws⟩ := ih₂
    refine ⟨_ :: ws, rfl, ?_⟩
    intro u hu
    rcases List.mem_cons.1 hu with rfl | hu
    · exact ih₁
    · exact hws u hu

/-- A repetition goes on at its end too. -/
theorem Derives.star_append {a : Ebnf} {u v : List Token} (h : Derives (.star a) u)
    (hv : Derives a v) : Derives (.star a) (u ++ v) := by
  generalize hs : Ebnf.star a = b at h
  induction h with
  | nil =>
    obtain rfl := Ebnf.star.inj hs
    have h := Derives.cons hv .nil
    rwa [List.append_nil] at h
  | cons first _ _ ih =>
    obtain rfl := Ebnf.star.inj hs
    rw [List.append_assoc]
    exact .cons first (ih rfl)
  | _ => cases hs

theorem Derives.production_of_rule {symbol : Symbol} {w : List Token}
    (h : Derives (.rule symbol) w) : Derives (production symbol) w := by
  cases h with
  | rule h => exact h

theorem Derives.of_sequence {a b : Ebnf} {w : List Token} (h : Derives (a ++ b) w) :
    ∃ u v, w = u ++ v ∧ Derives a u ∧ Derives b v := by
  generalize hs : a ++ b = c at h
  cases h with
  | sequence first second =>
    obtain ⟨rfl, rfl⟩ := Ebnf.sequence.inj hs
    exact ⟨_, _, rfl, first, second⟩
  | _ => cases hs

theorem Derives.kind {k : Kind} {t : Token} (h : t.kind = k) : Derives (.token [k]) [t] :=
  .token (List.mem_singleton.2 h)

/-! ## Phrases are derivable -/

/-- The symbol of a tier. -/
def Tier.symbol : Tier → Symbol
  | expression | assignment => .expression
  | or => .logicOr
  | and => .logicAnd
  | equality => .equality
  | comparison => .comparison
  | term => .term
  | factor => .factor
  | unary => .unary
  | primary => .primary

theorem production_symbol {tier : Tier} (h : tier.operators ≠ []) :
    production tier.symbol = .separated tier.next.symbol tier.operators := by
  cases tier <;> first | rfl | exact absurd rfl h

variable {tier : Tier} {ts us rs : List Token} {e : Expr}

theorem derives_tighter {w : List Token} (h : Derives (.rule tier.next.symbol) w) :
    Derives (.rule tier.symbol) w := by
  by_cases hop : tier.operators = []
  · cases tier with
    | expression | primary => exact h
    | assignment | unary => exact .rule (.right h)
    | _ => exact absurd hop (List.cons_ne_nil _ _)
  · have hd : Derives (.separated tier.next.symbol tier.operators) (w ++ []) := .sequence h .nil
    rw [List.append_nil] at hd
    exact .rule (production_symbol hop ▸ hd)

theorem derives_joined {operator : Token} {u v : List Token} (h : Derives (.rule tier.symbol) u)
    (hmem : operator.kind ∈ tier.operators) (hv : Derives (.rule tier.next.symbol) v) :
    Derives (.rule tier.symbol) (u ++ operator :: v) := by
  have hp := production_symbol (List.ne_nil_of_mem hmem)
  have hu := h.production_of_rule
  rw [hp] at hu
  obtain ⟨x, y, rfl, hx, hy⟩ := hu.of_sequence
  have hs := hy.star_append (.sequence (.token hmem) hv)
  have hd : Derives (.separated tier.next.symbol tier.operators) (x ++ (y ++ ([operator] ++ v))) :=
    .sequence hx hs
  rw [List.append_assoc]
  exact .rule (hp ▸ hd)

/-- What a phrase takes is derivable. -/
theorem Phrase.derives (h : Phrase tier ts e rs) :
    ∃ w, ts = w ++ rs ∧ Derives (.rule tier.symbol) w := by
  induction h with
  | tighter _ ih =>
    obtain ⟨w, rfl, hw⟩ := ih
    exact ⟨w, rfl, derives_tighter hw⟩
  | joined _ mem _ ihleft ihright =>
    obtain ⟨u, rfl, hu⟩ := ihleft
    obtain ⟨v, rfl, hv⟩ := ihright
    exact ⟨_, by rw [List.append_assoc, List.cons_append], derives_joined hu mem hv⟩
  | @assign name equal _ _ _ hname hequal _ ih =>
    obtain ⟨w, rfl, hw⟩ := ih
    refine ⟨([name] ++ [equal]) ++ w, rfl, .rule (.left ?_)⟩
    exact .sequence (.sequence (.kind hname) (.kind hequal)) hw
  | @unary operator _ _ _ mem _ ih =>
    obtain ⟨w, rfl, hw⟩ := ih
    exact ⟨[operator] ++ w, rfl, .rule (.left (.sequence (.token mem) hw))⟩
  | @literal t v rs hv =>
    refine ⟨[t], rfl, .rule (.left (.token ?_))⟩
    unfold Token.value? at hv
    split at hv
    case h_6 => cases hv
    all_goals next hk => rw [hk]; decide
  | @reference name rs hname =>
    exact ⟨[name], rfl, .rule (.left (.token (by rw [hname]; decide)))⟩
  | @grouping l _ _ r _ hl hr _ ih =>
    obtain ⟨w, rfl, hw⟩ := ih
    refine ⟨([l] ++ w) ++ [r], by simp, .rule (.right ?_)⟩
    exact .sequence (.sequence (.kind hl) hw) (.kind hr)

theorem VariablePhrase.derives {stmt : Stmt} (h : VariablePhrase ts stmt rs) {word : Token}
    (hword : word.kind = .varWord) : ∃ w, word :: ts = w ++ rs ∧ Derives (.rule .varDecl) w := by
  cases h with
  | @plain name close _ hname hclose =>
    refine ⟨(([word] ++ [name]) ++ []) ++ [close], rfl, .rule ?_⟩
    exact .sequence (.sequence (.sequence (.kind hword) (.kind hname)) .none) (.kind hclose)
  | @initialized name equal _ _ close _ hname hequal initializer hclose =>
    obtain ⟨w, rfl, hw⟩ := initializer.derives
    refine ⟨(([word] ++ [name]) ++ ([equal] ++ w)) ++ [close], by simp, .rule ?_⟩
    refine .sequence (.sequence (.sequence (.kind hword) (.kind hname)) ?_) (.kind hclose)
    exact .some (.sequence (.kind hequal) hw)

theorem EffectPhrase.derives {stmt : Stmt} (h : EffectPhrase ts stmt rs) :
    ∃ w, ts = w ++ rs ∧ Derives (.rule .exprStmt) w := by
  cases h with
  | @mk _ _ _ inner hclose =>
    obtain ⟨w, rfl, hw⟩ := inner.derives
    exact ⟨w ++ [_], by simp, .rule (.sequence hw (.kind hclose))⟩

theorem InitializerPhrase.derives {o : Option Stmt} (h : InitializerPhrase ts o rs) :
    ∃ w, ts = w ++ rs ∧
      Derives (.rule .varDecl ||| .rule .exprStmt ||| .token [.semicolon]) w := by
  cases h with
  | missing hclose => exact ⟨[_], rfl, .right (.kind hclose)⟩
  | «variable» hword inner =>
    obtain ⟨w, hw, hd⟩ := inner.derives hword
    exact ⟨w, hw, .left (.left hd)⟩
  | effect inner =>
    obtain ⟨w, hw, hd⟩ := inner.derives
    exact ⟨w, hw, .left (.right hd)⟩

theorem OptionalPhrase.derives {o : Option Expr} (h : OptionalPhrase ts o rs) :
    ∃ w, ts = w ++ rs ∧ Derives (.option (.rule .expression)) w := by
  cases h with
  | missing => exact ⟨[], rfl, .none⟩
  | present inner =>
    obtain ⟨w, hw, hd⟩ := inner.derives
    exact ⟨w, hw, .some hd⟩

mutual

theorem StmtPhrase.derives {dangling : Bool} {ts rs : List Token} {stmt : Stmt}
    (h : StmtPhrase dangling ts stmt rs) : ∃ w, ts = w ++ rs ∧ Derives (.rule .statement) w := by
  match h with
  | .effect inner =>
    obtain ⟨w, hw, hd⟩ := inner.derives
    exact ⟨w, hw, .rule (.right hd)⟩
  | @StmtPhrase.print word _ _ close _ hword inner hclose =>
    obtain ⟨w, rfl, hw⟩ := inner.derives
    refine ⟨([word] ++ w) ++ [close], by simp, .rule (.left (.left (.left (.left (.left ?_)))))⟩
    exact .sequence (.sequence (.kind hword) hw) (.kind hclose)
  | @StmtPhrase.block l _ _ r _ hl inner hr =>
    obtain ⟨w, rfl, hw⟩ := inner.derives
    refine ⟨([l] ++ w) ++ [r], by simp, .rule (.left (.right ?_))⟩
    exact .sequence (.sequence (.kind hl) hw) (.kind hr)
  | @StmtPhrase.ifThen word l _ _ r _ _ _ _ hword hl hcondition hr hthen =>
    obtain ⟨v, rfl, hv⟩ := hthen.derives
    obtain ⟨w, rfl, hw⟩ := hcondition.derives
    refine ⟨(((([word] ++ [l]) ++ w) ++ [r]) ++ v) ++ [], by simp,
      .rule (.left (.left (.left (.left (.right ?_)))))⟩
    refine .sequence (.sequence (.sequence (.sequence (.sequence ?_ ?_) hw) ?_) hv) .none
    · exact .kind hword
    · exact .kind hl
    · exact .kind hr
  | @StmtPhrase.ifElse word l _ _ r _ _ other _ _ _ _ hword hl hcondition hr hthen hother helse =>
    have hthen := hthen.derives
    obtain ⟨x, rfl, hx⟩ := helse.derives
    obtain ⟨v, rfl, hv⟩ := hthen
    obtain ⟨w, rfl, hw⟩ := hcondition.derives
    refine ⟨(((([word] ++ [l]) ++ w) ++ [r]) ++ v) ++ ([other] ++ x), by simp,
      .rule (.left (.left (.left (.left (.right ?_)))))⟩
    refine .sequence (.sequence (.sequence (.sequence (.sequence ?_ ?_) hw) ?_) hv)
      (.some (.sequence ?_ hx))
    · exact .kind hword
    · exact .kind hl
    · exact .kind hr
    · exact .kind hother
  | @StmtPhrase.whileLoop word l _ _ r _ _ _ _ hword hl hcondition hr hbody =>
    obtain ⟨v, rfl, hv⟩ := hbody.derives
    obtain ⟨w, rfl, hw⟩ := hcondition.derives
    refine ⟨((([word] ++ [l]) ++ w) ++ [r]) ++ v, by simp,
      .rule (.left (.left (.left (.right ?_))))⟩
    refine .sequence (.sequence (.sequence (.sequence ?_ ?_) hw) ?_) hv
    · exact .kind hword
    · exact .kind hl
    · exact .kind hr
  | @StmtPhrase.forLoop word l _ _ _ _ close _ _ r _ _ _ _ hword hl hinitializer hcondition hclose
      hincrement hr hbody =>
    obtain ⟨v, rfl, hv⟩ := hbody.derives
    obtain ⟨x, rfl, hx⟩ := hincrement.derives
    obtain ⟨y, rfl, hy⟩ := hcondition.derives
    obtain ⟨z, rfl, hz⟩ := hinitializer.derives
    refine ⟨(((((([word] ++ [l]) ++ z) ++ y) ++ [close]) ++ x) ++ [r]) ++ v, by simp,
      .rule (.left (.left (.right ?_)))⟩
    refine .sequence (.sequence (.sequence (.sequence (.sequence (.sequence (.sequence ?_ ?_) hz)
      hy) ?_) hx) ?_) hv
    · exact .kind hword
    · exact .kind hl
    · exact .kind hclose
    · exact .kind hr

theorem SequencePhrase.derives {ts rs : List Token} {ss : List Stmt}
    (h : SequencePhrase ts ss rs) :
    ∃ w, ts = w ++ rs ∧ Derives (.star (.rule .declaration)) w := by
  match h with
  | .nil => exact ⟨[], rfl, .nil⟩
  | .variable hword first rest =>
    obtain ⟨v, rfl, hv⟩ := rest.derives
    obtain ⟨u, hu, hd⟩ := first.derives hword
    exact ⟨u ++ v, by rw [hu, List.append_assoc], .cons (.rule (.left hd)) hv⟩
  | .statement first rest =>
    have hfirst := first.derives
    obtain ⟨v, rfl, hv⟩ := rest.derives
    obtain ⟨u, rfl, hd⟩ := hfirst
    exact ⟨u ++ v, by rw [List.append_assoc], .cons (.rule (.right hd)) hv⟩

end

/-! ## What is derivable are phrases -/

/-- An `else` behind a dangling statement, with what follows it, makes it another statement. -/
theorem StmtPhrase.takeElse {dangling dangling' : Bool} {ts us vs rs : List Token} {other : Token}
    {stmt elseBranch : Stmt} (h : StmtPhrase dangling ts stmt vs) (hd : dangling = true)
    (hvs : vs = other :: us) (hother : other.kind = .elseWord)
    (helse : StmtPhrase dangling' us elseBranch rs) :
    ∃ dangling stmt, StmtPhrase dangling ts stmt rs := by
  match h with
  | .effect _ | .print _ _ _ | .block _ _ _ => cases hd
  | @StmtPhrase.ifThen _ _ _ _ _ _ inner _ _ hword hl hcondition hr hthen =>
    by_cases hinner : inner = true
    · obtain ⟨_, _, hthen⟩ := hthen.takeElse hinner hvs hother helse
      exact ⟨_, _, .ifThen hword hl hcondition hr hthen⟩
    · rw [Bool.not_eq_true] at hinner
      subst hinner hvs
      exact ⟨_, _, .ifElse hword hl hcondition hr hthen hother helse⟩
  | .ifElse hword hl hcondition hr hthen hother' helse' =>
    obtain ⟨_, _, helse'⟩ := helse'.takeElse hd hvs hother helse
    exact ⟨_, _, .ifElse hword hl hcondition hr hthen hother' helse'⟩
  | .whileLoop hword hl hcondition hr hbody =>
    obtain ⟨_, _, hbody⟩ := hbody.takeElse hd hvs hother helse
    exact ⟨_, _, .whileLoop hword hl hcondition hr hbody⟩
  | .forLoop hword hl hinitializer hcondition hclose hincrement hr hbody =>
    obtain ⟨_, _, hbody⟩ := hbody.takeElse hd hvs hother helse
    exact ⟨_, _, .forLoop hword hl hinitializer hcondition hclose hincrement hr hbody⟩

/-- Whatever is behind them, the tokens are an expression of the tier. -/
def Stands (tier : Tier) (w : List Token) : Prop := ∀ rs, ∃ e, Phrase tier (w ++ rs) e rs

/-- Whatever is behind them, the tokens are what the symbol stands for. -/
def Symbol.Says : Symbol → List Token → Prop
  | .declaration, w => ∀ {us ss rs}, SequencePhrase us ss rs →
      ∃ stmt, SequencePhrase (w ++ us) (stmt :: ss) rs
  | .varDecl, w => ∃ word ts, w = word :: ts ∧ word.kind = .varWord ∧
      ∀ rs, ∃ stmt, VariablePhrase (ts ++ rs) stmt rs
  | .statement, w => ∀ rs, ∃ dangling stmt, StmtPhrase dangling (w ++ rs) stmt rs
  | .exprStmt, w => ∀ rs, ∃ stmt, EffectPhrase (w ++ rs) stmt rs
  | .expression, w => Stands .assignment w
  | .logicOr, w => Stands .or w
  | .logicAnd, w => Stands .and w
  | .equality, w => Stands .equality w
  | .comparison, w => Stands .comparison w
  | .term, w => Stands .term w
  | .factor, w => Stands .factor w
  | .unary, w => Stands .unary w
  | .primary, w => Stands .primary w

theorem Stands.tighter {w : List Token} (h : Stands tier.next w) : Stands tier w := by
  intro rs
  obtain ⟨e, he⟩ := h rs
  exact ⟨e, .tighter he⟩

theorem Stands.joined {u v : List Token} {operator : Token} (h : Stands tier u)
    (hmem : operator.kind ∈ tier.operators) (hv : Stands tier.next v) :
    Stands tier (u ++ operator :: v) := by
  intro rs
  obtain ⟨b, hb⟩ := hv rs
  obtain ⟨a, ha⟩ := h (operator :: (v ++ rs))
  refine ⟨tier.join a operator b, ?_⟩
  rw [List.append_assoc, List.cons_append]
  exact .joined ha hmem hb

theorem stands_of_matches_separated {w : List Token} {symbol : Symbol}
    (hinner : ∀ {v}, symbol.Says v → Stands tier.next v)
    (h : (Ebnf.separated symbol tier.operators).Matches Symbol.Says w) : Stands tier w := by
  obtain ⟨u, v, rfl, hu, ws, rfl, hws⟩ := h
  replace hu : Stands tier u := (hinner hu).tighter
  -- the operators join from the left, so what is joined already grows
  induction ws generalizing u with
  | nil => rwa [List.flatten_nil, List.append_nil]
  | cons x ws ih =>
    obtain ⟨y, z, rfl, ⟨operator, rfl, hmem⟩, hz⟩ := hws x List.mem_cons_self
    rw [List.flatten_cons, ← List.append_assoc]
    exact ih _ (fun x hx => hws x (List.mem_cons_of_mem _ hx)) (hu.joined hmem (hinner hz))

/-- Declarations that stand behind each other are a sequence. -/
theorem sequencePhrase_flatten {ws : List (List Token)}
    (h : ∀ w ∈ ws, Symbol.declaration.Says w) {us rs : List Token} {ss : List Stmt}
    (hrest : SequencePhrase us ss rs) : ∃ ss, SequencePhrase (ws.flatten ++ us) ss rs := by
  induction ws with
  | nil => exact ⟨ss, hrest⟩
  | cons w ws ih =>
    obtain ⟨ss', hss⟩ := ih fun w hw => h w (List.mem_cons_of_mem _ hw)
    obtain ⟨stmt, hstmt⟩ := h w List.mem_cons_self hss
    rw [List.flatten_cons, List.append_assoc]
    exact ⟨_, hstmt⟩

/-- An expression may be missing. -/
theorem optionalPhrase_of_matches {w : List Token}
    (h : (Ebnf.option (.rule .expression)).Matches Symbol.Says w) (rs : List Token) :
    ∃ o, OptionalPhrase (w ++ rs) o rs := by
  rcases h with rfl | h
  · exact ⟨none, .missing⟩
  · obtain ⟨e, he⟩ := h rs
    exact ⟨some e, .present (.tighter he)⟩

theorem initializerPhrase_of_matches {w : List Token}
    (h : (Ebnf.rule .varDecl ||| .rule .exprStmt ||| .token [.semicolon]).Matches Symbol.Says w)
    (rs : List Token) : ∃ o, InitializerPhrase (w ++ rs) o rs := by
  rcases h with (⟨word, ts, rfl, hword, h⟩ | h) | ⟨close, rfl, hclose⟩
  · obtain ⟨stmt, hstmt⟩ := h rs
    exact ⟨some stmt, .variable hword hstmt⟩
  · obtain ⟨stmt, hstmt⟩ := h rs
    exact ⟨some stmt, .effect hstmt⟩
  · exact ⟨none, .missing (List.mem_singleton.1 hclose)⟩

theorem matches_kind {meaning : Symbol → List Token → Prop} {k : Kind} {w : List Token}
    (h : (Ebnf.token [k]).Matches meaning w) : ∃ t, w = [t] ∧ t.kind = k := by
  obtain ⟨t, rfl, ht⟩ := h
  exact ⟨t, rfl, List.mem_singleton.1 ht⟩

section Statement

variable {w : List Token}

open Ebnf

theorem says_print
    (h : (token [.printWord] ++ rule .expression ++ token [.semicolon]).Matches Symbol.Says w) :
    Symbol.statement.Says w := by
  intro rs
  obtain ⟨_, _, rfl, ⟨_, x, rfl, mword, hx⟩, mclose⟩ := h
  obtain ⟨word, rfl, hword⟩ := matches_kind mword
  obtain ⟨close, rfl, hclose⟩ := matches_kind mclose
  obtain ⟨e, he⟩ := hx (close :: rs)
  simp only [List.append_assoc, List.cons_append, List.nil_append]
  exact ⟨_, _, .print hword (.tighter he) hclose⟩

theorem says_if
    (h : (token [.ifWord] ++ token [.leftParen] ++ rule .expression ++ token [.rightParen] ++
      rule .statement ++ option (token [.elseWord] ++ rule .statement)).Matches Symbol.Says w) :
    Symbol.statement.Says w := by
  intro rs
  obtain ⟨_, v, rfl, ⟨_, u, rfl, ⟨_, _, rfl, ⟨_, x, rfl, ⟨_, _, rfl, mword, ml⟩, hx⟩, mr⟩, hu⟩,
    hv⟩ := h
  obtain ⟨word, rfl, hword⟩ := matches_kind mword
  obtain ⟨l, rfl, hl⟩ := matches_kind ml
  obtain ⟨r, rfl, hr⟩ := matches_kind mr
  simp only [List.append_assoc, List.cons_append, List.nil_append]
  obtain ⟨condition, hcondition⟩ := hx (r :: (u ++ (v ++ rs)))
  obtain ⟨inner, thenBranch, hthen⟩ := hu (v ++ rs)
  rcases hv with rfl | ⟨_, y, rfl, mother, hy⟩
  · exact ⟨_, _, .ifThen hword hl (.tighter hcondition) hr hthen⟩
  obtain ⟨other, rfl, hother⟩ := matches_kind mother
  obtain ⟨_, elseBranch, helse⟩ := hy rs
  cases inner with
  | false => exact ⟨_, _, .ifElse hword hl (.tighter hcondition) hr hthen hother helse⟩
  | true =>
    -- the `else` belongs to a conditional inside the first branch
    obtain ⟨_, _, hthen⟩ := hthen.takeElse rfl rfl hother helse
    exact ⟨_, _, .ifThen hword hl (.tighter hcondition) hr hthen⟩

theorem says_while
    (h : (token [.whileWord] ++ token [.leftParen] ++ rule .expression ++ token [.rightParen] ++
      rule .statement).Matches Symbol.Says w) : Symbol.statement.Says w := by
  intro rs
  obtain ⟨_, u, rfl, ⟨_, _, rfl, ⟨_, x, rfl, ⟨_, _, rfl, mword, ml⟩, hx⟩, mr⟩, hu⟩ := h
  obtain ⟨word, rfl, hword⟩ := matches_kind mword
  obtain ⟨l, rfl, hl⟩ := matches_kind ml
  obtain ⟨r, rfl, hr⟩ := matches_kind mr
  simp only [List.append_assoc, List.cons_append, List.nil_append]
  obtain ⟨condition, hcondition⟩ := hx (r :: (u ++ rs))
  obtain ⟨_, body, hbody⟩ := hu rs
  exact ⟨_, _, .whileLoop hword hl (.tighter hcondition) hr hbody⟩

theorem says_for
    (h : (token [.forWord] ++ token [.leftParen] ++
      (rule .varDecl ||| rule .exprStmt ||| token [.semicolon]) ++ option (rule .expression) ++
      token [.semicolon] ++ option (rule .expression) ++ token [.rightParen] ++
      rule .statement).Matches Symbol.Says w) : Symbol.statement.Says w := by
  intro rs
  obtain ⟨_, u, rfl, ⟨_, _, rfl, ⟨_, z, rfl, ⟨_, _, rfl, ⟨_, y, rfl, ⟨_, x, rfl,
    ⟨_, _, rfl, mword, ml⟩, hx⟩, hy⟩, mclose⟩, hz⟩, mr⟩, hu⟩ := h
  obtain ⟨word, rfl, hword⟩ := matches_kind mword
  obtain ⟨l, rfl, hl⟩ := matches_kind ml
  obtain ⟨close, rfl, hclose⟩ := matches_kind mclose
  obtain ⟨r, rfl, hr⟩ := matches_kind mr
  simp only [List.append_assoc, List.cons_append, List.nil_append]
  obtain ⟨_, body, hbody⟩ := hu rs
  obtain ⟨increment, hincrement⟩ := optionalPhrase_of_matches hz (r :: (u ++ rs))
  obtain ⟨condition, hcondition⟩ := optionalPhrase_of_matches hy (close :: (z ++ r :: (u ++ rs)))
  obtain ⟨initializer, hinitializer⟩ :=
    initializerPhrase_of_matches hx (y ++ close :: (z ++ r :: (u ++ rs)))
  exact ⟨_, _, .forLoop hword hl hinitializer hcondition hclose hincrement hr hbody⟩

theorem says_block
    (h : (token [.leftBrace] ++ star (rule .declaration) ++ token [.rightBrace]).Matches
      Symbol.Says w) : Symbol.statement.Says w := by
  intro rs
  obtain ⟨_, _, rfl, ⟨_, _, rfl, ml, ws, rfl, hws⟩, mr⟩ := h
  obtain ⟨l, rfl, hl⟩ := matches_kind ml
  obtain ⟨r, rfl, hr⟩ := matches_kind mr
  simp only [List.append_assoc, List.cons_append, List.nil_append]
  have hend : SequencePhrase (r :: rs) [] (r :: rs) := .nil
  obtain ⟨body, hbody⟩ := sequencePhrase_flatten hws hend
  exact ⟨_, _, .block hl hbody hr⟩

end Statement

/-- A token that is an operand by itself is a name, or it stands for a value. -/
theorem exists_value_of_mem {t : Token}
    (hmem : t.kind ∈ [Kind.number, .string, .trueWord, .falseWord, .nilWord, .identifier])
    (hname : t.kind ≠ .identifier) : ∃ v, t.value? = some v := by
  unfold Token.value?
  simp only [List.mem_cons, List.not_mem_nil, or_false] at hmem
  rcases hmem with hk | hk | hk | hk | hk | hk <;> simp [hk] at hname ⊢

/-- Each production gives phrases if its symbols do. -/
theorem says_of_matches (symbol : Symbol) (w : List Token)
    (h : (production symbol).Matches Symbol.Says w) : symbol.Says w := by
  cases symbol with
  | declaration =>
    intro us ss rs hrest
    rcases h with ⟨word, ts, rfl, hword, h⟩ | h
    · obtain ⟨stmt, hstmt⟩ := h us
      exact ⟨stmt, .variable hword hstmt hrest⟩
    · obtain ⟨_, stmt, hstmt⟩ := h us
      exact ⟨stmt, .statement hstmt hrest⟩
  | varDecl =>
    obtain ⟨_, _, rfl, ⟨_, v, rfl, ⟨_, _, rfl, mword, mname⟩, hv⟩, mclose⟩ := h
    obtain ⟨word, rfl, hword⟩ := matches_kind mword
    obtain ⟨name, rfl, hname⟩ := matches_kind mname
    obtain ⟨close, rfl, hclose⟩ := matches_kind mclose
    refine ⟨word, _, rfl, hword, fun rs => ?_⟩
    rcases hv with rfl | ⟨_, x, rfl, mequal, hx⟩
    · exact ⟨_, .plain hname hclose⟩
    · obtain ⟨equal, rfl, hequal⟩ := matches_kind mequal
      obtain ⟨e, he⟩ := hx (close :: rs)
      show ∃ stmt, VariablePhrase (name :: equal :: ((x ++ [close]) ++ rs)) stmt rs
      rw [List.append_assoc]
      exact ⟨_, .initialized hname hequal (.tighter he) hclose⟩
  | statement =>
    rcases h with ((((h | h) | h) | h) | h) | h
    · exact says_print h
    · exact says_if h
    · exact says_while h
    · exact says_for h
    · exact says_block h
    · intro rs
      obtain ⟨stmt, hstmt⟩ := h rs
      exact ⟨_, _, .effect hstmt⟩
  | exprStmt =>
    obtain ⟨x, _, rfl, hx, mclose⟩ := h
    obtain ⟨close, rfl, hclose⟩ := matches_kind mclose
    intro rs
    obtain ⟨e, he⟩ := hx (close :: rs)
    simp only [List.append_assoc, List.cons_append, List.nil_append]
    exact ⟨_, .mk (.tighter he) hclose⟩
  | expression =>
    rcases h with ⟨_, x, rfl, ⟨_, _, rfl, mname, mequal⟩, hx⟩ | h
    · obtain ⟨name, rfl, hname⟩ := matches_kind mname
      obtain ⟨equal, rfl, hequal⟩ := matches_kind mequal
      intro rs
      obtain ⟨e, he⟩ := hx rs
      exact ⟨_, .assign hname hequal he⟩
    · exact Stands.tighter h
  | unary =>
    rcases h with ⟨_, x, rfl, ⟨operator, rfl, hmem⟩, hx⟩ | h
    · intro rs
      obtain ⟨e, he⟩ := hx rs
      exact ⟨_, .unary hmem he⟩
    · exact Stands.tighter h
  | primary =>
    intro rs
    rcases h with ⟨t, rfl, hmem⟩ | ⟨_, _, rfl, ⟨_, x, rfl, ml, hx⟩, mr⟩
    · by_cases hname : t.kind = .identifier
      · exact ⟨_, .reference hname⟩
      · obtain ⟨v, hv⟩ := exists_value_of_mem hmem hname
        exact ⟨_, .literal hv⟩
    · obtain ⟨l, rfl, hl⟩ := matches_kind ml
      obtain ⟨r, rfl, hr⟩ := matches_kind mr
      obtain ⟨e, he⟩ := hx (r :: rs)
      simp only [List.append_assoc, List.cons_append, List.nil_append]
      exact ⟨_, .grouping hl hr (.tighter he)⟩
  | _ => exact stands_of_matches_separated id h

/-- What is derivable is a sequence of declarations, whatever closes it. -/
theorem sequencePhrase_of_derives {ts : List Token} (h : Derives (.star (.rule .declaration)) ts)
    (rs : List Token) : ∃ program, SequencePhrase (ts ++ rs) program rs := by
  obtain ⟨ws, rfl, hws⟩ := h.matches says_of_matches
  exact sequencePhrase_flatten hws .nil

/-! ## Accepted token lists -/

/-- The parser accepts exactly the documented grammar: tokens up to their only end are read without
a report if and only if they are derivable as declarations, unless nesting gets too deep. -/
theorem parse_reports_eq_nil_iff {ts : List Token} {e : Token} (he : e.kind = .eof)
    (hts : ∀ t ∈ ts, t.kind ≠ .eof) (hn : (parse (ts ++ [e])).WithinNesting) :
    (parse (ts ++ [e])).reports = [] ↔ Derives (.star (.rule .declaration)) ts := by
  constructor
  · intro h
    obtain ⟨program, -, hseq⟩ := sequencePhrase_of_parse he hts h
    obtain ⟨w, hw, hd⟩ := hseq.derives
    rwa [(List.append_inj' hw rfl).1]
  · intro h
    obtain ⟨program, hseq⟩ := sequencePhrase_of_derives h [e]
    rw [parse_of_sequencePhrase he hn hseq]

/-- An `else` belongs to one of the conditionals before it, and a variable is no branch of one. -/
theorem derives_nested_conditional :
    Derives (.star (.rule .declaration))
        [⟨.ifWord, "if", .nil, 1⟩, ⟨.leftParen, "(", .nil, 1⟩, ⟨.nilWord, "nil", .nil, 1⟩,
          ⟨.rightParen, ")", .nil, 1⟩, ⟨.ifWord, "if", .nil, 1⟩, ⟨.leftParen, "(", .nil, 1⟩,
          ⟨.nilWord, "nil", .nil, 1⟩, ⟨.rightParen, ")", .nil, 1⟩, ⟨.leftBrace, "\x7b", .nil, 1⟩,
          ⟨.rightBrace, "\x7d", .nil, 1⟩, ⟨.elseWord, "else", .nil, 1⟩, ⟨.nilWord, "nil", .nil, 1⟩,
          ⟨.semicolon, ";", .nil, 1⟩] ∧
      ¬ Derives (.star (.rule .declaration))
        [⟨.ifWord, "if", .nil, 1⟩, ⟨.leftParen, "(", .nil, 1⟩, ⟨.nilWord, "nil", .nil, 1⟩,
          ⟨.rightParen, ")", .nil, 1⟩, ⟨.varWord, "var", .nil, 1⟩, ⟨.identifier, "a", .nil, 1⟩,
          ⟨.semicolon, ";", .nil, 1⟩] := by
  constructor
  · refine (parse_reports_eq_nil_iff (e := .eof 1) rfl (by decide) fun t h => ?_).1 rfl
    exact absurd h List.not_mem_nil
  · refine mt (parse_reports_eq_nil_iff (e := .eof 1) rfl (by decide) fun t h => ?_).2 (List.cons_ne_nil _ _)
    change Report.atToken t .tooDeep ∈ [.atToken ⟨.varWord, "var", .nil, 1⟩ .noExpression] at h
    simp [Report.atToken] at h

end Lox.Grammar
