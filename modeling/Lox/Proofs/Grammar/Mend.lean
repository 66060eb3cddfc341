import Lox.Proofs.Grammar.Production

/-!
# Assignments to what is no name

The documented grammar has an `=` only behind a name.  The relaxed grammar (`relaxed`) has it behind
any operand, as the rule reads it.  A derivation in the relaxed grammar says which `=` have no name
in front of them; without these `=` and what they assign, the tokens are derivable from the
documented grammar.  `Mends` keeps track of both lists of tokens and of the `=` between them.
-/

namespace Lox.Grammar

/-! ## The relaxed grammar -/

open Ebnf in
/-- The documented productions, but with an `=` behind any operand. -/
def relaxed : Symbol → Ebnf
  | .expression => rule .logicOr ++ option (token [.equal] ++ rule .expression)
  | symbol => production symbol

theorem relaxed_of_ne {symbol : Symbol} (h : symbol ≠ .expression) :
    relaxed symbol = production symbol := by
  cases symbol <;> first | rfl | exact absurd rfl h

/-- The tokens can be derived with the relaxed productions. -/
inductive DerivesRelaxed : Ebnf → List Token → Prop
  | token {t kinds} (mem : t.kind ∈ kinds) : DerivesRelaxed (.token kinds) [t]
  | rule {symbol w} (h : DerivesRelaxed (relaxed symbol) w) : DerivesRelaxed (.rule symbol) w
  | sequence {a b u v} (first : DerivesRelaxed a u) (second : DerivesRelaxed b v) :
      DerivesRelaxed (a ++ b) (u ++ v)
  | left {a b w} (h : DerivesRelaxed a w) : DerivesRelaxed (a ||| b) w
  | right {a b w} (h : DerivesRelaxed b w) : DerivesRelaxed (a ||| b) w
  | none {a} : DerivesRelaxed (.option a) []
  | some {a w} (h : DerivesRelaxed a w) : DerivesRelaxed (.option a) w
  | nil {a} : DerivesRelaxed (.star a) []
  | cons {a u v} (first : DerivesRelaxed a u) (rest : DerivesRelaxed (.star a) v) :
      DerivesRelaxed (.star a) (u ++ v)

/-! ## Patches -/

/-- Tokens as they are given, the `=` among them that have no name in front, in the order in which
they are found, and the tokens without these `=` and what they assign. -/
@[ext]
structure Patch where
  given : List Token
  bad : List Token
  mended : List Token

namespace Patch

variable {p q : Patch} {t : Token}

/-- No tokens. -/
def nothing : Patch := ⟨[], [], []⟩

/-- A token that stays. -/
def kept (t : Token) : Patch := ⟨[t], [], [t]⟩

instance : Append Patch := ⟨fun p q => ⟨p.given ++ q.given, p.bad ++ q.bad, p.mended ++ q.mended⟩⟩

/-- A target with an `=` behind it and a value, of which only the target stays.  The `=` is found
after the value is read. -/
def dropping (target : Patch) (equal : Token) (value : Patch) : Patch :=
  ⟨target.given ++ equal :: value.given, target.bad ++ (value.bad ++ [equal]), target.mended⟩

/-- One patch behind the other. -/
def join (ps : List Patch) : Patch := ps.foldr (· ++ ·) nothing

/-- What is reported. -/
def reports (p : Patch) : List Report := p.bad.map (Report.atToken · .badTarget)

@[simp] theorem given_append : (p ++ q).given = p.given ++ q.given := rfl

@[simp] theorem bad_append : (p ++ q).bad = p.bad ++ q.bad := rfl

@[simp] theorem mended_append : (p ++ q).mended = p.mended ++ q.mended := rfl

@[simp] theorem given_nothing : nothing.given = [] := rfl

@[simp] theorem mended_nothing : nothing.mended = [] := rfl

@[simp] theorem reports_nothing : nothing.reports = [] := rfl

@[simp] theorem given_kept : (kept t).given = [t] := rfl

@[simp] theorem mended_kept : (kept t).mended = [t] := rfl

@[simp] theorem reports_kept : (kept t).reports = [] := rfl

@[simp] theorem reports_append : (p ++ q).reports = p.reports ++ q.reports := List.map_append

theorem reports_dropping (equal : Token) :
    (p.dropping equal q).reports = p.reports ++ (q.reports ++ [.atToken equal .badTarget]) := by
  simp [reports, dropping]

theorem append_assoc (p q r : Patch) : p ++ q ++ r = p ++ (q ++ r) :=
  Patch.ext (List.append_assoc ..) (List.append_assoc ..) (List.append_assoc ..)

theorem append_nothing (p : Patch) : p ++ nothing = p :=
  Patch.ext (List.append_nil _) (List.append_nil _) (List.append_nil _)

@[simp] theorem join_nil : join [] = nothing := rfl

@[simp] theorem join_cons (ps : List Patch) : join (p :: ps) = p ++ join ps := rfl

end Patch

/-! ## Derivations of patches -/

/-- A derivation of the given tokens with the relaxed productions.  An expression with an `=` is an
assignment if a name and nothing else is in front of it; otherwise the `=` is a bad one. -/
inductive Mends : Ebnf → Patch → Prop
  | token {t kinds} (mem : t.kind ∈ kinds) : Mends (.token kinds) (.kept t)
  | rule {symbol p} (hne : symbol ≠ .expression) (h : Mends (production symbol) p) :
      Mends (.rule symbol) p
  | plain {p} (h : Mends (.rule .logicOr) p) : Mends (.rule .expression) p
  | assign {name equal p} (target : Mends (.rule .logicOr) (.kept name))
      (hname : name.kind = .identifier) (hequal : equal.kind = .equal)
      (value : Mends (.rule .expression) p) :
      Mends (.rule .expression) (.kept name ++ (.kept equal ++ p))
  | badTarget {p equal q} (target : Mends (.rule .logicOr) p)
      (hbad : ∀ t, p.given = [t] → t.kind ≠ .identifier) (hequal : equal.kind = .equal)
      (value : Mends (.rule .expression) q) : Mends (.rule .expression) (p.dropping equal q)
  | sequence {a b p q} (first : Mends a p) (second : Mends b q) : Mends (a ++ b) (p ++ q)
  | left {a b p} (h : Mends a p) : Mends (a ||| b) p
  | right {a b p} (h : Mends b p) : Mends (a ||| b) p
  | none {a} : Mends (.option a) .nothing
  | some {a p} (h : Mends a p) : Mends (.option a) p
  | nil {a} : Mends (.star a) .nothing
  | cons {a p q} (first : Mends a p) (rest : Mends (.star a) q) : Mends (.star a) (p ++ q)

section

variable {a b : Ebnf} {p : Patch} {w : List Token}

theorem Mends.of_sequence (h : Mends (.sequence a b) p) :
    ∃ u v, p = u ++ v ∧ Mends a u ∧ Mends b v := by
  cases h with
  | sequence first second => exact ⟨_, _, rfl, first, second⟩

theorem Mends.of_kind {k : Kind} (h : Mends (.token [k]) p) : ∃ t, p = .kept t ∧ t.kind = k := by
  cases h with
  | token mem => exact ⟨_, rfl, List.mem_singleton.1 mem⟩

/-- A repetition is mended part by part. -/
theorem Mends.of_star (h : Mends (.star a) p) :
    ∃ ps : List Patch, p = .join ps ∧ ∀ q ∈ ps, Mends a q := by
  generalize hs : Ebnf.star a = b at h
  induction h with
  | nil => exact ⟨[], rfl, by simp⟩
  | @cons _ q _ first _ _ ih =>
    obtain rfl := Ebnf.star.inj hs
    obtain ⟨ps, rfl, hps⟩ := ih rfl
    refine ⟨q :: ps, rfl, ?_⟩
    intro r hr
    rcases List.mem_cons.1 hr with rfl | hr
    · exact first
    · exact hps r hr
  | _ => cases hs

theorem mends_join {ps : List Patch} (h : ∀ q ∈ ps, Mends a q) : Mends (.star a) (.join ps) := by
  induction ps with
  | nil => exact .nil
  | cons q ps ih =>
    exact .cons (h q List.mem_cons_self) (ih fun r hr => h r (List.mem_cons_of_mem _ hr))

theorem Mends.operand {symbol : Symbol} {operators : List Kind} (h : Mends (.rule symbol) p) :
    Mends (.separated symbol operators) p := by
  have hs : Mends (.separated symbol operators) (p ++ .nothing) := .sequence h .nil
  rwa [Patch.append_nothing] at hs

theorem Mends.logicOr_of_primary (h : Mends (.rule .primary) p) : Mends (.rule .logicOr) p := by
  have hunary : Mends (.rule .unary) p := .rule (by decide) (.right h)
  have hfactor : Mends (.rule .factor) p := .rule (by decide) hunary.operand
  have hterm : Mends (.rule .term) p := .rule (by decide) hfactor.operand
  have hcomparison : Mends (.rule .comparison) p := .rule (by decide) hterm.operand
  have hequality : Mends (.rule .equality) p := .rule (by decide) hcomparison.operand
  have hand : Mends (.rule .logicAnd) p := .rule (by decide) hequality.operand
  exact .rule (by decide) hand.operand

theorem mends_name {name : Token} (hname : name.kind = .identifier) :
    Mends (.rule .logicOr) (.kept name) :=
  Mends.logicOr_of_primary (.rule (by decide) (.left (.token (by rw [hname]; decide))))

/-- An expression of the relaxed grammar is mended by whether a name is in front of the `=`. -/
theorem mends_of_relaxed_expression (h : Mends (relaxed .expression) p) :
    ∃ q, Mends (.rule .expression) q ∧ q.given = p.given := by
  obtain ⟨target, rest, rfl, htarget, hrest⟩ := h.of_sequence
  cases hrest with
  | none => exact ⟨target, .plain htarget, by simp⟩
  | some hrest =>
    obtain ⟨_, value, rfl, mequal, hvalue⟩ := hrest.of_sequence
    obtain ⟨equal, rfl, hequal⟩ := mequal.of_kind
    by_cases hbad : ∀ t, target.given = [t] → t.kind ≠ .identifier
    · exact ⟨_, .badTarget htarget hbad hequal hvalue, rfl⟩
    · simp only [Classical.not_forall, Classical.not_not] at hbad
      obtain ⟨name, hgiven, hname⟩ := hbad
      exact ⟨_, .assign (mends_name hname) hname hequal hvalue, by simp [hgiven]⟩

/-- What is derivable with the relaxed productions can be mended. -/
theorem DerivesRelaxed.exists_mends (h : DerivesRelaxed a w) : ∃ p, Mends a p ∧ p.given = w := by
  induction h with
  | token mem => exact ⟨_, .token mem, rfl⟩
  | @rule symbol w h ih =>
    obtain ⟨p, hp, rfl⟩ := ih
    by_cases hne : symbol = .expression
    · subst hne
      exact mends_of_relaxed_expression hp
    · rw [relaxed_of_ne hne] at hp
      exact ⟨p, .rule hne hp, rfl⟩
  | sequence _ _ ih₁ ih₂ =>
    obtain ⟨p, hp, rfl⟩ := ih₁
    obtain ⟨q, hq, rfl⟩ := ih₂
    exact ⟨p ++ q, .sequence hp hq, rfl⟩
  | left _ ih =>
    obtain ⟨p, hp, hw⟩ := ih
    exact ⟨p, .left hp, hw⟩
  | right _ ih =>
    obtain ⟨p, hp, hw⟩ := ih
    exact ⟨p, .right hp, hw⟩
  | none => exact ⟨_, .none, rfl⟩
  | some _ ih =>
    obtain ⟨p, hp, hw⟩ := ih
    exact ⟨p, .some hp, hw⟩
  | nil => exact ⟨_, .nil, rfl⟩
  | cons _ _ ih₁ ih₂ =>
    obtain ⟨p, hp, rfl⟩ := ih₁
    obtain ⟨q, hq, rfl⟩ := ih₂
    exact ⟨p ++ q, .cons hp hq, rfl⟩

/-- The given tokens of what is mended are derivable with the relaxed productions. -/
theorem Mends.derivesRelaxed (h : Mends a p) : DerivesRelaxed a p.given := by
  have hassigned : ∀ {equal : Token} {u v : List Token}, equal.kind = .equal →
      DerivesRelaxed (.rule .logicOr) u → DerivesRelaxed (.rule .expression) v →
      DerivesRelaxed (.rule .expression) (u ++ ([equal] ++ v)) := fun hequal hu hv =>
    .rule (.sequence hu (.some (.sequence (.token (List.mem_singleton.2 hequal)) hv)))
  induction h with
  | token mem => exact .token mem
  | rule hne _ ih =>
    rw [← relaxed_of_ne hne] at ih
    exact .rule ih
  | @plain p _ ih =>
    have hd : DerivesRelaxed (relaxed .expression) (p.given ++ []) := .sequence ih .none
    rw [List.append_nil] at hd
    exact .rule hd
  | assign _ _ hequal _ ih₁ ih₂ => exact hassigned hequal ih₁ ih₂
  | badTarget _ _ hequal _ ih₁ ih₂ => exact hassigned hequal ih₁ ih₂
  | sequence _ _ ih₁ ih₂ => exact .sequence ih₁ ih₂
  | left _ ih => exact .left ih
  | right _ ih => exact .right ih
  | none => exact .none
  | some _ ih => exact .some ih
  | nil => exact .nil
  | cons _ _ ih₁ ih₂ => exact .cons ih₁ ih₂

/-- What remains is derivable from the documented grammar. -/
theorem Mends.derives (h : Mends a p) : Derives a p.mended := by
  induction h with
  | token mem => exact .token mem
  | rule _ _ ih => exact .rule ih
  | plain _ ih => exact .rule (.right ih)
  | assign _ hname hequal _ _ ih =>
    have h := Derives.sequence (.sequence (.kind hname) (.kind hequal)) ih
    exact .rule (.left h)
  | badTarget _ _ _ _ ih _ => exact .rule (.right ih)
  | sequence _ _ ih₁ ih₂ => exact .sequence ih₁ ih₂
  | left _ ih => exact .left ih
  | right _ ih => exact .right ih
  | none => exact .none
  | some _ ih => exact .some ih
  | nil => exact .nil
  | cons _ _ ih₁ ih₂ => exact .cons ih₁ ih₂

end

/-! ## What a derivation means -/

/-- What the right side of a production means for a patch if one knows what its symbols mean. -/
def Ebnf.Covers (meaning : Symbol → Patch → Prop) : Ebnf → Patch → Prop
  | .token kinds, p => ∃ t, p = .kept t ∧ t.kind ∈ kinds
  | .rule symbol, p => meaning symbol p
  | .sequence a b, p => ∃ u v, p = u ++ v ∧ a.Covers meaning u ∧ b.Covers meaning v
  | .choice a b, p => a.Covers meaning p ∨ b.Covers meaning p
  | .option a, p => p = .nothing ∨ a.Covers meaning p
  | .star a, p => ∃ ps : List Patch, p = .join ps ∧ ∀ q ∈ ps, a.Covers meaning q

/-- What follows from each production for its symbol. -/
structure Meaningful (meaning : Symbol → Patch → Prop) : Prop where
  rule : ∀ {symbol p}, symbol ≠ .expression → (production symbol).Covers meaning p →
    meaning symbol p
  plain : ∀ {p}, meaning .logicOr p → meaning .expression p
  assign : ∀ {name equal p}, name.kind = .identifier → equal.kind = .equal →
    meaning .expression p → meaning .expression (.kept name ++ (.kept equal ++ p))
  badTarget : ∀ {p equal q}, meaning .logicOr p → (∀ t, p.given = [t] → t.kind ≠ .identifier) →
    equal.kind = .equal → meaning .expression q → meaning .expression (p.dropping equal q)

/-- What follows from each production for its symbol holds of all that is mended. -/
theorem Mends.covers {meaning : Symbol → Patch → Prop} (hm : Meaningful meaning) {a : Ebnf}
    {p : Patch} (h : Mends a p) : a.Covers meaning p := by
  induction h with
  | token mem => exact ⟨_, rfl, mem⟩
  | rule hne _ ih => exact hm.rule hne ih
  | plain _ ih => exact hm.plain ih
  | assign _ hname hequal _ _ ih => exact hm.assign hname hequal ih
  | badTarget _ hbad hequal _ ih₁ ih₂ => exact hm.badTarget ih₁ hbad hequal ih₂
  | sequence _ _ ih₁ ih₂ => exact ⟨_, _, rfl, ih₁, ih₂⟩
  | left _ ih => exact Or.inl ih
  | right _ ih => exact Or.inr ih
  | none => exact Or.inl rfl
  | some _ ih => exact Or.inr ih
  | nil => exact ⟨[], rfl, by simp⟩
  | cons _ _ ih₁ ih₂ =>
    obtain ⟨ps, rfl, hps⟩ := ih₂
    refine ⟨_ :: ps, rfl, ?_⟩
    intro q hq
    rcases List.mem_cons.1 hq with rfl | hq
    · exact ih₁
    · exact hps q hq

theorem covers_kind {meaning : Symbol → Patch → Prop} {k : Kind} {p : Patch}
    (h : (Ebnf.token [k]).Covers meaning p) : ∃ t, p = .kept t ∧ t.kind = k := by
  obtain ⟨t, rfl, ht⟩ := h
  exact ⟨t, rfl, List.mem_singleton.1 ht⟩

end Lox.Grammar
