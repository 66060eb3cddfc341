import Lox.Proofs.Grammar.Complete
import Lox.Token.Scan

/-!
# Canonical trees and their writing

A tree is canonical if its operators stand where their binding allows, a variable is declared only in
a sequence, and an `else` has no conditional to belong to but its own.  What is read from scanned
tokens is canonical, and a canonical tree, written out, reads as itself
(`canonical_and_parse_writes`).  Writing is a relation, as a mark may come from any line.
-/

namespace Lox

open Grammar

/-! ## Canonical trees -/

/-- A token that the scanner makes of some source. -/
def Token.Scanned (t : Token) : Prop := ∃ source, t ∈ (scan source).tokens

namespace Expr

/-- The tier at which an expression stands by itself. -/
def tier? : Expr → Option Tier
  | literal _ | grouping _ | reference _ => some .primary
  | unary _ _ => some .unary
  | binary _ operator _ | logical _ operator _ => operator.kind.tier?
  | assign _ _ => some .assignment
  | misfit _ => none

/-- The expression binds as tightly as the tier, or more so. -/
def BindsAt (e : Expr) (tier : Tier) : Prop :=
  ∃ own, e.tier? = some own ∧ tier.rank ≤ own.rank

/-- Nil, a logical value, or what a scanned number or string stands for. -/
def CanonicalValue (v : Value) : Prop :=
  v = .nil ∨ (∃ b, v = .bool b) ∨
    ∃ t : Token, t.Scanned ∧ (t.kind = .number ∨ t.kind = .string) ∧ t.literal = v

/-- A scanned name. -/
def CanonicalName (name : Token) : Prop := name.Scanned ∧ name.kind = .identifier

/-- Operators stand between operands that bind tightly enough for them. -/
def Canonical : Expr → Prop
  | literal v => CanonicalValue v
  | grouping e => e.Canonical
  | unary operator e =>
    (operator.Scanned ∧ operator.kind ∈ [Kind.bang, .minus]) ∧ e.BindsAt .unary ∧ e.Canonical
  | binary a operator b =>
    operator.Scanned ∧ ∃ tier ∈ [Tier.equality, .comparison, .term, .factor],
      operator.kind ∈ tier.operators ∧ (a.BindsAt tier ∧ a.Canonical) ∧
        b.BindsAt tier.next ∧ b.Canonical
  | logical a operator b =>
    operator.Scanned ∧ ∃ tier ∈ [Tier.or, .and],
      operator.kind ∈ tier.operators ∧ (a.BindsAt tier ∧ a.Canonical) ∧
        b.BindsAt tier.next ∧ b.Canonical
  | reference name => CanonicalName name
  | assign name e => CanonicalName name ∧ e.Canonical
  | misfit _ => False

end Expr

namespace Stmt

/-- Does the statement end in a conditional without an `else`? -/
def endsOpen : Stmt → Bool
  | ifThen _ _ => true
  | ifElse _ _ elseBranch => elseBranch.endsOpen
  | loop _ body => body.endsOpen
  | _ => false

/-- A variable with a scanned name, and with a canonical initializer or none. -/
def CanonicalVariable (s : Stmt) : Prop :=
  ∃ name initializer, s = declare name initializer ∧ Expr.CanonicalName name ∧
    ∀ e ∈ initializer, e.Canonical

mutual

/-- A statement that is no variable, with canonical parts; no `else` in it could belong to an
earlier conditional. -/
def Canonical : Stmt → Prop
  | expression e | print e => e.Canonical
  | declare _ _ => False
  | block body => CanonicalAll body
  | ifThen condition thenBranch => condition.Canonical ∧ thenBranch.Canonical
  | ifElse condition thenBranch elseBranch =>
    condition.Canonical ∧ (thenBranch.Canonical ∧ thenBranch.endsOpen = false) ∧
      elseBranch.Canonical
  | loop condition body => condition.Canonical ∧ body.Canonical
  | misfit _ => False

/-- Variables and statements one after the other, all of them canonical. -/
def CanonicalAll : List Stmt → Prop
  | [] => True
  | s :: ss => (s.CanonicalVariable ∨ s.Canonical) ∧ CanonicalAll ss

end

end Stmt

/-! ## Writing -/

namespace Expr

/-- The tokens are the expression written out: groups in parentheses, operators between their
operands. -/
def Writes : Expr → List Token → Prop
  | literal v, w => ∃ t : Token, w = [t] ∧ t.value? = some v
  | grouping e, w => ∃ l u r, w = l :: u ++ [r] ∧ l.kind = .leftParen ∧ r.kind = .rightParen ∧
      e.Writes u
  | unary operator e, w => ∃ u, w = operator :: u ∧ e.Writes u
  | binary a operator b, w | logical a operator b, w =>
    ∃ u v, w = u ++ operator :: v ∧ a.Writes u ∧ b.Writes v
  | reference name, w => w = [name]
  | assign name e, w => ∃ equal u, w = name :: equal :: u ∧ equal.kind = .equal ∧ e.Writes u
  | misfit _, _ => False

end Expr

namespace Stmt

/-- A word, an expression in parentheses, and the tokens behind. -/
def WritesHead (word : Kind) (condition : Expr) (rest w : List Token) : Prop :=
  ∃ t l u r, w = t :: l :: u ++ r :: rest ∧ t.kind = word ∧ l.kind = .leftParen ∧
    r.kind = .rightParen ∧ condition.Writes u

mutual

/-- The tokens are the statement written out. -/
def Writes : Stmt → List Token → Prop
  | expression e, w => ∃ u close, w = u ++ [close] ∧ close.kind = .semicolon ∧ e.Writes u
  | print e, w =>
    ∃ word u close, w = word :: u ++ [close] ∧ word.kind = .printWord ∧
      close.kind = .semicolon ∧ e.Writes u
  | declare name none, w =>
    ∃ word close, w = [word, name, close] ∧ word.kind = .varWord ∧ close.kind = .semicolon
  | declare name (some e), w =>
    ∃ word equal u close, w = word :: name :: equal :: u ++ [close] ∧ word.kind = .varWord ∧
      equal.kind = .equal ∧ close.kind = .semicolon ∧ e.Writes u
  | block body, w =>
    ∃ l u r, w = l :: u ++ [r] ∧ l.kind = .leftBrace ∧ r.kind = .rightBrace ∧ WritesAll body u
  | ifThen condition thenBranch, w =>
    ∃ u, WritesHead .ifWord condition u w ∧ thenBranch.Writes u
  | ifElse condition thenBranch elseBranch, w =>
    ∃ u other v, WritesHead .ifWord condition (u ++ other :: v) w ∧ other.kind = .elseWord ∧
      thenBranch.Writes u ∧ elseBranch.Writes v
  | loop condition body, w => ∃ u, WritesHead .whileWord condition u w ∧ body.Writes u
  | misfit _, _ => False

/-- The tokens are the statements written out one after the other. -/
def WritesAll : List Stmt → List Token → Prop
  | [], w => w = []
  | s :: ss, w => ∃ u v, w = u ++ v ∧ s.Writes u ∧ WritesAll ss v

end

end Stmt

/-! ## What is read is canonical -/

variable {tier : Tier} {ts us rs w : List Token} {e : Expr}

theorem Expr.BindsAt.of_next (h : e.BindsAt tier.next) : e.BindsAt tier := by
  obtain ⟨own, hown, hr⟩ := h
  exact ⟨own, hown, Nat.le_trans tier.rank_le_next hr⟩

/-- All of these tokens are scanned. -/
def AllScanned (ts : List Token) : Prop := ∀ t ∈ ts, t.Scanned

namespace AllScanned

theorem head {t : Token} (h : AllScanned (t :: ts)) : t.Scanned := h t List.mem_cons_self

theorem tail {t : Token} (h : AllScanned (t :: ts)) : AllScanned ts :=
  fun u hu => h u (List.mem_cons_of_mem _ hu)

theorem cons {t : Token} (h : t.Scanned) (hts : AllScanned ts) : AllScanned (t :: ts) := by
  intro u hu
  rcases List.mem_cons.1 hu with rfl | hu
  · exact h
  · exact hts u hu

theorem nil : AllScanned [] := fun _ h => absurd h List.not_mem_nil

theorem append (hts : AllScanned ts) (hus : AllScanned us) : AllScanned (ts ++ us) := by
  intro u hu
  rcases List.mem_append.1 hu with hu | hu
  · exact hts u hu
  · exact hus u hu

theorem of_suffix (h : AllScanned ts) (hs : us <:+ ts) : AllScanned us :=
  fun u hu => h u (hs.subset hu)

end AllScanned

theorem Expr.canonicalValue_of_value? {t : Token} {v : Value} (ht : t.Scanned)
    (hv : t.value? = some v) : CanonicalValue v := by
  unfold Token.value? at hv
  split at hv
  next => exact Or.inr (Or.inl ⟨_, (Option.some.inj hv).symm⟩)
  next => exact Or.inr (Or.inl ⟨_, (Option.some.inj hv).symm⟩)
  next => exact Or.inl (Option.some.inj hv).symm
  next hk => exact Or.inr (Or.inr ⟨t, ht, Or.inl hk, Option.some.inj hv⟩)
  next hk => exact Or.inr (Or.inr ⟨t, ht, Or.inr hk, Option.some.inj hv⟩)
  next => cases hv

theorem Expr.canonical_join {a b : Expr} {operator : Token} (hs : operator.Scanned)
    (hmem : operator.kind ∈ tier.operators) (ha : a.BindsAt tier ∧ a.Canonical)
    (hb : b.BindsAt tier.next ∧ b.Canonical) :
    (tier.join a operator b).BindsAt tier ∧ (tier.join a operator b).Canonical := by
  have htier := Kind.tier?_of_mem_operators hmem
  cases tier with
  | or | and => exact ⟨⟨_, htier, Nat.le_refl _⟩, hs, _, by decide, hmem, ha, hb⟩
  | equality | comparison | term | factor =>
    exact ⟨⟨_, htier, Nat.le_refl _⟩, hs, _, by decide, hmem, ha, hb⟩
  | _ => exact absurd hmem List.not_mem_nil

/-- A `for` loop with canonical parts is canonical, and it ends open only if its body does. -/
theorem Stmt.canonical_forLoop {initializer : Option Stmt} {condition increment : Option Expr}
    {body : Stmt} (hi : ∀ s ∈ initializer, s.CanonicalVariable ∨ s.Canonical)
    (hc : ∀ e ∈ condition, e.Canonical) (hn : ∀ e ∈ increment, e.Canonical)
    (hb : body.Canonical) :
    (forLoop initializer condition increment body).Canonical ∧
      ((forLoop initializer condition increment body).endsOpen = true → body.endsOpen = true) := by
  have hcondition : (condition.getD (.literal (.bool true))).Canonical := by
    cases condition with
    | none => exact Or.inr (Or.inl ⟨true, rfl⟩)
    | some e => exact hc e rfl
  cases increment with
  | none =>
    cases initializer with
    | none => exact ⟨⟨hcondition, hb⟩, id⟩
    | some s => exact ⟨⟨hi s rfl, Or.inr ⟨hcondition, hb⟩, trivial⟩, by simp [forLoop, endsOpen]⟩
  | some e =>
    have hbody : (block [body, expression e]).Canonical :=
      ⟨Or.inr hb, Or.inr (hn e rfl), trivial⟩
    cases initializer with
    | none => exact ⟨⟨hcondition, hbody⟩, by simp [forLoop, endsOpen]⟩
    | some s => exact ⟨⟨hi s rfl, Or.inr ⟨hcondition, hbody⟩, trivial⟩, by simp [forLoop, endsOpen]⟩

namespace Grammar

theorem Phrase.canonical (h : Phrase tier ts e rs) (hs : AllScanned ts) :
    e.BindsAt tier ∧ e.Canonical := by
  induction h with
  | tighter _ ih =>
    obtain ⟨hb, hc⟩ := ih hs
    exact ⟨hb.of_next, hc⟩
  | joined left mem _ ihleft ihright =>
    have hs' := hs.of_suffix left.suffix
    exact Expr.canonical_join hs'.head mem (ihleft hs) (ihright hs'.tail)
  | assign hname _ _ ih =>
    exact ⟨⟨_, rfl, Nat.le_refl _⟩, ⟨hs.head, hname⟩, (ih hs.tail.tail).2⟩
  | unary mem _ ih => exact ⟨⟨_, rfl, Nat.le_refl _⟩, ⟨hs.head, mem⟩, ih hs.tail⟩
  | literal hv => exact ⟨⟨_, rfl, Nat.le_refl _⟩, Expr.canonicalValue_of_value? hs.head hv⟩
  | reference hname => exact ⟨⟨_, rfl, Nat.le_refl _⟩, hs.head, hname⟩
  | grouping _ _ _ ih => exact ⟨⟨_, rfl, Nat.le_refl _⟩, (ih hs.tail).2⟩

theorem VariablePhrase.canonical {stmt : Stmt} (h : VariablePhrase ts stmt rs)
    (hs : AllScanned ts) : stmt.CanonicalVariable := by
  cases h with
  | plain hname => exact ⟨_, _, rfl, ⟨hs.head, hname⟩, by simp⟩
  | initialized hname _ initializer =>
    refine ⟨_, _, rfl, ⟨hs.head, hname⟩, ?_⟩
    rintro _ ⟨⟩
    exact (initializer.canonical hs.tail.tail).2

theorem EffectPhrase.canonical {stmt : Stmt} (h : EffectPhrase ts stmt rs) (hs : AllScanned ts) :
    stmt.Canonical := by
  cases h with
  | mk inner => exact (inner.canonical hs).2

theorem InitializerPhrase.canonical {o : Option Stmt} (h : InitializerPhrase ts o rs)
    (hs : AllScanned ts) : ∀ s ∈ o, s.CanonicalVariable ∨ s.Canonical := by
  cases h with
  | missing => simp
  | «variable» _ inner =>
    rintro _ ⟨⟩
    exact Or.inl (inner.canonical hs.tail)
  | effect inner =>
    rintro _ ⟨⟩
    exact Or.inr (inner.canonical hs)

theorem OptionalPhrase.canonical {o : Option Expr} (h : OptionalPhrase ts o rs)
    (hs : AllScanned ts) : ∀ e ∈ o, e.Canonical := by
  cases h with
  | missing => simp
  | present inner =>
    rintro _ ⟨⟩
    exact (inner.canonical hs).2

mutual

theorem StmtPhrase.canonical {dangling : Bool} {ts rs : List Token} {stmt : Stmt}
    (h : StmtPhrase dangling ts stmt rs) (hs : AllScanned ts) :
    stmt.Canonical ∧ (stmt.endsOpen = true → dangling = true) := by
  match h with
  | .effect inner =>
    refine ⟨inner.canonical hs, fun ho => ?_⟩
    cases inner
    cases ho
  | .print _ inner _ => exact ⟨(inner.canonical hs.tail).2, by simp [Stmt.endsOpen]⟩
  | .block _ inner _ => exact ⟨inner.canonical hs.tail, by simp [Stmt.endsOpen]⟩
  | .ifThen _ _ hcondition _ hthen =>
    have hs := hs.tail.tail
    have hs' := (hs.of_suffix hcondition.suffix).tail
    exact ⟨⟨(hcondition.canonical hs).2, (hthen.canonical hs').1⟩, fun _ => rfl⟩
  | .ifElse _ _ hcondition _ hthen _ helse =>
    have hs := hs.tail.tail
    have hs' := (hs.of_suffix hcondition.suffix).tail
    have ⟨hc, ho⟩ := hthen.canonical hs'
    have ⟨hc', ho'⟩ := helse.canonical (hs'.of_suffix hthen.suffix).tail
    exact ⟨⟨(hcondition.canonical hs).2, ⟨hc, by simpa using ho⟩, hc'⟩, ho'⟩
  | .whileLoop _ _ hcondition _ hbody =>
    have hs := hs.tail.tail
    have ⟨hc, ho⟩ := hbody.canonical (hs.of_suffix hcondition.suffix).tail
    exact ⟨⟨(hcondition.canonical hs).2, hc⟩, ho⟩
  | .forLoop _ _ hinitializer hcondition _ hincrement _ hbody =>
    have hs := hs.tail.tail
    have hs' := hs.of_suffix hinitializer.suffix
    have hs'' := (hs'.of_suffix hcondition.suffix).tail
    have ⟨hc, ho⟩ := hbody.canonical (hs''.of_suffix hincrement.suffix).tail
    have ⟨hfor, hopen⟩ := Stmt.canonical_forLoop (hinitializer.canonical hs)
      (hcondition.canonical hs') (hincrement.canonical hs'') hc
    exact ⟨hfor, fun h => ho (hopen h)⟩

theorem SequencePhrase.canonical {ts rs : List Token} {ss : List Stmt}
    (h : SequencePhrase ts ss rs) (hs : AllScanned ts) : Stmt.CanonicalAll ss := by
  match h with
  | .nil => exact trivial
  | .variable _ first rest =>
    exact ⟨Or.inl (first.canonical hs.tail), rest.canonical (hs.tail.of_suffix first.suffix)⟩
  | .statement first rest =>
    exact ⟨Or.inr (first.canonical hs).1, rest.canonical (hs.of_suffix first.suffix)⟩

end

end Grammar

/-! ## What is canonical is read as itself -/

/-- An expression that binds tightly enough is a phrase of a looser tier too. -/
theorem Grammar.Phrase.of_rank_le {tier' : Tier} (h : Phrase tier' ts e rs)
    (hr : tier.rank ≤ tier'.rank) : Phrase tier ts e rs := by
  obtain ⟨d, hd⟩ := Nat.le.dest hr
  induction d generalizing tier with
  | zero => rwa [Tier.rank_injective hd]
  | succ d ih =>
    by_cases ht : tier = .primary
    · subst ht
      have hle : tier'.rank ≤ Tier.primary.rank := by cases tier' <;> decide
      omega
    · have hnext := Tier.rank_next_of_ne ht
      exact .tighter (ih (by omega) (by omega))

namespace Expr

/-- Every canonical expression may be the value of an assignment. -/
theorem Canonical.bindsAt (h : e.Canonical) : e.BindsAt .assignment := by
  match e with
  | literal _ | grouping _ | reference _ => exact ⟨.primary, rfl, by decide⟩
  | unary _ _ => exact ⟨.unary, rfl, by decide⟩
  | binary _ _ _ =>
    obtain ⟨-, tier, htier, hmem, -⟩ := h
    have hrank : ∀ tier ∈ [Tier.equality, .comparison, .term, .factor],
        Tier.assignment.rank ≤ tier.rank := by decide
    exact ⟨tier, Kind.tier?_of_mem_operators hmem, hrank tier htier⟩
  | logical _ _ _ =>
    obtain ⟨-, tier, htier, hmem, -⟩ := h
    have hrank : ∀ tier ∈ [Tier.or, .and], Tier.assignment.rank ≤ tier.rank := by decide
    exact ⟨tier, Kind.tier?_of_mem_operators hmem, hrank tier htier⟩
  | assign _ _ => exact ⟨.assignment, rfl, Nat.le_refl _⟩
  | misfit _ => exact h.elim

/-- A canonical expression, written out, is a phrase. -/
theorem Writes.phrase {e : Expr} {w : List Token} (hc : e.Canonical) (hw : e.Writes w)
    {tier : Tier} (hb : e.BindsAt tier) (rs : List Token) : Phrase tier (w ++ rs) e rs := by
  suffices h : ∀ own, e.tier? = some own → Phrase own (w ++ rs) e rs by
    obtain ⟨own, hown, hr⟩ := hb
    exact (h own hown).of_rank_le hr
  intro own hown
  match e with
  | literal v =>
    obtain ⟨t, rfl, hv⟩ := hw
    obtain rfl := Option.some.inj hown
    exact .literal hv
  | grouping e =>
    obtain ⟨l, u, r, rfl, hl, hr, hu⟩ := hw
    obtain rfl := Option.some.inj hown
    have hc : e.Canonical := hc
    have hinner := Writes.phrase hc hu hc.bindsAt (r :: rs)
    rw [List.cons_append, List.cons_append, List.append_assoc]
    exact .grouping hl hr (.tighter hinner)
  | unary operator e =>
    obtain ⟨⟨-, hmem⟩, hb, hc⟩ := hc
    obtain ⟨u, rfl, hu⟩ := hw
    obtain rfl := Option.some.inj hown
    exact .unary hmem (Writes.phrase hc hu hb rs)
  | binary a operator b =>
    obtain ⟨-, tier, htier, hmem, ⟨hba, hca⟩, hbb, hcb⟩ := hc
    obtain ⟨u, v, rfl, hu, hv⟩ := hw
    obtain rfl := Option.some.inj (hown.symm.trans (Kind.tier?_of_mem_operators hmem))
    have hjoin : own.join = binary := by
      simp only [List.mem_cons, List.not_mem_nil, or_false] at htier
      rcases htier with rfl | rfl | rfl | rfl <;> rfl
    rw [List.append_assoc, List.cons_append]
    exact hjoin ▸ .joined (Writes.phrase hca hu hba _) hmem (Writes.phrase hcb hv hbb rs)
  | logical a operator b =>
    obtain ⟨-, tier, htier, hmem, ⟨hba, hca⟩, hbb, hcb⟩ := hc
    obtain ⟨u, v, rfl, hu, hv⟩ := hw
    obtain rfl := Option.some.inj (hown.symm.trans (Kind.tier?_of_mem_operators hmem))
    have hjoin : own.join = logical := by
      simp only [List.mem_cons, List.not_mem_nil, or_false] at htier
      rcases htier with rfl | rfl <;> rfl
    rw [List.append_assoc, List.cons_append]
    exact hjoin ▸ .joined (Writes.phrase hca hu hba _) hmem (Writes.phrase hcb hv hbb rs)
  | reference name =>
    obtain rfl := hw
    obtain rfl := Option.some.inj hown
    exact .reference hc.2
  | assign name e =>
    obtain ⟨⟨-, hname⟩, hc⟩ := hc
    obtain ⟨equal, u, rfl, hequal, hu⟩ := hw
    obtain rfl := Option.some.inj hown
    exact .assign hname hequal (Writes.phrase hc hu hc.bindsAt rs)
  | misfit _ => cases hown

theorem Writes.phraseExpression (hc : e.Canonical) (hw : e.Writes w) (rs : List Token) :
    Phrase .expression (w ++ rs) e rs := .tighter (hw.phrase hc hc.bindsAt rs)

end Expr

namespace Stmt

/-- The parts of a head, as they stand in front of what is behind it. -/
theorem WritesHead.phrase {word : Kind} {condition : Expr} {rest : List Token}
    (hc : condition.Canonical) (h : WritesHead word condition rest w) (rs : List Token) :
    ∃ t l u r, w ++ rs = t :: l :: u ∧ t.kind = word ∧ l.kind = .leftParen ∧
      r.kind = .rightParen ∧ Phrase .expression u condition (r :: (rest ++ rs)) := by
  obtain ⟨t, l, u, r, rfl, ht, hl, hr, hu⟩ := h
  refine ⟨t, l, u ++ r :: (rest ++ rs), r, ?_, ht, hl, hr, hu.phraseExpression hc _⟩
  simp

mutual

/-- A canonical statement, written out, is one, and it is dangling if it ends open. -/
theorem Writes.phrase {s : Stmt} {w : List Token} (hc : s.Canonical) (hw : s.Writes w)
    (rs : List Token) : StmtPhrase s.endsOpen (w ++ rs) s rs := by
  match s with
  | expression e =>
    obtain ⟨u, close, rfl, hclose, hu⟩ := hw
    rw [List.append_assoc]
    exact .effect (.mk (hu.phraseExpression hc _) hclose)
  | print e =>
    obtain ⟨word, u, close, rfl, hword, hclose, hu⟩ := hw
    rw [List.cons_append, List.cons_append, List.append_assoc]
    exact .print hword (hu.phraseExpression hc _) hclose
  | declare _ _ => exact hc.elim
  | block body =>
    obtain ⟨l, u, r, rfl, hl, hr, hu⟩ := hw
    have hbody := WritesAll.phrase hc hu (r :: rs)
    rw [List.cons_append, List.cons_append, List.append_assoc]
    exact .block hl hbody hr
  | ifThen condition thenBranch =>
    obtain ⟨hcondition, hthen⟩ := hc
    obtain ⟨u, hhead, hu⟩ := hw
    have hbranch := Writes.phrase hthen hu rs
    obtain ⟨t, l, u', r, hw, ht, hl, hr, hphrase⟩ := hhead.phrase hcondition rs
    rw [hw]
    exact .ifThen ht hl hphrase hr hbranch
  | ifElse condition thenBranch elseBranch =>
    obtain ⟨hcondition, ⟨hthen, hopen⟩, helse⟩ := hc
    obtain ⟨u, other, v, hhead, hother, hu, hv⟩ := hw
    have hbranch := Writes.phrase hthen hu (other :: (v ++ rs))
    have hbranch' := Writes.phrase helse hv rs
    obtain ⟨t, l, u', r, hw, ht, hl, hr, hphrase⟩ := hhead.phrase hcondition rs
    rw [hopen] at hbranch
    rw [List.append_assoc, List.cons_append] at hphrase
    rw [hw]
    exact .ifElse ht hl hphrase hr hbranch hother hbranch'
  | loop condition body =>
    obtain ⟨hcondition, hbody⟩ := hc
    obtain ⟨u, hhead, hu⟩ := hw
    have hbranch := Writes.phrase hbody hu rs
    obtain ⟨t, l, u', r, hw, ht, hl, hr, hphrase⟩ := hhead.phrase hcondition rs
    rw [hw]
    exact .whileLoop ht hl hphrase hr hbranch
  | misfit _ => exact hc.elim

theorem WritesAll.phrase {ss : List Stmt} {w : List Token} (hc : CanonicalAll ss)
    (hw : WritesAll ss w) (rs : List Token) : SequencePhrase (w ++ rs) ss rs := by
  match ss with
  | [] =>
    obtain rfl : w = [] := hw
    exact .nil
  | s :: ss =>
    obtain ⟨hfirst, hrest⟩ := hc
    obtain ⟨u, v, rfl, hu, hv⟩ := hw
    have hseq := WritesAll.phrase hrest hv rs
    rw [List.append_assoc]
    rcases hfirst with ⟨name, initializer, rfl, hname, hi⟩ | hfirst
    · cases initializer with
      | none =>
        obtain ⟨word, close, rfl, hword, hclose⟩ := hu
        exact .variable hword (.plain hname.2 hclose) hseq
      | some e =>
        obtain ⟨word, equal, x, close, rfl, hword, hequal, hclose, hx⟩ := hu
        have hphrase := hx.phraseExpression (hi e rfl) (close :: (v ++ rs))
        have heq : word :: name :: equal :: x ++ [close] ++ (v ++ rs) =
            word :: name :: equal :: (x ++ close :: (v ++ rs)) := by simp
        rw [heq]
        exact .variable hword (.initialized hname.2 hequal hphrase hclose) hseq
    · exact .statement (Writes.phrase hfirst hu (v ++ rs)) hseq

end

end Stmt

/-! ## What is canonical can be written -/

/-- The marks and words that writing adds to the tokens of a tree, and their texts. -/
def marks : List (Kind × String) :=
  [(.leftParen, "("), (.rightParen, ")"), (.leftBrace, "\x7b"), (.rightBrace, "\x7d"),
   (.semicolon, ";"), (.equal, "="), (.nilWord, "nil"), (.trueWord, "true"), (.falseWord, "false"),
   (.varWord, "var"), (.printWord, "print"), (.ifWord, "if"), (.elseWord, "else"),
   (.whileWord, "while")]

theorem kind_scan_marks :
    ∀ p ∈ marks, ((scan p.2).tokens.map Token.kind).head? = some p.1 := by decide +kernel

/-- The scanner makes each mark of its text. -/
theorem exists_scanned {k : Kind} (h : k ∈ marks.map Prod.fst) :
    ∃ t : Token, t.Scanned ∧ t.kind = k := by
  obtain ⟨p, hp, rfl⟩ := List.mem_map.1 h
  have hk := kind_scan_marks p hp
  cases hs : (scan p.2).tokens with
  | nil =>
    rw [hs] at hk
    cases hk
  | cons t r =>
    rw [hs] at hk
    exact ⟨t, ⟨p.2, by rw [hs]; exact List.mem_cons_self⟩, Option.some.inj hk⟩

theorem Expr.Canonical.exists_writes {e : Expr} (h : e.Canonical) :
    ∃ w, e.Writes w ∧ AllScanned w := by
  match e with
  | .literal v =>
    have hword : ∀ {k : Kind}, k ∈ marks.map Prod.fst →
        (∀ t : Token, t.kind = k → t.value? = some v) →
        ∃ w, (Expr.literal v).Writes w ∧ AllScanned w := by
      intro k hk hv
      obtain ⟨t, ht, htk⟩ := exists_scanned hk
      exact ⟨[t], ⟨t, rfl, hv t htk⟩, .cons ht .nil⟩
    rcases h with rfl | ⟨b, rfl⟩ | ⟨t, ht, hk, rfl⟩
    · exact hword (k := .nilWord) (by decide) fun t ht => by simp [Token.value?, ht]
    · cases b with
      | true => exact hword (k := .trueWord) (by decide) fun t ht => by simp [Token.value?, ht]
      | false => exact hword (k := .falseWord) (by decide) fun t ht => by simp [Token.value?, ht]
    · refine ⟨[t], ⟨t, rfl, ?_⟩, .cons ht .nil⟩
      rcases hk with hk | hk <;> simp [Token.value?, hk]
  | .grouping e =>
    have h : e.Canonical := h
    obtain ⟨u, hu, hs⟩ := h.exists_writes
    obtain ⟨l, hsl, hl⟩ := exists_scanned (k := .leftParen) (by decide)
    obtain ⟨r, hsr, hr⟩ := exists_scanned (k := .rightParen) (by decide)
    exact ⟨_, ⟨l, u, r, rfl, hl, hr, hu⟩, (hs.cons hsl).append (.cons hsr .nil)⟩
  | .unary operator e =>
    obtain ⟨⟨ho, -⟩, -, h⟩ := h
    obtain ⟨u, hu, hs⟩ := h.exists_writes
    exact ⟨_, ⟨u, rfl, hu⟩, hs.cons ho⟩
  | .binary a operator b | .logical a operator b =>
    obtain ⟨ho, -, -, -, ⟨-, ha⟩, -, hb⟩ := h
    obtain ⟨u, hu, hs⟩ := ha.exists_writes
    obtain ⟨v, hv, hs'⟩ := hb.exists_writes
    exact ⟨_, ⟨u, v, rfl, hu, hv⟩, hs.append (hs'.cons ho)⟩
  | .reference name => exact ⟨[name], rfl, .cons h.1 .nil⟩
  | .assign name e =>
    obtain ⟨⟨hname, -⟩, h⟩ := h
    obtain ⟨u, hu, hs⟩ := h.exists_writes
    obtain ⟨equal, hse, hequal⟩ := exists_scanned (k := .equal) (by decide)
    exact ⟨_, ⟨equal, u, rfl, hequal, hu⟩, (hs.cons hse).cons hname⟩
  | .misfit _ => exact h.elim

namespace Stmt

theorem exists_writesHead (word : Kind) (hword : word ∈ marks.map Prod.fst) {condition : Expr}
    (h : condition.Canonical) {rest : List Token} (hs : AllScanned rest) :
    ∃ w, WritesHead word condition rest w ∧ AllScanned w := by
  obtain ⟨u, hu, hs'⟩ := h.exists_writes
  obtain ⟨t, hst, ht⟩ := exists_scanned hword
  obtain ⟨l, hsl, hl⟩ := exists_scanned (k := .leftParen) (by decide)
  obtain ⟨r, hsr, hr⟩ := exists_scanned (k := .rightParen) (by decide)
  exact ⟨_, ⟨t, l, u, r, rfl, ht, hl, hr, hu⟩, ((hs'.cons hsl).cons hst).append (hs.cons hsr)⟩

theorem CanonicalVariable.exists_writes {s : Stmt} (h : s.CanonicalVariable) :
    ∃ w, s.Writes w ∧ AllScanned w := by
  obtain ⟨name, initializer, rfl, ⟨hname, -⟩, hi⟩ := h
  obtain ⟨word, hsw, hword⟩ := exists_scanned (k := .varWord) (by decide)
  obtain ⟨close, hsc, hclose⟩ := exists_scanned (k := .semicolon) (by decide)
  cases initializer with
  | none => exact ⟨_, ⟨word, close, rfl, hword, hclose⟩, .cons hsw (.cons hname (.cons hsc .nil))⟩
  | some e =>
    obtain ⟨u, hu, hs⟩ := (hi e rfl).exists_writes
    obtain ⟨equal, hse, hequal⟩ := exists_scanned (k := .equal) (by decide)
    exact ⟨_, ⟨word, equal, u, close, rfl, hword, hequal, hclose, hu⟩,
      (((hs.cons hse).cons hname).cons hsw).append (.cons hsc .nil)⟩

mutual

theorem Canonical.exists_writes {s : Stmt} (h : s.Canonical) :
    ∃ w, s.Writes w ∧ AllScanned w := by
  match s with
  | expression e =>
    have h : e.Canonical := h
    obtain ⟨u, hu, hs⟩ := h.exists_writes
    obtain ⟨close, hsc, hclose⟩ := exists_scanned (k := .semicolon) (by decide)
    exact ⟨_, ⟨u, close, rfl, hclose, hu⟩, hs.append (.cons hsc .nil)⟩
  | print e =>
    have h : e.Canonical := h
    obtain ⟨u, hu, hs⟩ := h.exists_writes
    obtain ⟨word, hsw, hword⟩ := exists_scanned (k := .printWord) (by decide)
    obtain ⟨close, hsc, hclose⟩ := exists_scanned (k := .semicolon) (by decide)
    exact ⟨_, ⟨word, u, close, rfl, hword, hclose, hu⟩, (hs.cons hsw).append (.cons hsc .nil)⟩
  | declare _ _ => exact h.elim
  | block body =>
    obtain ⟨u, hu, hs⟩ := CanonicalAll.exists_writes h
    obtain ⟨l, hsl, hl⟩ := exists_scanned (k := .leftBrace) (by decide)
    obtain ⟨r, hsr, hr⟩ := exists_scanned (k := .rightBrace) (by decide)
    exact ⟨_, ⟨l, u, r, rfl, hl, hr, hu⟩, (hs.cons hsl).append (.cons hsr .nil)⟩
  | ifThen condition thenBranch =>
    obtain ⟨hcondition, hthen⟩ := h
    obtain ⟨u, hu, hs⟩ := Canonical.exists_writes hthen
    obtain ⟨w, hw, hs'⟩ := exists_writesHead .ifWord (by decide) hcondition hs
    exact ⟨w, ⟨u, hw, hu⟩, hs'⟩
  | ifElse condition thenBranch elseBranch =>
    obtain ⟨hcondition, ⟨hthen, -⟩, helse⟩ := h
    obtain ⟨u, hu, hs⟩ := Canonical.exists_writes hthen
    obtain ⟨v, hv, hs'⟩ := Canonical.exists_writes helse
    obtain ⟨other, hso, hother⟩ := exists_scanned (k := .elseWord) (by decide)
    obtain ⟨w, hw, hs''⟩ := exists_writesHead .ifWord (by decide) hcondition
      (hs.append (hs'.cons hso))
    exact ⟨w, ⟨u, other, v, hw, hother, hu, hv⟩, hs''⟩
  | loop condition body =>
    obtain ⟨hcondition, hbody⟩ := h
    obtain ⟨u, hu, hs⟩ := Canonical.exists_writes hbody
    obtain ⟨w, hw, hs'⟩ := exists_writesHead .whileWord (by decide) hcondition hs
    exact ⟨w, ⟨u, hw, hu⟩, hs'⟩
  | misfit _ => exact h.elim

theorem CanonicalAll.exists_writes {ss : List Stmt} (h : CanonicalAll ss) :
    ∃ w, WritesAll ss w ∧ AllScanned w := by
  match ss with
  | [] => exact ⟨[], rfl, .nil⟩
  | s :: ss =>
    obtain ⟨hfirst, hrest⟩ := h
    obtain ⟨v, hv, hs⟩ := CanonicalAll.exists_writes hrest
    obtain ⟨u, hu, hs'⟩ : ∃ w, s.Writes w ∧ AllScanned w := by
      rcases hfirst with hfirst | hfirst
      · exact hfirst.exists_writes
      · exact Canonical.exists_writes hfirst
    exact ⟨_, ⟨u, v, rfl, hu, hv⟩, hs'.append hs⟩

end

end Stmt

/-! ## Trees and tokens -/

/-- Trees and tokens correspond: what is read of scanned tokens without a report is canonical, and
a canonical program can be written in scanned tokens, which, written in whatever way, read as that
very program without a report, unless nesting gets too deep. -/
theorem canonical_and_parse_writes :
    (∀ tokens program, AllScanned tokens → parse tokens = ⟨some program, []⟩ →
      Stmt.CanonicalAll program) ∧
    ∀ program, Stmt.CanonicalAll program →
      (∃ w, Stmt.WritesAll program w ∧ AllScanned w) ∧
      ∀ w e, Stmt.WritesAll program w → e.kind = .eof → (parse (w ++ [e])).WithinNesting →
        parse (w ++ [e]) = ⟨some program, []⟩ := by
  refine ⟨fun tokens program hs hp => ?_, fun program hc => ⟨hc.exists_writes, ?_⟩⟩
  · obtain ⟨e, r, -, hseq⟩ := exists_sequencePhrase_of_parse hp
    refine hseq.canonical ?_
    unfold closed
    split
    · exact .cons ⟨"", by decide +kernel⟩ .nil
    · exact hs
  · intro w e hw he hn
    exact parse_of_sequencePhrase he hn (Stmt.WritesAll.phrase hc hw [e])

/-- A negation is canonical as it is read, and written out it reads as itself. -/
theorem canonical_and_parse_print_not_nil :
    Stmt.CanonicalAll [.print (.unary ⟨.bang, "!", .nil, 1⟩ (.literal .nil))] ∧
      parse [⟨.printWord, "print", .nil, 7⟩, ⟨.bang, "!", .nil, 1⟩, ⟨.nilWord, "nil", .nil, 8⟩,
          ⟨.semicolon, ";", .nil, 9⟩, .eof 9] =
        ⟨some [.print (.unary ⟨.bang, "!", .nil, 1⟩ (.literal .nil))], []⟩ := by
  have hscan : (scan "print !nil;").tokens =
      [⟨.printWord, "print", .nil, 1⟩, ⟨.bang, "!", .nil, 1⟩, ⟨.nilWord, "nil", .nil, 1⟩,
        ⟨.semicolon, ";", .nil, 1⟩, .eof 1] := by decide +kernel
  have hcanonical := canonical_and_parse_writes.1 _ _ (fun t ht => ⟨"print !nil;", ht⟩)
    (by rw [hscan]; rfl)
  refine ⟨hcanonical, (canonical_and_parse_writes.2 _ hcanonical).2
    [⟨.printWord, "print", .nil, 7⟩, ⟨.bang, "!", .nil, 1⟩, ⟨.nilWord, "nil", .nil, 8⟩,
      ⟨.semicolon, ";", .nil, 9⟩] (.eof 9) ?_ rfl fun t h => absurd h List.not_mem_nil⟩
  refine ⟨_, [], (List.append_nil _).symm, ?_, rfl⟩
  exact ⟨_, [⟨.bang, "!", .nil, 1⟩, ⟨.nilWord, "nil", .nil, 8⟩], _, rfl, rfl, rfl,
    [⟨.nilWord, "nil", .nil, 8⟩], rfl, _, rfl, rfl⟩

end Lox
