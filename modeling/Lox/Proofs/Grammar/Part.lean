import Lox.Proofs.Grammar.Attempt

/-!
# Prints, blocks and lost semicolons

A text of prints and blocks, some of whose semicolons are lost, is a row of parts: prints with and
without their semicolon, and braces.  Which reports it gives depends on the parts alone (`faults`).
If each print without a semicolon has one with a semicolon right behind it or stands last, it gives
one report for each semicolon that is lost (`length_faults`).

Here are the parts of a text (`outline`, `Row`), and how they come from a program without faults
(`exists_row`).
-/

namespace Lox

/-- May the token stand in an expression? -/
def Kind.inExpression (k : Kind) : Bool := k.startsExpression || k.tier?.isSome || k = .rightParen

mutual

/-- The statement is a print, or a block of such statements. -/
def Stmt.PrintsOnly : Stmt → Prop
  | .print _ => True
  | .block body => Stmt.PrintOnlyAll body
  | _ => False

/-- All statements are prints or blocks of them. -/
def Stmt.PrintOnlyAll : List Stmt → Prop
  | [] => True
  | s :: ss => s.PrintsOnly ∧ Stmt.PrintOnlyAll ss

end

namespace Grammar

/-! ## Parts -/

/-- What a text of prints and blocks consists of, each with its first token: a print with or without
its semicolon, or a brace. -/
inductive Part
  | whole (word : Token)
  | bare (word : Token)
  | opens (brace : Token)
  | closes (brace : Token)
deriving DecidableEq

namespace Part

/-- The first token. -/
def token : Part → Token
  | whole t | bare t | opens t | closes t => t

/-- Is it a print without its semicolon? -/
def isBare : Part → Bool
  | bare _ => true
  | _ => false

/-- Is it a brace? -/
def isBrace : Part → Bool
  | opens _ | closes _ => true
  | _ => false

end Part

/-- The token that follows, before these parts and the end. -/
def following (e : Token) : List Part → Token
  | [] => e
  | p :: _ => p.token

/-- How many semicolons the parts have lost. -/
def lost (parts : List Part) : Nat := parts.countP Part.isBare

@[simp] theorem lost_nil : lost [] = 0 := rfl
@[simp] theorem lost_whole (t : Token) (w : List Part) : lost (.whole t :: w) = lost w := rfl
@[simp] theorem lost_bare (t : Token) (w : List Part) : lost (.bare t :: w) = lost w + 1 :=
  List.countP_cons_of_pos rfl
@[simp] theorem lost_opens (t : Token) (w : List Part) : lost (.opens t :: w) = lost w := rfl
@[simp] theorem lost_closes (t : Token) (w : List Part) : lost (.closes t :: w) = lost w := rfl

theorem lost_append (v w : List Part) : lost (v ++ w) = lost v + lost w := List.countP_append

/-- The parts left where reading goes on after a fault in front of them.  The first token never counts:
of a whole print the rest is passed over up to its semicolon, else all up to the next print. -/
def resume : List Part → List Part
  | [] => []
  | .whole _ :: w => w
  | _ :: w => w.dropWhile Part.isBrace

theorem length_resume_le (w : List Part) : (resume w).length ≤ w.length := by
  cases w with
  | nil => exact Nat.le_refl 0
  | cons p w =>
    have hdrop : (w.dropWhile Part.isBrace).length ≤ w.length :=
      (List.dropWhile_suffix _).length_le
    have hw : w.length ≤ w.length + 1 := Nat.le_succ _
    cases p with
    | whole => exact hw
    | bare | opens | closes => exact Nat.le_trans hdrop hw

theorem length_resume_lt (p : Part) (w : List Part) : (resume (p :: w)).length < (p :: w).length := by
  have hdrop : (w.dropWhile Part.isBrace).length ≤ w.length :=
    (List.dropWhile_suffix _).length_le
  cases p with
  | whole => exact Nat.lt_succ_self _
  | bare | opens | closes => exact Nat.lt_succ_of_le hdrop

/-- The reports of a text with these parts, in so many open blocks.  A bare print is reported at the
token that follows it, and a closing brace without a block at itself; then reading goes on behind.
At the end all blocks that are open are reported. -/
def faults (e : Token) (depth : Nat) : List Part → List Report
  | [] => List.replicate depth (.atToken e (.missing .endOfBlock))
  | .whole _ :: w => faults e depth w
  | .bare _ :: w => .atToken (following e w) (.missing .endOfPrint) :: faults e depth (resume w)
  | .opens _ :: w => faults e (depth + 1) w
  | .closes brace :: w =>
    match depth with
    | 0 => .atToken brace .noExpression :: faults e 0 (resume (.closes brace :: w))
    | depth + 1 => faults e depth w
termination_by w => w.length
decreasing_by
  · exact Nat.lt_succ_self _
  · exact Nat.lt_succ_of_le (length_resume_le w)
  · exact Nat.lt_succ_self _
  · exact length_resume_lt _ w
  · exact Nat.lt_succ_self _

section Equations

variable (e : Token) (depth : Nat) (t : Token) (w : List Part)

@[simp] theorem faults_nil :
    faults e depth [] = List.replicate depth (.atToken e (.missing .endOfBlock)) := by rw [faults]

@[simp] theorem faults_whole : faults e depth (.whole t :: w) = faults e depth w := by rw [faults]

@[simp] theorem faults_bare : faults e depth (.bare t :: w) =
    .atToken (following e w) (.missing .endOfPrint) :: faults e depth (resume w) := by rw [faults]

@[simp] theorem faults_opens : faults e depth (.opens t :: w) = faults e (depth + 1) w := by
  rw [faults]

@[simp] theorem faults_closes_zero : faults e 0 (.closes t :: w) =
    .atToken t .noExpression :: faults e 0 (resume (.closes t :: w)) := by rw [faults]

@[simp] theorem faults_closes_succ : faults e (depth + 1) (.closes t :: w) = faults e depth w := by
  rw [faults]

end Equations

/-- Every block that is opened is closed, and so are so many others, and none is closed that is not
open. -/
def Balanced : Nat → List Part → Prop
  | depth, [] => depth = 0
  | depth, .whole _ :: w | depth, .bare _ :: w => Balanced depth w
  | depth, .opens _ :: w => Balanced (depth + 1) w
  | 0, .closes _ :: _ => False
  | depth + 1, .closes _ :: w => Balanced depth w

/-- Behind each bare print there is a whole one, or nothing. -/
def guarded : List Part → Bool
  | [] | [.bare _] => true
  | .bare _ :: .whole _ :: w => guarded w
  | .bare _ :: _ => false
  | .whole _ :: w | .opens _ :: w | .closes _ :: w => guarded w

section Faults

variable {e : Token} {w : List Part}

/-- If all bare prints are guarded, each gives one report, and nothing else does. -/
theorem length_faults (depth : Nat) (hw : Balanced depth w) (hg : guarded w = true) :
    (faults e depth w).length = lost w := by
  fun_induction guarded w generalizing depth with
  | case1 =>
    obtain rfl : depth = 0 := hw
    simp
  | case2 word =>
    obtain rfl : depth = 0 := hw
    simp [resume]
  | case3 word next w ih =>
    rw [faults_bare, List.length_cons, resume, ih depth hw hg, lost_bare, lost_whole]
  | case4 => exact absurd hg Bool.false_ne_true
  | case5 word w ih =>
    rw [faults_whole, ih depth hw hg, lost_whole]
  | case6 brace w ih =>
    rw [faults_opens, ih (depth + 1) hw hg, lost_opens]
  | case7 brace w ih =>
    cases depth with
    | zero => exact hw.elim
    | succ depth =>
      rw [faults_closes_succ, ih depth hw hg, lost_closes]

/-- If a semicolon is lost, there is a report. -/
theorem faults_ne_nil (depth : Nat) (hw : lost w ≠ 0) : faults e depth w ≠ [] := by
  induction w generalizing depth with
  | nil => exact absurd rfl hw
  | cons p w ih =>
    cases p with
    | whole word =>
      rw [faults_whole]
      exact ih depth hw
    | bare word =>
      rw [faults_bare]
      exact List.cons_ne_nil _ _
    | opens brace =>
      rw [faults_opens]
      exact ih (depth + 1) hw
    | closes brace =>
      cases depth with
      | zero =>
        rw [faults_closes_zero]
        exact List.cons_ne_nil _ _
      | succ depth =>
        rw [faults_closes_succ]
        exact ih depth hw

end Faults

/-! ## The parts of a text -/

/-- Does a semicolon come before any print or brace? -/
def comesToSemicolon : List Token → Bool
  | [] => false
  | t :: r =>
    t.kind = .semicolon ||
      (t.kind ∉ [Kind.printWord, .leftBrace, .rightBrace] && comesToSemicolon r)

/-- The parts of a text. -/
def outline : List Token → List Part
  | [] => []
  | t :: r =>
    match t.kind with
    | .printWord => (if comesToSemicolon r then .whole t else .bare t) :: outline r
    | .leftBrace => .opens t :: outline r
    | .rightBrace => .closes t :: outline r
    | _ => outline r

/-- The tokens up to the end are these parts, with an expression in each print. -/
inductive Row (e : Token) : List Part → List Token → Prop
  | nil : Row e [] [e]
  | whole {word ts x close us w} (hword : word.kind = .printWord)
      (inner : Phrase .expression ts x (close :: us)) (hclose : close.kind = .semicolon)
      (rest : Row e w us) : Row e (.whole word :: w) (word :: ts)
  | bare {word ts x us w} (hword : word.kind = .printWord) (inner : Phrase .expression ts x us)
      (rest : Row e w us) : Row e (.bare word :: w) (word :: ts)
  | opens {brace us w} (hbrace : brace.kind = .leftBrace) (rest : Row e w us) :
      Row e (.opens brace :: w) (brace :: us)
  | closes {brace us w} (hbrace : brace.kind = .rightBrace) (rest : Row e w us) :
      Row e (.closes brace :: w) (brace :: us)

variable {e : Token} {tier : Tier} {x : Expr} {ts us rs v : List Token} {w : List Part} {k : Nat}

/-! ## The text of an expression -/

/-- What stands in an expression ends no statement and begins none. -/
theorem inExpression_cases {k : Kind} (h : k.inExpression = true) :
    k ∉ [Kind.semicolon, .printWord, .leftBrace, .rightBrace, .eof, .forWord] ∧
      ¬ k.startsStatement := by
  cases k <;> first | decide | exact absurd h (by decide)

theorem inExpression_of_startsExpression {k : Kind} (h : k.startsExpression = true) :
    k.inExpression = true := by
  simp [Kind.inExpression, h]

theorem inExpression_of_tier? {k : Kind} (h : k.tier? = some tier) : k.inExpression = true := by
  simp [Kind.inExpression, h]

theorem startsExpression_of_value? {t : Token} {a : Value} (h : t.value? = some a) :
    t.kind.startsExpression = true := by
  obtain ⟨u, r, hu, hk⟩ := (Phrase.literal h : Phrase .primary [t] _ []).starts
  obtain ⟨rfl, -⟩ := List.cons.inj hu
  exact hk

/-- An expression has a text of its own, which is the same expression wherever it stands. -/
theorem Phrase.exists_text (h : Phrase tier ts x rs) :
    ∃ v, ts = v ++ rs ∧ (∀ t ∈ v, t.kind.inExpression = true) ∧
      ∀ rs', Phrase tier (v ++ rs') x rs' := by
  induction h with
  | tighter _ ih =>
    obtain ⟨v, hv, hin, hphrase⟩ := ih
    exact ⟨v, hv, hin, fun rs' => .tighter (hphrase rs')⟩
  | @joined tier ts a operator us b rs _ mem _ ih ih' =>
    obtain ⟨v, rfl, hin, hphrase⟩ := ih
    obtain ⟨v', rfl, hin', hphrase'⟩ := ih'
    refine ⟨v ++ operator :: v', by simp, fun t ht => ?_, fun rs' => ?_⟩
    · rcases List.mem_append.1 ht with ht | ht
      · exact hin t ht
      · rcases List.mem_cons.1 ht with rfl | ht
        · exact inExpression_of_tier? (Kind.tier?_of_mem_operators mem)
        · exact hin' t ht
    · rw [List.append_assoc]
      exact .joined (hphrase _) mem (hphrase' rs')
  | @assign name equal ts e rs hname hequal _ ih =>
    obtain ⟨v, rfl, hin, hphrase⟩ := ih
    refine ⟨name :: equal :: v, rfl, ?_, fun rs' => .assign hname hequal (hphrase rs')⟩
    exact List.forall_mem_cons.2 ⟨by rw [hname]; rfl,
      List.forall_mem_cons.2 ⟨by rw [hequal]; rfl, hin⟩⟩
  | @unary operator ts e rs mem _ ih =>
    obtain ⟨v, rfl, hin, hphrase⟩ := ih
    refine ⟨operator :: v, rfl, ?_, fun rs' => .unary mem (hphrase rs')⟩
    have hoperator : operator.kind.inExpression = true := by
      rcases List.mem_cons.1 mem with h | h
      · rw [h]; rfl
      · rw [List.mem_singleton.1 h]; rfl
    exact List.forall_mem_cons.2 ⟨hoperator, hin⟩
  | @literal t a rs hv =>
    have ht := inExpression_of_startsExpression (startsExpression_of_value? hv)
    exact ⟨[t], rfl, by simpa using ht, fun rs' => .literal hv⟩
  | @reference name rs hname =>
    have ht : name.kind.inExpression = true := by rw [hname]; rfl
    exact ⟨[name], rfl, by simpa using ht, fun rs' => .reference hname⟩
  | @grouping l ts e r rs hl hr _ ih =>
    obtain ⟨v, rfl, hin, hphrase⟩ := ih
    refine ⟨l :: v ++ [r], by simp, fun t ht => ?_, fun rs' => ?_⟩
    · rcases List.mem_append.1 ht with ht | ht
      · rcases List.mem_cons.1 ht with rfl | ht
        · rw [hl]; rfl
        · exact hin t ht
      · rw [List.mem_singleton.1 ht, hr]; rfl
    · have htext : l :: v ++ [r] ++ rs' = l :: (v ++ r :: rs') := by simp
      rw [htext]
      exact .grouping hl hr (hphrase _)

/-! ## Rows -/

/-- A row begins with the token that follows, and no expression goes on with it. -/
theorem Row.exists_cons (h : Row e w ts) (he : e.kind = .eof) :
    ∃ r, ts = following e w :: r ∧
      (following e w).kind ∈ [Kind.eof, .printWord, .leftBrace, .rightBrace] := by
  cases h with
  | nil => exact ⟨[], rfl, by simp [following, he]⟩
  | whole hword => exact ⟨_, rfl, by simp [following, Part.token, hword]⟩
  | bare hword => exact ⟨_, rfl, by simp [following, Part.token, hword]⟩
  | opens hbrace => exact ⟨_, rfl, by simp [following, Part.token, hbrace]⟩
  | closes hbrace => exact ⟨_, rfl, by simp [following, Part.token, hbrace]⟩

/-- The end is among the tokens of a row. -/
theorem Row.mem (h : Row e w ts) : e ∈ ts := by
  induction h with
  | nil => exact List.mem_singleton_self e
  | whole _ inner _ _ ih =>
    exact List.mem_cons_of_mem _ (inner.suffix.subset (List.mem_cons_of_mem _ ih))
  | bare _ inner _ ih => exact List.mem_cons_of_mem _ (inner.suffix.subset ih)
  | opens _ _ ih | closes _ _ ih => exact List.mem_cons_of_mem _ ih

theorem comesToSemicolon_append (hv : ∀ t ∈ v, t.kind.inExpression = true) (r : List Token) :
    comesToSemicolon (v ++ r) = comesToSemicolon r := by
  induction v with
  | nil => rfl
  | cons t v ih =>
    obtain ⟨ht, hv⟩ := List.forall_mem_cons.1 hv
    obtain ⟨hk, -⟩ := inExpression_cases ht
    rw [List.cons_append, comesToSemicolon, ih hv]
    simp only [List.mem_cons, List.not_mem_nil, or_false, not_or] at hk ⊢
    simp [hk]

theorem outline_append (hv : ∀ t ∈ v, t.kind.inExpression = true) (r : List Token) :
    outline (v ++ r) = outline r := by
  induction v with
  | nil => rfl
  | cons t v ih =>
    obtain ⟨ht, hv⟩ := List.forall_mem_cons.1 hv
    obtain ⟨hk, -⟩ := inExpression_cases ht
    simp only [List.mem_cons, List.not_mem_nil, or_false, not_or] at hk
    rw [List.cons_append, outline, ih hv]
    split
    next h => exact absurd h hk.2.1
    next h => exact absurd h hk.2.2.1
    next h => exact absurd h hk.2.2.2.1
    next => rfl

/-- No part begins with a semicolon. -/
theorem Row.comesToSemicolon_eq_false (h : Row e w ts) (he : e.kind = .eof) :
    comesToSemicolon ts = false := by
  cases h with
  | nil => simp [comesToSemicolon, he]
  | whole hword | bare hword => simp [comesToSemicolon, hword]
  | opens hbrace | closes hbrace => simp [comesToSemicolon, hbrace]

/-- A row of parts is what its tokens say. -/
theorem Row.outline_eq (h : Row e w ts) (he : e.kind = .eof) : outline ts = w := by
  induction h with
  | nil => simp [outline, he]
  | whole hword inner hclose _ ih =>
    obtain ⟨v, rfl, hv, -⟩ := inner.exists_text
    simp [outline, hword, outline_append hv, comesToSemicolon_append hv, comesToSemicolon, hclose,
      ih]
  | bare hword inner rest ih =>
    obtain ⟨v, rfl, hv, -⟩ := inner.exists_text
    simp [outline, hword, outline_append hv, comesToSemicolon_append hv,
      rest.comesToSemicolon_eq_false he, ih]
  | opens hbrace _ ih => simp [outline, hbrace, ih]
  | closes hbrace _ ih => simp [outline, hbrace, ih]

/-! ## Lost semicolons -/

/-- The tokens without so many of their semicolons. -/
inductive LosesSemicolons : Nat → List Token → List Token → Prop
  | nil : LosesSemicolons 0 [] []
  | keep {k t ts us} (rest : LosesSemicolons k ts us) : LosesSemicolons k (t :: ts) (t :: us)
  | lose {k t ts us} (ht : t.kind = .semicolon) (rest : LosesSemicolons k ts us) :
      LosesSemicolons (k + 1) (t :: ts) us

namespace LosesSemicolons

theorem refl (ts : List Token) : LosesSemicolons 0 ts ts := by
  induction ts with
  | nil => exact .nil
  | cons t ts ih => exact .keep ih

theorem append (h : LosesSemicolons k ts us) (rs : List Token) :
    LosesSemicolons k (ts ++ rs) (us ++ rs) := by
  induction h with
  | nil => exact refl rs
  | keep _ ih => exact .keep ih
  | lose ht _ ih => exact .lose ht ih

/-- What is no semicolon stays. -/
theorem cons_cases {t : Token} (h : LosesSemicolons k (t :: ts) us) (ht : t.kind ≠ .semicolon) :
    ∃ us', us = t :: us' ∧ LosesSemicolons k ts us' := by
  cases h with
  | keep rest => exact ⟨_, rfl, rest⟩
  | lose hk _ => exact absurd hk ht

/-- What stands in an expression stays. -/
theorem append_cases (h : LosesSemicolons k (v ++ rs) us)
    (hv : ∀ t ∈ v, t.kind.inExpression = true) :
    ∃ us', us = v ++ us' ∧ LosesSemicolons k rs us' := by
  induction v generalizing us with
  | nil => exact ⟨us, rfl, h⟩
  | cons t v ih =>
    obtain ⟨ht, hv⟩ := List.forall_mem_cons.1 hv
    have hk : t.kind ≠ .semicolon := fun hk =>
      (inExpression_cases ht).1 (hk ▸ List.mem_cons_self)
    obtain ⟨us₁, rfl, h₁⟩ := h.cons_cases hk
    obtain ⟨us₂, rfl, h₂⟩ := ih h₁ hv
    exact ⟨us₂, rfl, h₂⟩

end LosesSemicolons

/-- Whichever semicolons are lost, these tokens up to those become parts that have lost as many of
them, and leave as many blocks open as there were. -/
def Divides (e : Token) (ts rs : List Token) : Prop :=
  ∀ k us, LosesSemicolons k ts us → ∃ parts k' us', LosesSemicolons k' rs us' ∧
    k = lost parts + k' ∧ (∀ w, Row e w us' → Row e (parts ++ w) us) ∧
    ∀ depth w, Balanced depth w → Balanced depth (parts ++ w)

theorem divides_refl (ts : List Token) : Divides e ts ts :=
  fun k us h => ⟨[], k, us, h, by simp, fun _ hw => hw, fun _ _ hw => hw⟩

theorem Divides.trans (h : Divides e ts us) (h' : Divides e us rs) : Divides e ts rs := by
  intro k vs hl
  obtain ⟨parts, k₁, vs₁, hl₁, rfl, hrow, hbalanced⟩ := h k vs hl
  obtain ⟨parts', k₂, vs₂, hl₂, rfl, hrow', hbalanced'⟩ := h' k₁ vs₁ hl₁
  refine ⟨parts ++ parts', k₂, vs₂, hl₂, ?_, fun w hw => ?_, fun depth w hw => ?_⟩
  · rw [lost_append, Nat.add_assoc]
  · rw [List.append_assoc]
    exact hrow _ (hrow' w hw)
  · rw [List.append_assoc]
    exact hbalanced _ _ (hbalanced' depth w hw)

/-- A print is one part, with its semicolon or without it. -/
theorem divides_print {word close : Token} (hword : word.kind = .printWord)
    (inner : Phrase .expression ts x (close :: rs)) (hclose : close.kind = .semicolon) :
    Divides e (word :: ts) rs := by
  intro k us hl
  obtain ⟨us₁, rfl, hl₁⟩ := hl.cons_cases (by rw [hword]; decide)
  obtain ⟨v, rfl, hv, hphrase⟩ := inner.exists_text
  obtain ⟨us₂, rfl, hl₂⟩ := hl₁.append_cases hv
  cases hl₂ with
  | keep rest =>
    refine ⟨[.whole word], _, _, rest, by simp, fun w hw => ?_, fun _ _ hw => hw⟩
    exact .whole hword (hphrase _) hclose hw
  | lose _ rest =>
    refine ⟨[.bare word], _, _, rest, ?_, fun w hw => .bare hword (hphrase _) hw, fun _ _ hw => hw⟩
    rw [lost_bare, lost_nil, Nat.zero_add, Nat.add_comm]

/-- A block is its braces and what is between them. -/
theorem Divides.block {l r : Token} (hl : l.kind = .leftBrace) (hr : r.kind = .rightBrace)
    (h : Divides e ts (r :: rs)) : Divides e (l :: ts) rs := by
  intro k us hlost
  obtain ⟨us₁, rfl, hlost₁⟩ := hlost.cons_cases (by rw [hl]; decide)
  obtain ⟨parts, k', us₂, hlost₂, rfl, hrow, hbalanced⟩ := h k us₁ hlost₁
  obtain ⟨us₃, rfl, hlost₃⟩ := hlost₂.cons_cases (by rw [hr]; decide)
  have hparts : ∀ w, .opens l :: parts ++ [.closes r] ++ w = .opens l :: (parts ++ .closes r :: w) := by
    simp
  refine ⟨.opens l :: parts ++ [.closes r], k', us₃, hlost₃, ?_, fun w hw => ?_, fun depth w hw => ?_⟩
  · simp [lost_append]
  · rw [hparts]
    exact .opens hl (hrow _ (.closes hr hw))
  · rw [hparts]
    exact hbalanced (depth + 1) (.closes r :: w) hw

theorem not_printsOnly_forLoop {initializer : Option Stmt} {condition increment : Option Expr}
    {body : Stmt} : ¬ (Stmt.forLoop initializer condition increment body).PrintsOnly := by
  intro h
  cases initializer with
  | none => exact h
  | some s => exact h.2.1

mutual

theorem StmtPhrase.divides {dangling : Bool} {ts rs : List Token} {stmt : Stmt}
    (h : StmtPhrase dangling ts stmt rs) : stmt.PrintsOnly → Divides e ts rs := by
  match h with
  | .effect inner =>
    intro hs
    cases inner
    exact hs.elim
  | .print hword inner hclose => exact fun _ => divides_print hword inner hclose
  | .block hl inner hr => exact fun hs => (inner.divides hs).block hl hr
  | .ifThen _ _ _ _ _ => exact False.elim
  | .ifElse _ _ _ _ _ _ _ => exact False.elim
  | .whileLoop _ _ _ _ _ => exact False.elim
  | .forLoop _ _ _ _ _ _ _ _ => exact fun hs => absurd hs not_printsOnly_forLoop

theorem SequencePhrase.divides {ts rs : List Token} {ss : List Stmt}
    (h : SequencePhrase ts ss rs) : Stmt.PrintOnlyAll ss → Divides e ts rs := by
  match h with
  | .nil => exact fun _ => divides_refl _
  | .variable _ first _ =>
    intro hs
    cases first <;> exact hs.1.elim
  | .statement first rest => exact fun hs => (first.divides hs.1).trans (rest.divides hs.2)

end

/-- A program of prints and blocks that has lost some of its semicolons is a row of parts. -/
theorem exists_row {program : List Stmt} (he : e.kind = .eof)
    (h : SequencePhrase (ts ++ [e]) program [e]) (hprogram : Stmt.PrintOnlyAll program)
    (hl : LosesSemicolons k ts us) :
    ∃ w, Row e w (us ++ [e]) ∧ lost w = k ∧ Balanced 0 w := by
  obtain ⟨parts, k', us', hl', rfl, hrow, hbalanced⟩ :=
    h.divides (e := e) hprogram k (us ++ [e]) (hl.append [e])
  obtain ⟨rest, rfl, hrest⟩ := hl'.cons_cases (by rw [he]; decide)
  cases hrest
  have hall := hrow [] .nil
  rw [List.append_nil] at hall
  exact ⟨parts, hall, rfl, by simpa using hbalanced 0 [] rfl⟩

end Grammar

end Lox
