import Lox.Proofs.Grammar.Canonical
import Lox.Proofs.Number.Source
import Lox.Proofs.Number.Text
import Lox.Proofs.Scan.Spacing
import Lox.Proofs.Tree.Sexp

/-!
# The Polish form of a tree tells the tree

The Polish form leaves out the lines of the tokens, and it writes an infinite number like the name
`inf`; `Stmt.shown` is what is left of a statement then.  All else can be read off the text
(`Stmt.polish_eq_iff_of_parse`).  The text is made of words, quotations and nodes, and it tells which
(`Sexp.eq_of_text_eq`).  A node tells its constructor by its head and the number of its parts: the
lexeme of an operator tells its kind, and with it whether it is a logical one.  A word is a value, a
number or a name by how it begins, except for `inf`.
-/

namespace Lox

open Grammar

/-! ## What the Polish form shows -/

/-- The token without its line. -/
def Token.shown (t : Token) : Token := { t with line := 0 }

/-- The name that the number beyond all doubles is written like. -/
def Token.infinity : Token := ⟨.identifier, "inf", .nil, 0⟩

/-- The expression as its Polish form shows it: without lines, and with the name `inf` for a number
that is infinite. -/
def Expr.shown : Expr → Expr
  | literal (.number x) =>
    if Number.parts x = .infinite false then reference .infinity else literal (.number x)
  | literal v => literal v
  | grouping e => grouping e.shown
  | unary operator e => unary operator.shown e.shown
  | binary a operator b => binary a.shown operator.shown b.shown
  | logical a operator b => logical a.shown operator.shown b.shown
  | reference name => reference name.shown
  | assign name e => assign name.shown e.shown
  | misfit node => misfit node

namespace Stmt

mutual

/-- The statement as its Polish form shows it. -/
def shown : Stmt → Stmt
  | expression e => expression e.shown
  | print e => print e.shown
  | declare name initializer => declare name.shown (initializer.map Expr.shown)
  | block body => block (shownAll body)
  | ifThen condition thenBranch => ifThen condition.shown thenBranch.shown
  | ifElse condition thenBranch elseBranch =>
    ifElse condition.shown thenBranch.shown elseBranch.shown
  | loop condition body => loop condition.shown body.shown
  | misfit node => misfit node

/-- The statements as their Polish form shows them. -/
def shownAll : List Stmt → List Stmt
  | [] => []
  | s :: ss => s.shown :: shownAll ss

end

end Stmt

/-! ## Trees with the same Polish form: the parts of the text -/

/-- What the Polish form of a value is made of. -/
def Value.sexp : Value → Sexp
  | string s => .quotation s
  | v => .word v.polish

/-- What the Polish form of an expression is made of. -/
def Expr.sexp : Expr → Sexp
  | literal v => v.sexp
  | grouping e => .node "group" [e.sexp]
  | unary operator e => .node operator.lexeme [e.sexp]
  | binary a operator b => .node operator.lexeme [a.sexp, b.sexp]
  | logical a operator b => .node operator.lexeme [a.sexp, b.sexp]
  | reference name => .word name.lexeme
  | assign name e => .node "=" [.word name.lexeme, e.sexp]
  | misfit node => .word ("<expr " ++ node.kind ++ ">")

theorem Value.text_sexp (v : Value) : v.sexp.text = v.polish := by
  cases v <;> rfl

theorem Expr.text_sexp (e : Expr) : e.sexp.text = e.polish := by
  induction e with
  | literal v => exact v.text_sexp
  | reference | misfit => rfl
  | grouping e ih | unary operator e ih | assign name e ih =>
    simp only [sexp, polish, Sexp.text, Sexp.textAll, ih]
  | binary a operator b iha ihb | logical a operator b iha ihb =>
    simp only [sexp, polish, Sexp.text, Sexp.textAll, iha, ihb]

/-- What the Polish form of an initializer is made of, if there is one. -/
def Expr.initializerSexps : Option Expr → List Sexp
  | none => []
  | some e => [.word "=", e.sexp]

namespace Stmt

mutual

/-- What the Polish form of a statement is made of. -/
def sexp : Stmt → Sexp
  | expression e => .node ";" [e.sexp]
  | print e => .node "print" [e.sexp]
  | declare name initializer =>
    .node "var" (.word name.lexeme :: Expr.initializerSexps initializer)
  | block body => .node "block" (sexpAll body)
  | ifThen condition thenBranch => .node "if" [condition.sexp, thenBranch.sexp]
  | ifElse condition thenBranch elseBranch =>
    .node "if-else" [condition.sexp, thenBranch.sexp, elseBranch.sexp]
  | loop condition body => .node "while" [condition.sexp, body.sexp]
  | misfit node => .word ("<stmt " ++ node.kind ++ ">")

/-- What the Polish forms of statements are made of. -/
def sexpAll : List Stmt → List Sexp
  | [] => []
  | s :: ss => s.sexp :: sexpAll ss

end

mutual

theorem text_sexp (s : Stmt) : s.sexp.text = s.polish := by
  match s with
  | expression e | print e => simp only [sexp, polish, Sexp.text, Sexp.textAll, e.text_sexp]
  | declare name none => rfl
  | declare name (some e) =>
    simp only [sexp, Expr.initializerSexps, polish, Sexp.text, Sexp.textAll, e.text_sexp]
  | block body => rw [sexp, Sexp.text, textAll_sexpAll, polish]
  | ifThen condition thenBranch =>
    simp only [sexp, polish, Sexp.text, Sexp.textAll, condition.text_sexp, text_sexp thenBranch]
  | ifElse condition thenBranch elseBranch =>
    simp only [sexp, polish, Sexp.text, Sexp.textAll, condition.text_sexp, text_sexp thenBranch,
      text_sexp elseBranch]
  | loop condition body =>
    simp only [sexp, polish, Sexp.text, Sexp.textAll, condition.text_sexp, text_sexp body]
  | misfit node => rfl

theorem textAll_sexpAll (ss : List Stmt) : Sexp.textAll (sexpAll ss) = polishAll ss := by
  match ss with
  | [] => rfl
  | s :: ss => rw [sexpAll, Sexp.textAll, text_sexp, textAll_sexpAll, polishAll]

end

end Stmt

/-! ## What the tokens of trees look like -/

variable {t u name operator : Token} {s : String} {x y : Float} {v w : Value} {form form' : Form}

theorem Token.Scanned.exists_rescans (h : t.Scanned) (hk : t.kind ≠ .eof) :
    ∃ form, t.Rescans form := by
  obtain ⟨source, hmem⟩ := h
  rw [scan, tokensFrom_eq] at hmem
  rcases List.mem_append.1 hmem with hmem | hmem
  · exact exists_rescans_of_mem_bodyFrom hmem
  · rw [List.mem_singleton.1 hmem] at hk
    exact absurd rfl hk

namespace Token.Rescans

theorem formed (h : t.Rescans form) : Piece.Formed ⟨form, t.lexeme.toList⟩ := by
  have hformed := Form.formed_of_first? h.alone
  rwa [List.take_length] at hformed

theorem lexed (h : t.Rescans form) : t.Lexed := (h.formed.lexed (h.token t.line)).1

theorem faithful (h : t.Rescans form) : t.Faithful := by
  have htoken := h.token t.line
  rw [← List.take_length (l := t.lexeme.toList)] at htoken
  exact (faithful_of_first? h.alone htoken).1

/-- The lexeme says all but the line. -/
theorem shown_eq (h : t.Rescans form) (h' : u.Rescans form') (heq : t.lexeme = u.lexeme) :
    t.shown = u.shown := by
  have halone := h.alone
  rw [heq, h'.alone] at halone
  obtain ⟨rfl, -⟩ := Prod.mk.inj (Option.some.inj halone)
  have htokens : some t.shown = some u.shown :=
    calc
      some t.shown = (⟨form', t.lexeme.toList⟩ : Piece).token? 0 := (h.token 0).symm
      _ = (⟨form', u.lexeme.toList⟩ : Piece).token? 0 := by rw [heq]
      _ = some u.shown := h'.token 0
  exact Option.some.inj htokens

end Token.Rescans

/-- The operators of expressions and how they are spelled. -/
def operatorSpellings : List (Kind × String) :=
  [(.bang, "!"), (.minus, "-"), (.plus, "+"), (.star, "*"), (.slash, "/"), (.bangEqual, "!="),
   (.equalEqual, "=="), (.greater, ">"), (.greaterEqual, ">="), (.less, "<"), (.lessEqual, "<="),
   (.andWord, "and"), (.orWord, "or")]

/-- A scanned operator of expressions. -/
structure Token.IsOperator (t : Token) : Prop where
  scanned : t.Scanned
  kind : t.kind ∈ operatorSpellings.map Prod.fst

namespace Token.IsOperator

theorem exists_rescans (h : operator.IsOperator) : ∃ form, operator.Rescans form := by
  have hkinds : ∀ k ∈ operatorSpellings.map Prod.fst, k ≠ Kind.eof := by decide
  exact h.scanned.exists_rescans (hkinds _ h.kind)

theorem spelled (h : operator.IsOperator) :
    (operator.kind, operator.lexeme) ∈ operatorSpellings := by
  obtain ⟨form, hr⟩ := h.exists_rescans
  have hformed := hr.formed
  have htoken := hr.token operator.line
  have hkind := h.kind
  cases form with
  | string =>
    obtain hk : Kind.string = operator.kind := congrArg Token.kind (Option.some.inj htoken)
    exact absurd (hk ▸ hkind) (by decide)
  | number =>
    obtain hk : Kind.number = operator.kind := congrArg Token.kind (Option.some.inj htoken)
    exact absurd (hk ▸ hkind) (by decide)
  | word =>
    obtain hk : Kind.ofWord _ = operator.kind := congrArg Token.kind (Option.some.inj htoken)
    have hwords : ∀ p ∈ Kind.reserved, p.2 ∈ operatorSpellings.map Prod.fst →
        (p.2, p.1) ∈ operatorSpellings := by decide
    have hmem := ofWord_mem (String.ofList operator.lexeme.toList)
    rw [hk] at hmem
    rcases List.mem_cons.1 hmem with hid | hmem
    · exact absurd (hid ▸ hkind) (by decide)
    · exact hwords _ ((hr.faithful.reserved _ hmem).1 rfl) hkind
  | symbol kind spelling =>
    obtain rfl : kind = operator.kind := congrArg Token.kind (Option.some.inj htoken)
    obtain ⟨rfl, hmem⟩ : operator.lexeme.toList = spelling ∧ _ := hformed
    have hsymbols : ∀ p ∈ symbols, p.1 ∈ operatorSpellings.map Prod.fst →
        (p.1, String.ofList p.2) ∈ operatorSpellings := by decide
    simpa using hsymbols _ hmem hkind
  | _ => cases htoken

/-- Operators have no mark in them, and are none of the other heads of expressions. -/
theorem lexeme_cases (h : operator.IsOperator) :
    Unmarked operator.lexeme ∧ operator.lexeme ≠ "group" ∧ operator.lexeme ≠ "=" := by
  have hall : ∀ p ∈ operatorSpellings, Unmarked p.2 ∧ p.2 ≠ "group" ∧ p.2 ≠ "=" := by decide
  exact hall _ h.spelled

theorem shown_eq {operator' : Token} (h : operator.IsOperator) (h' : operator'.IsOperator)
    (heq : operator.lexeme = operator'.lexeme) : operator.shown = operator'.shown := by
  obtain ⟨_, hr⟩ := h.exists_rescans
  obtain ⟨_, hr'⟩ := h'.exists_rescans
  exact hr.shown_eq hr' heq

end Token.IsOperator

/-! ## Words -/

/-- A text without marks that begins like a word of the language. -/
def StartsWord (s : String) : Prop :=
  Unmarked s ∧ ∃ c cs, s.toList = c :: cs ∧ Form.startsWord c = true

theorem isMark_eq_false_of_inWord {c : Char} (h : Form.inWord c = true) : isMark c = false := by
  rw [Bool.eq_false_iff]
  intro hc
  simp only [isMark, Bool.or_eq_true, decide_eq_true_eq] at hc
  rcases hc with ((rfl | rfl) | rfl) | rfl <;> exact absurd h (by decide)

theorem isMark_eq_false_of_numeric {c : Char} (h : Number.Numeric c) : isMark c = false := by
  rw [Bool.eq_false_iff]
  intro hc
  simp only [isMark, Bool.or_eq_true, decide_eq_true_eq] at hc
  rcases hc with ((rfl | rfl) | rfl) | rfl <;> exact absurd h (by decide)

theorem startsWord_of_isIdentifier (h : isIdentifier s = true) : StartsWord s := by
  unfold isIdentifier at h
  split at h
  · cases h
  case h_2 c r hs =>
    simp only [Bool.and_eq_true, List.all_eq_true] at h
    refine ⟨?_, c, r, hs, h.1.1⟩
    rw [Unmarked, hs, List.forall_mem_cons]
    exact ⟨isMark_eq_false_of_inWord (by simp [Form.inWord, h.1.1]),
      fun d hd => isMark_eq_false_of_inWord (h.1.2 d hd)⟩

theorem StartsWord.legible (h : StartsWord s) : (Sexp.word s).Legible := by
  obtain ⟨hmarks, c, cs, hs, -⟩ := h
  refine ⟨?_, hmarks⟩
  rintro rfl
  cases hs

theorem legible_text_polish (hx : Number.parts x ≠ .nan) :
    (Sexp.word (Number.Layout.polish.text x)).Legible := by
  have hinfinity : ∀ c ∈ ['i', 'n', 'f'], isMark c = false := by simp [isMark]
  refine ⟨fun hempty => ?_, fun c hc => ?_⟩
  · rcases Number.text_polish_cases hx with ⟨-, htext⟩ | ⟨c, cs, htext, -⟩ <;> simp [hempty] at htext
  · rcases Number.numeric_or_of_mem_text_polish hx c hc with hc | hc
    · exact isMark_eq_false_of_numeric hc
    · exact hinfinity c hc

/-- The text of a number is no word of the language, except for `inf`. -/
theorem eq_infinity_of_startsWord (hx : Number.parts x ≠ .nan)
    (h : StartsWord (Number.Layout.polish.text x)) :
    Number.parts x = .infinite false ∧ Number.Layout.polish.text x = "inf" := by
  rcases Number.text_polish_cases hx with hinfinity | ⟨c, cs, htext, hc⟩
  · exact hinfinity
  · obtain ⟨-, d, ds, hs, hd⟩ := h
    obtain ⟨rfl, -⟩ := List.cons.inj (htext.symm.trans hs)
    rcases hc with rfl | hc
    · exact absurd hd (by decide)
    · rw [startsWord_eq_false_of_isDigit hc] at hd
      cases hd

namespace Expr

theorem CanonicalName.exists_rescans (h : CanonicalName name) : ∃ form, name.Rescans form :=
  h.1.exists_rescans (by rw [h.2]; decide)

theorem CanonicalName.isIdentifier (h : CanonicalName name) : isIdentifier name.lexeme = true := by
  obtain ⟨form, hr⟩ := h.exists_rescans
  exact hr.lexed.identifier.1 h.2

theorem CanonicalName.legible (h : CanonicalName name) : (Sexp.word name.lexeme).Legible :=
  (startsWord_of_isIdentifier h.isIdentifier).legible

theorem CanonicalName.shown_eq {name' : Token} (h : CanonicalName name) (h' : CanonicalName name')
    (heq : name.lexeme = name'.lexeme) : name.shown = name'.shown := by
  obtain ⟨_, hr⟩ := h.exists_rescans
  obtain ⟨_, hr'⟩ := h'.exists_rescans
  exact hr.shown_eq hr' heq

/-- The values that have a word of their own. -/
def wordValues : List Value := [.nil, .bool true, .bool false]

theorem sexp_of_mem_wordValues (h : v ∈ wordValues) : v.sexp = .word v.polish := by
  have hall : ∀ v ∈ wordValues, v.sexp = .word v.polish := by
    simp [wordValues, Value.sexp]
  exact hall v h

theorem polish_of_mem_wordValues (h : v ∈ wordValues) :
    StartsWord v.polish ∧ isIdentifier v.polish = false ∧ v.polish ≠ "inf" := by
  simp only [wordValues, List.mem_cons, List.not_mem_nil, or_false] at h
  rcases h with rfl | rfl | rfl
  all_goals exact ⟨⟨by decide, _, _, rfl, by decide⟩, by decide, by decide⟩

/-- A value with a word of its own, a number, or a string without a quote inside. -/
theorem CanonicalValue.cases (h : CanonicalValue v) :
    v ∈ wordValues ∨ (∃ x, v = .number x ∧ Number.parts x ≠ .nan) ∨
      ∃ s, v = .string s ∧ '"' ∉ s.toList := by
  rcases h with rfl | ⟨b, rfl⟩ | ⟨t, ht, hk, rfl⟩
  · exact .inl (by simp [wordValues])
  · exact .inl (by cases b <;> simp [wordValues])
  · obtain ⟨form, hr⟩ := ht.exists_rescans (by rcases hk with hk | hk <;> rw [hk] <;> decide)
    rcases hk with hk | hk
    · refine .inr (.inl ⟨Number.ofSource t.lexeme.toList, ?_, Number.parts_ofSource_ne_nan _⟩)
      rw [hr.lexed.literal, hk]
      rfl
    · obtain ⟨body, hbody, -, hliteral⟩ := hr.faithful.string hk
      exact .inr (.inr ⟨_, hliteral, by rwa [String.toList_ofList]⟩)

theorem CanonicalValue.legible (h : CanonicalValue v) : v.sexp.Legible := by
  rcases h.cases with hv | ⟨x, rfl, hx⟩ | ⟨s, rfl, hs⟩
  · rw [sexp_of_mem_wordValues hv]
    exact (polish_of_mem_wordValues hv).1.legible
  · exact legible_text_polish hx
  · exact hs

theorem CanonicalValue.isSome_text? (h : CanonicalValue v) : v.text?.isSome = true := by
  rcases h.cases with hv | ⟨x, rfl, -⟩ | ⟨s, rfl, -⟩
  · have hall : ∀ v ∈ wordValues, v.text?.isSome = true := by decide
    exact hall v hv
  · rfl
  · rfl

theorem text_polish_ne_of_mem_wordValues (hx : Number.parts x ≠ .nan) (hv : v ∈ wordValues) :
    Number.Layout.polish.text x ≠ v.polish := by
  obtain ⟨hword, -, hinfinity⟩ := polish_of_mem_wordValues hv
  intro heq
  rw [← heq] at hword hinfinity
  exact hinfinity (eq_infinity_of_startsWord hx hword).2

theorem CanonicalValue.eq_of_sexp_eq (hv : CanonicalValue v) (hw : CanonicalValue w)
    (h : v.sexp = w.sexp) : v = w := by
  rcases hv.cases with hv | ⟨x, rfl, hx⟩ | ⟨s, rfl, -⟩ <;>
    rcases hw.cases with hw | ⟨y, rfl, hy⟩ | ⟨s', rfl, -⟩
  · have hall : ∀ v ∈ wordValues, ∀ w ∈ wordValues, v.polish = w.polish → v = w := by decide
    rw [sexp_of_mem_wordValues hv, sexp_of_mem_wordValues hw] at h
    exact hall v hv w hw (Sexp.word.inj h)
  · rw [sexp_of_mem_wordValues hv] at h
    exact absurd (Sexp.word.inj h).symm (text_polish_ne_of_mem_wordValues hy hv)
  · rw [sexp_of_mem_wordValues hv] at h
    cases h
  · rw [sexp_of_mem_wordValues hw] at h
    exact absurd (Sexp.word.inj h) (text_polish_ne_of_mem_wordValues hx hw)
  · rw [Number.eq_of_parts_eq hx
      (Number.parts_eq_of_text_eq Number.Layout.tells_polish (Sexp.word.inj h))]
  · cases h
  · rw [sexp_of_mem_wordValues hw] at h
    cases h
  · cases h
  · rw [Sexp.quotation.inj h]

/-- A literal that is written like a name is infinite. -/
theorem CanonicalValue.shown_eq_of_sexp_eq (hv : CanonicalValue v) (hname : CanonicalName name)
    (h : v.sexp = .word name.lexeme) : (literal v).shown = (reference name).shown := by
  rcases hv.cases with hv | ⟨x, rfl, hx⟩ | ⟨s, rfl, -⟩
  · rw [sexp_of_mem_wordValues hv] at h
    have hno := (polish_of_mem_wordValues hv).2.1
    rw [Sexp.word.inj h, hname.isIdentifier] at hno
    cases hno
  · obtain htext : Number.Layout.polish.text x = name.lexeme := Sexp.word.inj h
    have hword := startsWord_of_isIdentifier hname.isIdentifier
    rw [← htext] at hword
    obtain ⟨hparts, hinfinity⟩ := eq_infinity_of_startsWord hx hword
    have hliteral : name.literal = .nil := by
      obtain ⟨_, hr⟩ := hname.exists_rescans
      rw [hr.lexed.literal, hname.2]
      rfl
    have hshown : name.shown = .infinity := by
      rw [Token.shown, hname.2, ← htext, hinfinity, hliteral]
      rfl
    rw [shown, if_pos hparts, shown, hshown]
  · cases h

end Expr

/-! ## Expressions -/

namespace Expr

variable {e f a b : Expr}

theorem Canonical.of_unary (h : (unary operator e).Canonical) :
    operator.IsOperator ∧ e.Canonical := by
  obtain ⟨⟨hs, hk⟩, -, he⟩ := h
  have hall : ∀ k ∈ [Kind.bang, .minus], k ∈ operatorSpellings.map Prod.fst := by decide
  exact ⟨⟨hs, hall _ hk⟩, he⟩

theorem Canonical.of_binary (h : (binary a operator b).Canonical) :
    operator.IsOperator ∧ operator.kind ∉ [Kind.andWord, .orWord] ∧ a.Canonical ∧ b.Canonical := by
  obtain ⟨hs, tier, htier, hk, ⟨-, ha⟩, -, hb⟩ := h
  have hall : ∀ tier ∈ [Tier.equality, .comparison, .term, .factor], ∀ k ∈ tier.operators,
      k ∈ operatorSpellings.map Prod.fst ∧ k ∉ [Kind.andWord, .orWord] := by decide
  obtain ⟨hoperator, hno⟩ := hall tier htier _ hk
  exact ⟨⟨hs, hoperator⟩, hno, ha, hb⟩

theorem Canonical.of_logical (h : (logical a operator b).Canonical) :
    operator.IsOperator ∧ operator.kind ∈ [Kind.andWord, .orWord] ∧ a.Canonical ∧ b.Canonical := by
  obtain ⟨hs, tier, htier, hk, ⟨-, ha⟩, -, hb⟩ := h
  have hall : ∀ tier ∈ [Tier.or, .and], ∀ k ∈ tier.operators,
      k ∈ operatorSpellings.map Prod.fst ∧ k ∈ [Kind.andWord, .orWord] := by decide
  obtain ⟨hoperator, hyes⟩ := hall tier htier _ hk
  exact ⟨⟨hs, hoperator⟩, hyes, ha, hb⟩

theorem Canonical.legible (h : e.Canonical) : e.sexp.Legible := by
  induction e with
  | literal v => exact CanonicalValue.legible h
  | grouping e ih => exact ⟨by decide, ih h, trivial⟩
  | unary operator e ih =>
    obtain ⟨ho, he⟩ := h.of_unary
    exact ⟨ho.lexeme_cases.1, ih he, trivial⟩
  | binary a operator b iha ihb =>
    obtain ⟨ho, -, ha, hb⟩ := h.of_binary
    exact ⟨ho.lexeme_cases.1, iha ha, ihb hb, trivial⟩
  | logical a operator b iha ihb =>
    obtain ⟨ho, -, ha, hb⟩ := h.of_logical
    exact ⟨ho.lexeme_cases.1, iha ha, ihb hb, trivial⟩
  | reference name => exact CanonicalName.legible h
  | assign name e ih => exact ⟨by decide, h.1.legible, ih h.2, trivial⟩
  | misfit node => exact h.elim

/-- No integer stands in a canonical expression. -/
theorem Canonical.isShort (h : e.Canonical) : e.isShort = true := by
  induction e with
  | literal v => exact CanonicalValue.isSome_text? h
  | grouping e ih => exact ih h
  | unary operator e ih => exact ih h.of_unary.2
  | binary a operator b iha ihb =>
    obtain ⟨-, -, ha, hb⟩ := h.of_binary
    simp [Expr.isShort, iha ha, ihb hb]
  | logical a operator b iha ihb =>
    obtain ⟨-, -, ha, hb⟩ := h.of_logical
    simp [Expr.isShort, iha ha, ihb hb]
  | reference | misfit => rfl
  | assign name e ih => exact ih h.2

/-! An operator with two operands is a logical one, or it is not, whatever it is written like. -/

theorem lexeme_ne_of_kinds {o o' : Token} {kinds : List Kind} (ho : o.IsOperator)
    (ho' : o'.IsOperator) (hk : o.kind ∉ kinds) (hk' : o'.kind ∈ kinds) : o.lexeme ≠ o'.lexeme := by
  intro heq
  have hkind : o.kind = o'.kind := (Token.mk.inj (ho.shown_eq ho' heq)).1
  exact hk (hkind ▸ hk')

/-- Canonical expressions that are made of the same parts show the same. -/
theorem shown_eq_of_sexp_eq (he : e.Canonical) (hf : f.Canonical) (h : e.sexp = f.sexp) :
    e.shown = f.shown := by
  induction e generalizing f with
  | literal v =>
    cases f with
    | literal w => rw [CanonicalValue.eq_of_sexp_eq he hf h]
    | reference name => exact CanonicalValue.shown_eq_of_sexp_eq he hf h
    | misfit => exact hf.elim
    | _ => cases v <;> cases h
  | reference name =>
    cases f with
    | literal w => exact (CanonicalValue.shown_eq_of_sexp_eq hf he h.symm).symm
    | reference name' => rw [shown, shown, CanonicalName.shown_eq he hf (Sexp.word.inj h)]
    | misfit => exact hf.elim
    | _ => cases h
  | grouping e ih =>
    cases f with
    | literal w => cases w <;> cases h
    | grouping f =>
      have hf : f.Canonical := hf
      obtain ⟨-, hparts⟩ := Sexp.node.inj h
      rw [shown, shown, ih he hf (List.cons.inj hparts).1]
    | unary operator f => exact absurd (Sexp.node.inj h).1.symm hf.of_unary.1.lexeme_cases.2.1
    | _ => simp [sexp] at h
  | unary operator e ih =>
    obtain ⟨ho, he⟩ := he.of_unary
    cases f with
    | literal w => cases w <;> cases h
    | grouping f => exact absurd (Sexp.node.inj h).1 ho.lexeme_cases.2.1
    | unary operator' f =>
      obtain ⟨ho', hf⟩ := hf.of_unary
      obtain ⟨hlexeme, hparts⟩ := Sexp.node.inj h
      rw [shown, shown, ho.shown_eq ho' hlexeme, ih he hf (List.cons.inj hparts).1]
    | _ => simp [sexp] at h
  | binary a operator b iha ihb =>
    obtain ⟨ho, hk, ha, hb⟩ := he.of_binary
    cases f with
    | literal w => cases w <;> cases h
    | binary a' operator' b' =>
      obtain ⟨ho', -, ha', hb'⟩ := hf.of_binary
      obtain ⟨hlexeme, hparts⟩ := Sexp.node.inj h
      obtain ⟨hleft, hparts⟩ := List.cons.inj hparts
      rw [shown, shown, iha ha ha' hleft, ho.shown_eq ho' hlexeme,
        ihb hb hb' (List.cons.inj hparts).1]
    | logical a' operator' b' =>
      obtain ⟨ho', hk', -, -⟩ := hf.of_logical
      exact absurd (Sexp.node.inj h).1 (lexeme_ne_of_kinds ho ho' hk hk')
    | assign name f => exact absurd (Sexp.node.inj h).1 ho.lexeme_cases.2.2
    | _ => simp [sexp] at h
  | logical a operator b iha ihb =>
    obtain ⟨ho, hk, ha, hb⟩ := he.of_logical
    cases f with
    | literal w => cases w <;> cases h
    | binary a' operator' b' =>
      obtain ⟨ho', hk', -, -⟩ := hf.of_binary
      exact absurd (Sexp.node.inj h).1.symm (lexeme_ne_of_kinds ho' ho hk' hk)
    | logical a' operator' b' =>
      obtain ⟨ho', -, ha', hb'⟩ := hf.of_logical
      obtain ⟨hlexeme, hparts⟩ := Sexp.node.inj h
      obtain ⟨hleft, hparts⟩ := List.cons.inj hparts
      rw [shown, shown, iha ha ha' hleft, ho.shown_eq ho' hlexeme,
        ihb hb hb' (List.cons.inj hparts).1]
    | assign name f => exact absurd (Sexp.node.inj h).1 ho.lexeme_cases.2.2
    | _ => simp [sexp] at h
  | assign name e ih =>
    cases f with
    | literal w => cases w <;> cases h
    | binary a' operator' b' =>
      exact absurd (Sexp.node.inj h).1.symm hf.of_binary.1.lexeme_cases.2.2
    | logical a' operator' b' =>
      exact absurd (Sexp.node.inj h).1.symm hf.of_logical.1.lexeme_cases.2.2
    | assign name' f =>
      obtain ⟨-, hparts⟩ := Sexp.node.inj h
      obtain ⟨hname, hparts⟩ := List.cons.inj hparts
      rw [shown, shown, he.1.shown_eq hf.1 (Sexp.word.inj hname),
        ih he.2 hf.2 (List.cons.inj hparts).1]
    | _ => simp [sexp] at h
  | misfit node => exact he.elim

theorem map_shown_eq_of_sexps_eq {i j : Option Expr} (hi : ∀ e ∈ i, e.Canonical)
    (hj : ∀ e ∈ j, e.Canonical) (h : initializerSexps i = initializerSexps j) :
    i.map shown = j.map shown := by
  match i, j with
  | none, none => rfl
  | none, some f | some e, none => cases h
  | some e, some f =>
    obtain ⟨-, hparts⟩ := List.cons.inj h
    rw [Option.map_some, Option.map_some,
      shown_eq_of_sexp_eq (hi e rfl) (hj f rfl) (List.cons.inj hparts).1]

end Expr

/-! ## Statements -/

namespace Stmt

/-- A statement of a program: a variable, or another canonical statement. -/
def Declared (s : Stmt) : Prop := s.CanonicalVariable ∨ s.Canonical

theorem declared_declare_iff {name : Token} {initializer : Option Expr} :
    (declare name initializer).Declared ↔
      Expr.CanonicalName name ∧ ∀ e ∈ initializer, e.Canonical := by
  constructor
  · rintro (⟨_, _, heq, hname, hinitializer⟩ | h)
    · cases heq
      exact ⟨hname, hinitializer⟩
    · exact h.elim
  · exact fun h => .inl ⟨_, _, rfl, h⟩

/-- Only a variable is no canonical statement. -/
theorem Declared.canonical {s : Stmt} (h : s.Declared) (hno : ∀ name i, s ≠ declare name i) :
    s.Canonical := by
  rcases h with ⟨name, i, rfl, -⟩ | h
  · exact absurd rfl (hno name i)
  · exact h

mutual

theorem Declared.legible {s : Stmt} (h : s.Declared) : s.sexp.Legible := by
  match s with
  | expression e | print e =>
    have he : e.Canonical := h.canonical (by simp)
    exact ⟨by decide, he.legible, trivial⟩
  | declare name none =>
    obtain ⟨hname, -⟩ := declared_declare_iff.1 h
    exact ⟨by decide, hname.legible, trivial⟩
  | declare name (some e) =>
    obtain ⟨hname, he⟩ := declared_declare_iff.1 h
    exact ⟨by decide, hname.legible, ⟨by decide, by decide⟩, (he e rfl).legible, trivial⟩
  | block body =>
    have hbody : CanonicalAll body := h.canonical (by simp)
    exact ⟨by decide, legibleAll_of_canonicalAll hbody⟩
  | ifThen condition thenBranch =>
    obtain ⟨hcondition, hthen⟩ := h.canonical (by simp)
    exact ⟨by decide, hcondition.legible, Declared.legible (.inr hthen), trivial⟩
  | ifElse condition thenBranch elseBranch =>
    obtain ⟨hcondition, ⟨hthen, -⟩, helse⟩ := h.canonical (by simp)
    exact ⟨by decide, hcondition.legible, Declared.legible (.inr hthen),
      Declared.legible (.inr helse), trivial⟩
  | loop condition body =>
    obtain ⟨hcondition, hbody⟩ := h.canonical (by simp)
    exact ⟨by decide, hcondition.legible, Declared.legible (.inr hbody), trivial⟩
  | misfit node => exact (h.canonical (by simp)).elim

theorem legibleAll_of_canonicalAll {ss : List Stmt} (h : CanonicalAll ss) :
    Sexp.LegibleAll (sexpAll ss) := by
  match ss with
  | [] => exact trivial
  | s :: ss => exact ⟨Declared.legible h.1, legibleAll_of_canonicalAll h.2⟩

end

mutual

theorem Declared.isShort {s : Stmt} (h : s.Declared) : s.isShort = true := by
  match s with
  | expression e | print e =>
    have he : e.Canonical := h.canonical (by simp)
    exact he.isShort
  | declare name none => rfl
  | declare name (some e) => exact ((declared_declare_iff.1 h).2 e rfl).isShort
  | block body =>
    have hbody : CanonicalAll body := h.canonical (by simp)
    exact areShort_of_canonicalAll hbody
  | ifThen condition thenBranch =>
    obtain ⟨hcondition, hthen⟩ := h.canonical (by simp)
    simp [Stmt.isShort, hcondition.isShort, Declared.isShort (.inr hthen)]
  | ifElse condition thenBranch elseBranch =>
    obtain ⟨hcondition, ⟨hthen, -⟩, helse⟩ := h.canonical (by simp)
    simp [Stmt.isShort, hcondition.isShort, Declared.isShort (.inr hthen),
      Declared.isShort (.inr helse)]
  | loop condition body =>
    obtain ⟨hcondition, hbody⟩ := h.canonical (by simp)
    simp [Stmt.isShort, hcondition.isShort, Declared.isShort (.inr hbody)]
  | misfit node => rfl

theorem areShort_of_canonicalAll {ss : List Stmt} (h : CanonicalAll ss) : areShort ss = true := by
  match ss with
  | [] => rfl
  | s :: ss => simp [areShort, Declared.isShort h.1, areShort_of_canonicalAll h.2]

end

mutual

/-- Statements of programs that are made of the same parts show the same. -/
theorem shown_eq_of_sexp_eq {s t : Stmt} (hs : s.Declared) (ht : t.Declared)
    (h : s.sexp = t.sexp) : s.shown = t.shown := by
  match s with
  | expression e =>
    cases t with
    | expression f =>
      have he : e.Canonical := hs.canonical (by simp)
      have hf : f.Canonical := ht.canonical (by simp)
      obtain ⟨-, hparts⟩ := Sexp.node.inj h
      rw [shown, shown, Expr.shown_eq_of_sexp_eq he hf (List.cons.inj hparts).1]
    | _ => simp [sexp] at h
  | print e =>
    cases t with
    | print f =>
      have he : e.Canonical := hs.canonical (by simp)
      have hf : f.Canonical := ht.canonical (by simp)
      obtain ⟨-, hparts⟩ := Sexp.node.inj h
      rw [shown, shown, Expr.shown_eq_of_sexp_eq he hf (List.cons.inj hparts).1]
    | _ => simp [sexp] at h
  | declare name i =>
    cases t with
    | declare name' j =>
      obtain ⟨hname, hi⟩ := declared_declare_iff.1 hs
      obtain ⟨hname', hj⟩ := declared_declare_iff.1 ht
      obtain ⟨-, hparts⟩ := Sexp.node.inj h
      obtain ⟨hlexeme, hparts⟩ := List.cons.inj hparts
      rw [shown, shown, hname.shown_eq hname' (Sexp.word.inj hlexeme),
        Expr.map_shown_eq_of_sexps_eq hi hj hparts]
    | _ => simp [sexp] at h
  | block body =>
    cases t with
    | block body' =>
      have hbody : CanonicalAll body := hs.canonical (by simp)
      have hbody' : CanonicalAll body' := ht.canonical (by simp)
      obtain ⟨-, hparts⟩ := Sexp.node.inj h
      rw [shown, shown, shownAll_eq_of_sexpAll_eq hbody hbody' hparts]
    | _ => simp [sexp] at h
  | ifThen condition thenBranch =>
    cases t with
    | ifThen condition' thenBranch' =>
      obtain ⟨hc, hthen⟩ := hs.canonical (by simp)
      obtain ⟨hc', hthen'⟩ := ht.canonical (by simp)
      obtain ⟨-, hparts⟩ := Sexp.node.inj h
      obtain ⟨hcondition, hparts⟩ := List.cons.inj hparts
      rw [shown, shown, Expr.shown_eq_of_sexp_eq hc hc' hcondition,
        shown_eq_of_sexp_eq (.inr hthen) (.inr hthen') (List.cons.inj hparts).1]
    | _ => simp [sexp] at h
  | ifElse condition thenBranch elseBranch =>
    cases t with
    | ifElse condition' thenBranch' elseBranch' =>
      obtain ⟨hc, ⟨hthen, -⟩, helse⟩ := hs.canonical (by simp)
      obtain ⟨hc', ⟨hthen', -⟩, helse'⟩ := ht.canonical (by simp)
      obtain ⟨-, hparts⟩ := Sexp.node.inj h
      obtain ⟨hcondition, hparts⟩ := List.cons.inj hparts
      obtain ⟨hbranch, hparts⟩ := List.cons.inj hparts
      rw [shown, shown, Expr.shown_eq_of_sexp_eq hc hc' hcondition,
        shown_eq_of_sexp_eq (.inr hthen) (.inr hthen') hbranch,
        shown_eq_of_sexp_eq (.inr helse) (.inr helse') (List.cons.inj hparts).1]
    | _ => simp [sexp] at h
  | loop condition body =>
    cases t with
    | loop condition' body' =>
      obtain ⟨hc, hbody⟩ := hs.canonical (by simp)
      obtain ⟨hc', hbody'⟩ := ht.canonical (by simp)
      obtain ⟨-, hparts⟩ := Sexp.node.inj h
      obtain ⟨hcondition, hparts⟩ := List.cons.inj hparts
      rw [shown, shown, Expr.shown_eq_of_sexp_eq hc hc' hcondition,
        shown_eq_of_sexp_eq (.inr hbody) (.inr hbody') (List.cons.inj hparts).1]
    | _ => simp [sexp] at h
  | misfit node => exact (hs.canonical (by simp)).elim

theorem shownAll_eq_of_sexpAll_eq {ss ts : List Stmt} (hs : CanonicalAll ss)
    (ht : CanonicalAll ts) (h : sexpAll ss = sexpAll ts) : shownAll ss = shownAll ts := by
  match ss, ts with
  | [], [] => rfl
  | [], t :: ts => cases h
  | s :: ss, [] => cases h
  | s :: ss, t :: ts =>
    obtain ⟨hfirst, hrest⟩ := List.cons.inj h
    rw [shownAll, shownAll, shown_eq_of_sexp_eq hs.1 ht.1 hfirst,
      shownAll_eq_of_sexpAll_eq hs.2 ht.2 hrest]

end

/-! ## What is shown has the same Polish form -/

end Stmt

@[simp] theorem Token.lexeme_shown (t : Token) : t.shown.lexeme = t.lexeme := rfl

/-- An infinite number is written like the name that is shown for it. -/
theorem text_polish_of_infinite (hx : Number.parts x = .infinite false) :
    Number.Layout.polish.text x = Token.infinity.lexeme := by
  rw [Number.Layout.text, hx]
  rfl

theorem Expr.polish_shown (e : Expr) : e.shown.polish = e.polish := by
  induction e with
  | literal v =>
    cases v with
    | number x =>
      rw [shown]
      split
      case isTrue hx => exact (text_polish_of_infinite hx).symm
      case isFalse => rfl
    | _ => rfl
  | reference | misfit => rfl
  | grouping e ih | unary operator e ih | assign name e ih => simp [shown, polish, ih]
  | binary a operator b iha ihb | logical a operator b iha ihb => simp [shown, polish, iha, ihb]

theorem Expr.height_shown (e : Expr) : e.shown.height = e.height := by
  induction e with
  | literal v =>
    cases v with
    | number x =>
      rw [shown]
      split <;> rfl
    | _ => rfl
  | reference | misfit => rfl
  | grouping e ih | unary operator e ih | assign name e ih => simp [shown, height, ih]
  | binary a operator b iha ihb | logical a operator b iha ihb => simp [shown, height, iha, ihb]

namespace Stmt

mutual

theorem polish_shown (s : Stmt) : s.shown.polish = s.polish := by
  match s with
  | expression e | print e => simp [shown, polish, e.polish_shown]
  | declare name none => rfl
  | declare name (some e) => simp [shown, polish, e.polish_shown]
  | block body => simp [shown, polish, polishAll_shownAll body]
  | ifThen condition thenBranch =>
    simp [shown, polish, condition.polish_shown, polish_shown thenBranch]
  | ifElse condition thenBranch elseBranch =>
    simp [shown, polish, condition.polish_shown, polish_shown thenBranch, polish_shown elseBranch]
  | loop condition body => simp [shown, polish, condition.polish_shown, polish_shown body]
  | misfit node => rfl

theorem polishAll_shownAll (ss : List Stmt) : polishAll (shownAll ss) = polishAll ss := by
  match ss with
  | [] => rfl
  | s :: ss => rw [shownAll, polishAll, polishAll, polish_shown s, polishAll_shownAll ss]

end

mutual

theorem height_shown (s : Stmt) : s.shown.height = s.height := by
  match s with
  | expression e | print e => simp [shown, height, e.height_shown]
  | declare name none => rfl
  | declare name (some e) => simp [shown, height, e.height_shown]
  | block body => simp [shown, height, heightAll_shownAll body]
  | ifThen condition thenBranch =>
    simp [shown, height, condition.height_shown, height_shown thenBranch]
  | ifElse condition thenBranch elseBranch =>
    simp [shown, height, condition.height_shown, height_shown thenBranch, height_shown elseBranch]
  | loop condition body => simp [shown, height, condition.height_shown, height_shown body]
  | misfit node => rfl

theorem heightAll_shownAll (ss : List Stmt) : heightAll (shownAll ss) = heightAll ss := by
  match ss with
  | [] => rfl
  | s :: ss => rw [shownAll, heightAll, heightAll, height_shown s, heightAll_shownAll ss]

end

mutual

/-- The statement and all statements inside it. -/
def within : Stmt → List Stmt
  | block body => block body :: withinAll body
  | ifThen condition thenBranch => ifThen condition thenBranch :: thenBranch.within
  | ifElse condition thenBranch elseBranch =>
    ifElse condition thenBranch elseBranch :: (thenBranch.within ++ elseBranch.within)
  | loop condition body => loop condition body :: body.within
  | s => [s]

/-- The statements and all statements inside them. -/
def withinAll : List Stmt → List Stmt
  | [] => []
  | s :: ss => s.within ++ withinAll ss

end

mutual

theorem Declared.of_mem_within {s t : Stmt} (h : s.Declared) (ht : t ∈ s.within) :
    t.Declared := by
  match s with
  | expression _ | print _ | declare _ _ | misfit _ =>
    simp only [within, List.mem_singleton] at ht
    exact ht ▸ h
  | block body =>
    have hbody : CanonicalAll body := h.canonical (by simp)
    rcases List.mem_cons.1 ht with rfl | ht
    · exact h
    · exact declared_of_mem_withinAll hbody ht
  | ifThen condition thenBranch =>
    obtain ⟨-, hthen⟩ := h.canonical (by simp)
    rcases List.mem_cons.1 ht with rfl | ht
    · exact h
    · exact Declared.of_mem_within (.inr hthen) ht
  | ifElse condition thenBranch elseBranch =>
    obtain ⟨-, ⟨hthen, -⟩, helse⟩ := h.canonical (by simp)
    rcases List.mem_cons.1 ht with rfl | ht
    · exact h
    · rcases List.mem_append.1 ht with ht | ht
      · exact Declared.of_mem_within (.inr hthen) ht
      · exact Declared.of_mem_within (.inr helse) ht
  | loop condition body =>
    obtain ⟨-, hbody⟩ := h.canonical (by simp)
    rcases List.mem_cons.1 ht with rfl | ht
    · exact h
    · exact Declared.of_mem_within (.inr hbody) ht

theorem declared_of_mem_withinAll {ss : List Stmt} {t : Stmt} (h : CanonicalAll ss)
    (ht : t ∈ withinAll ss) : t.Declared := by
  match ss with
  | [] => exact absurd ht List.not_mem_nil
  | s :: ss =>
    rcases List.mem_append.1 ht with ht | ht
    · exact Declared.of_mem_within h.1 ht
    · exact declared_of_mem_withinAll h.2 ht

end

end Stmt

/-- A number beyond all doubles is written like a name. -/
example : (Stmt.print (.literal (.number (1 / 0)))).polish =
    (Stmt.print (.reference ⟨.identifier, "inf", .nil, 3⟩)).polish := by decide +kernel

end Lox
