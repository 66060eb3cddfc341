import Lox.Token.Scan

/-!
# What the text of a token says

The text of a piece is as its form asks (`formed_of_mem_pieces`).  So the text of a scanned token
says whether it is an identifier, and together with the kind it says the value
(`lexed_of_mem_tokensFrom`).
-/

namespace Lox

/-! ## Texts of pieces -/

/-- The text is as the form asks. -/
def Piece.Formed (p : Piece) : Prop :=
  match p.form with
  | .string => ∃ r, p.text = '"' :: r
  | .number => ∃ c r, p.text = c :: r ∧ Number.isDigit c = true
  | .word => ∃ c r, p.text = c :: r ∧ Form.startsWord c = true ∧ r.all Form.inWord = true
  | .symbol kind spelling => p.text = spelling ∧ (kind, spelling) ∈ symbols
  | _ => True

namespace Form

variable {c : Char} {cs r : List Char}

theorem take_cons_of_ne_zero {n : Nat} (hn : n ≠ 0) : ∃ s, (c :: r).take n = c :: s := by
  obtain ⟨k, rfl⟩ := Nat.exists_eq_succ_of_ne_zero hn
  exact ⟨r.take k, rfl⟩

theorem isDigit_of_numberLength (h : numberLength (c :: r) ≠ 0) : Number.isDigit c = true := by
  refine Classical.byContradiction fun hc => h ?_
  have hrun : run Number.isDigit (c :: r) = 0 := by simp [run, hc]
  unfold numberLength
  simp only [hrun]
  split
  · rfl
  · rfl

/-- The longest text of a form is as the form asks. -/
theorem formed_take {f : Form} (hf : f ∈ all) (h : f.longest cs ≠ 0) :
    Piece.Formed ⟨f, cs.take (f.longest cs)⟩ := by
  cases f with
  | string =>
    cases cs with
    | nil => exact absurd rfl h
    | cons c r =>
      by_cases hc : c = '"'
      · subst hc
        exact take_cons_of_ne_zero h
      · simp [longest, hc] at h
  | number =>
    cases cs with
    | nil => exact absurd rfl h
    | cons c r =>
      obtain ⟨s, hs⟩ := take_cons_of_ne_zero (c := c) (r := r) h
      exact ⟨c, s, hs, isDigit_of_numberLength h⟩
  | word =>
    cases cs with
    | nil => exact absurd rfl h
    | cons c r =>
      by_cases hc : startsWord c = true
      · have hlongest : word.longest (c :: r) = run inWord r + 1 := by
          simp [longest, hc, Nat.add_comm]
        have htake : r.take (run inWord r) = r.takeWhile inWord :=
          (List.prefix_iff_eq_take.1 (List.takeWhile_prefix inWord)).symm
        refine ⟨c, r.takeWhile inWord, ?_, hc, List.all_takeWhile⟩
        rw [hlongest, List.take_succ_cons, htake]
      · simp [longest, hc] at h
  | symbol kind spelling =>
    by_cases hs : spelling.isPrefixOf cs = true
    · have hlongest : (symbol kind spelling).longest cs = spelling.length := if_pos hs
      refine ⟨?_, by simpa [all] using hf⟩
      rw [hlongest]
      exact (List.prefix_iff_eq_take.1 (List.isPrefixOf_iff_prefix.1 hs)).symm
    · simp [longest, hs] at h
  | _ => exact trivial

theorem formed_of_first? {f : Form} {n : Nat} (h : first? cs = some (f, n)) :
    Piece.Formed ⟨f, cs.take n⟩ := by
  obtain ⟨g, hg, hfirst⟩ := List.exists_of_findSome?_eq_some h
  by_cases hlongest : g.longest cs = 0
  · simp [hlongest] at hfirst
  · rw [if_neg hlongest] at hfirst
    cases hfirst
    exact formed_take hg hlongest

end Form

theorem formed_of_mem_pieces {cs : List Char} {p : Piece} (h : p ∈ pieces cs) : p.Formed := by
  fun_induction pieces cs with
  | case1 => exact absurd h List.not_mem_nil
  | case2 cs form n hfirst shorter ih =>
    rcases List.mem_cons.1 h with rfl | h
    · exact Form.formed_of_first? hfirst
    · exact ih h

/-! ## Identifiers -/

/-- Is the text a word that is not reserved? -/
def isIdentifier (text : String) : Bool :=
  match text.toList with
  | [] => false
  | c :: r => Form.startsWord c && r.all Form.inWord && Kind.ofWord text = .identifier

/-- A text that can name a variable. -/
def Identifier := { text : String // isIdentifier text = true }

theorem isIdentifier_ofList (c : Char) (r : List Char) :
    isIdentifier (String.ofList (c :: r)) = (Form.startsWord c && r.all Form.inWord &&
      Kind.ofWord (String.ofList (c :: r)) = .identifier) := by
  simp [isIdentifier]

/-- No word begins with a digit. -/
theorem startsWord_eq_false_of_isDigit {c : Char} (h : Number.isDigit c = true) :
    Form.startsWord c = false := by
  have hdigit : 48 ≤ c.toNat ∧ c.toNat ≤ 57 := by
    simpa [Number.isDigit, Char.le_def, UInt32.le_iff_toNat_le, ← Char.toNat_val] using h
  have hupper : c.isUpper = false := by
    rw [Bool.eq_false_iff]
    intro hc
    have hrange : 'A'.val ≤ c.val ∧ c.val ≤ 'Z'.val := of_decide_eq_true hc
    have hfrom : 65 ≤ c.toNat := UInt32.le_iff_toNat_le.1 hrange.1
    omega
  have hlower : c.isLower = false := by
    rw [Bool.eq_false_iff]
    intro hc
    have hrange : 'a'.val ≤ c.val := of_decide_eq_true (Bool.and_eq_true_iff.1 hc).1
    have hfrom : 97 ≤ c.toNat := UInt32.le_iff_toNat_le.1 hrange
    omega
  have halpha : c.isAlpha = false := by
    show (c.isUpper || c.isLower) = false
    rw [hupper, hlower]
    rfl
  have hune : c ≠ '_' := by
    rintro rfl
    exact absurd hdigit.2 (by decide)
  simp [Form.startsWord, halpha, hune]

/-- The value of a token of a kind, read from its text. -/
def Kind.literal (kind : Kind) (text : String) : Value :=
  match kind with
  | .string => .string (String.ofList text.toList.tail.dropLast)
  | .number => .number (Number.ofSource text.toList)
  | _ => .nil

theorem Kind.literal_eq_nil {kind : Kind} (hstring : kind ≠ .string) (hnumber : kind ≠ .number)
    (text : String) : kind.literal text = .nil := by
  cases kind <;> first | rfl | contradiction

/-- The text of the token says whether it is an identifier, and what its value is. -/
structure Token.Lexed (t : Token) : Prop where
  identifier : t.kind = .identifier ↔ isIdentifier t.lexeme = true
  literal : t.literal = t.kind.literal t.lexeme

/-- A word is an identifier or one of the reserved words. -/
theorem ofWord_mem (text : String) :
    Kind.ofWord text ∈ .identifier :: Kind.reserved.map Prod.snd := by
  unfold Kind.ofWord
  cases h : Kind.reserved.lookup text with
  | none => exact List.mem_cons_self
  | some kind =>
    obtain ⟨before, after, hreserved, -⟩ := List.lookup_eq_some_iff.1 h
    refine List.mem_cons_of_mem _ (List.mem_map.2 ⟨(text, kind), ?_, rfl⟩)
    rw [hreserved]
    exact List.mem_append_right _ List.mem_cons_self

/-- A piece in the form that is asked gives a token that is lexed, and no end. -/
theorem Piece.Formed.lexed {p : Piece} (hp : p.Formed) {line : Int} {t : Token}
    (h : p.token? line = some t) : t.Lexed ∧ t.kind ≠ .eof := by
  obtain ⟨form, text⟩ := p
  cases form with
  | string =>
    obtain rfl := Option.some.inj h
    obtain ⟨r, rfl⟩ : ∃ r, text = '"' :: r := hp
    have hquote : Form.startsWord '"' = false := by decide
    refine ⟨⟨?_, by simp [Kind.literal]⟩, by simp⟩
    rw [isIdentifier_ofList, hquote]
    simp
  | number =>
    obtain rfl := Option.some.inj h
    obtain ⟨c, r, rfl, hc⟩ : ∃ c r, text = c :: r ∧ Number.isDigit c = true := hp
    refine ⟨⟨?_, by simp [Kind.literal]⟩, by simp⟩
    rw [isIdentifier_ofList, startsWord_eq_false_of_isDigit hc]
    simp
  | word =>
    obtain rfl := Option.some.inj h
    obtain ⟨c, r, rfl, hc, hr⟩ : ∃ c r, text = c :: r ∧ Form.startsWord c = true ∧
      r.all Form.inWord = true := hp
    have hwords : ∀ kind ∈ Kind.identifier :: Kind.reserved.map Prod.snd,
        kind ≠ .eof ∧ kind ≠ .string ∧ kind ≠ .number := by decide
    obtain ⟨heof, hstring, hnumber⟩ := hwords _ (ofWord_mem (String.ofList (c :: r)))
    refine ⟨⟨?_, (Kind.literal_eq_nil hstring hnumber _).symm⟩, heof⟩
    rw [isIdentifier_ofList, hc, hr]
    simp
  | symbol kind spelling =>
    obtain rfl := Option.some.inj h
    obtain ⟨rfl, hmem⟩ : text = spelling ∧ (kind, spelling) ∈ symbols := hp
    have hsymbols : ∀ s ∈ symbols, isIdentifier (String.ofList s.2) = false ∧ s.1 ≠ .eof ∧
        s.1 ≠ .identifier ∧ s.1 ≠ .string ∧ s.1 ≠ .number := by decide
    obtain ⟨hno, heof, hkind, hstring, hnumber⟩ := hsymbols _ hmem
    exact ⟨⟨by simp [hno, hkind], (Kind.literal_eq_nil hstring hnumber _).symm⟩, heof⟩
  | _ => cases h

theorem lexed_eof (line : Int) : (Token.eof line).Lexed := by
  have hno : isIdentifier "" = false := by decide
  exact ⟨by simp [Token.eof, hno], rfl⟩

/-- Every scanned token is lexed. -/
theorem lexed_of_mem_tokensFrom {line : Int} {ps : List Piece} (hps : ∀ p ∈ ps, p.Formed) {t : Token}
    (h : t ∈ tokensFrom line ps) : t.Lexed := by
  induction ps generalizing line with
  | nil =>
    rw [tokensFrom_nil, List.mem_singleton] at h
    exact h ▸ lexed_eof line
  | cons p ps ih =>
    rcases List.mem_append.1 h with h | h
    · exact ((hps p List.mem_cons_self).lexed (Option.mem_toList.1 h)).1
    · exact ih (fun q hq => hps q (List.mem_cons_of_mem p hq)) h

end Lox
