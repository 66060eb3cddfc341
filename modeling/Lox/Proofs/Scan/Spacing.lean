import Lox.Proofs.Scan.Munch
import Lox.Proofs.Scan.Line

/-!
# Lexemes with other space between them

A lexeme alone is scanned as itself: the longest text of its form is all of it, and no form that is
tried before fits (`first?_take`).  Layout behind a lexeme ends it.  So the lexemes of a source,
written one after the other with any separators between them, are scanned to the same tokens on other
lines, and nothing is reported (`scan_spelled`).
-/

namespace Lox

variable {a b cs gap r : List Char} {c : Char} {form : Form} {n : Nat} {line : Int} {t : Token}
  {p : Piece} {ps : List Piece}

/-! ## A piece alone -/

namespace Form

theorem first?_blank (hc : isBlank c = true) :
    first? (c :: r) = some (blank, run isBlank (c :: r)) := by
  refine first?_eq_some_iff.2 ⟨[lineBreak], all.drop 2, rfl, rfl, run_ne_zero hc, ?_⟩
  have hbegins : lineBreak.begins c = false := by
    refine decide_eq_false ?_
    rintro rfl
    cases hc
  exact List.forall_mem_singleton.2 (longest_eq_zero hbegins r)

/-- The next piece, alone, is the same piece. -/
theorem first?_take (h : first? cs = some (form, n)) : first? (cs.take n) = some (form, n) := by
  obtain ⟨before, behind, hall, rfl, hlongest, hbefore⟩ := first?_eq_some_iff.1 h
  have htake := longest_take form cs
  refine first?_eq_some_iff.2 ⟨before, behind, hall, htake.symm, by rwa [htake], fun f hf => ?_⟩
  have hle := longest_le_of_prefix (List.take_prefix (form.longest cs) cs) f
  rwa [hbefore f hf, Nat.le_zero] at hle

/-- Is the form one of lexemes? -/
def isLexeme : Form → Bool
  | string | number | word | symbol _ _ => true
  | _ => false

/-- Layout behind a lexeme ends it. -/
theorem endsPiece_of_isLexeme (h : first? a = some (form, n)) (hform : form.isLexeme = true)
    (hc : isLayout c = true) : EndsPiece c a := by
  obtain ⟨before, behind, hall, -, -, hbefore⟩ := first?_eq_some_iff.1 h
  -- blanks and comments are tried before all lexemes
  have hmem : blank ∈ before ∧ comment ∈ before := by
    have hne : form ≠ lineBreak ∧ form ≠ blank ∧ form ≠ comment := by
      refine ⟨?_, ?_, ?_⟩ <;> rintro rfl <;> cases hform
    match before with
    | [] => exact absurd (List.cons.inj hall).1.symm hne.1
    | [_] => exact absurd (List.cons.inj (List.cons.inj hall).2).1.symm hne.2.1
    | [_, _] => exact absurd (List.cons.inj (List.cons.inj (List.cons.inj hall).2).2).1.symm hne.2.2
    | f :: g :: k :: before =>
      simp only [all, List.cons_append, List.cons.injEq] at hall
      obtain ⟨rfl, rfl, rfl, -⟩ := hall
      simp
  simp only [isLayout, Bool.or_eq_true, decide_eq_true_eq] at hc
  rcases hc with hc | hc
  · exact Or.inl hc
  · exact Or.inr ⟨hc, hbefore _ hmem.1, hbefore _ hmem.2⟩

/-- A lexeme is the same piece with layout behind it. -/
theorem first?_append_layout (h : first? a = some (form, n)) (hform : form.isLexeme = true)
    (hc : isLayout c = true) : first? (a ++ c :: b) = some (form, n) := by
  have hne : a ≠ [] := by
    rintro rfl
    have := length_of_first? h
    rw [List.length_nil] at this
    omega
  have hopen : form ≠ openString := by
    rintro rfl
    cases hform
  rw [first?_append hne (quoteCloses_of_first? h hopen) (endsPiece_of_isLexeme h hform hc)]
  exact h

end Form

/-! ## Lexemes -/

/-- What a token says, without its line. -/
def Token.content (t : Token) : Kind × String × Value := (t.kind, t.lexeme, t.literal)

/-- The lexeme, alone, is one piece, of this form, and gives the token. -/
structure Token.Rescans (t : Token) (form : Form) : Prop where
  alone : Form.first? t.lexeme.toList = some (form, t.lexeme.toList.length)
  token : ∀ line, (⟨form, t.lexeme.toList⟩ : Piece).token? line = some { t with line }

theorem Piece.isLexeme_of_token? (h : p.token? line = some t) : p.form.isLexeme = true := by
  unfold token? at h
  cases hform : p.form <;> rw [hform] at h <;> first | rfl | cases h

theorem Token.rescans_of_first? (h : Form.first? cs = some (form, n))
    (ht : (⟨form, cs.take n⟩ : Piece).token? line = some t) : t.Rescans form := by
  have hlexeme : t.lexeme.toList = cs.take n := (faithful_of_first? h ht).2
  have hlength : (cs.take n).length = n := by
    have := Form.length_of_first? h
    rw [List.length_take]
    omega
  refine ⟨?_, fun line' => ?_⟩
  · rw [hlexeme, hlength]
    exact Form.first?_take h
  · obtain rfl := (Piece.lexeme_and_line_of_token? ht).2
    have hadd := Piece.token?_add ⟨form, cs.take n⟩ t.line (line' - t.line)
    rw [ht, show t.line + (line' - t.line) = line' by omega] at hadd
    rw [hlexeme, hadd, Option.map_some, Token.relabel]
    have hline : t.line + (line' - t.line) = line' := by omega
    simp [Relabeling.down, hline]

/-- Every lexeme of a source is scanned as the same token again. -/
theorem exists_rescans_of_mem_bodyFrom (h : t ∈ bodyFrom line (pieces cs)) :
    ∃ form, t.Rescans form := by
  fun_induction pieces cs generalizing line with
  | case1 => exact absurd h List.not_mem_nil
  | case2 cs form n hfirst shorter ih =>
    rcases List.mem_append.1 h with h | h
    · exact ⟨form, Token.rescans_of_first? hfirst (Option.mem_toList.1 h)⟩
    · exact ih h

/-! ## Layout -/

/-- On whatever line the text begins, its tokens say this, and nothing is reported. -/
def Reads (cs : List Char) (contents : List (Kind × String × Value)) : Prop :=
  ∀ line, (bodyFrom line (pieces cs)).map Token.content = contents ∧
    reportsFrom line (pieces cs) = []

variable {contents : List (Kind × String × Value)}

theorem reads_nil : Reads [] [] := fun _ => by
  rw [pieces_nil]
  exact ⟨rfl, rfl⟩

/-- A piece of layout has no token and no report. -/
theorem reads_drop_iff (h : Form.first? cs = some (form, n))
    (hform : form = .lineBreak ∨ form = .blank ∨ form = .comment) :
    Reads (cs.drop n) contents ↔ Reads cs contents := by
  have hpieces := pieces_of_first? h
  generalize hp : (⟨form, cs.take n⟩ : Piece) = p at hpieces
  have hnone : ∀ line, p.token? line = none ∧ p.report? line = none := by
    subst hp
    rcases hform with rfl | rfl | rfl <;> exact fun _ => ⟨rfl, rfl⟩
  have hbody : ∀ line, bodyFrom line (pieces cs) =
      bodyFrom (line + p.lineEnds) (pieces (cs.drop n)) := by
    intro line
    rw [hpieces, bodyFrom, (hnone _).1]
    rfl
  have hreports : ∀ line, reportsFrom line (pieces cs) =
      reportsFrom (line + p.lineEnds) (pieces (cs.drop n)) := by
    intro line
    rw [hpieces, reportsFrom, (hnone _).2]
    rfl
  constructor
  · intro hrest line
    rw [hbody, hreports]
    exact hrest _
  · intro hall line
    have hline := hall (line - p.lineEnds)
    rwa [hbody, hreports, Int.sub_add_cancel] at hline

theorem reads_dropWhile_isBlank_iff :
    Reads (cs.dropWhile Form.isBlank) contents ↔ Reads cs contents := by
  cases cs with
  | nil => exact Iff.rfl
  | cons c r =>
    by_cases hc : Form.isBlank c = true
    · rw [← Form.drop_run]
      exact reads_drop_iff (Form.first?_blank hc) (by simp)
    · rw [List.dropWhile_cons_of_neg hc]

/-- Layout in front of a text does not change what its tokens say. -/
theorem Gap.reads (h : Gap false gap []) (hcs : Reads cs contents) :
    Reads (gap ++ cs) contents := by
  generalize hfaults : ([] : List Fault) = faults at h
  induction h with
  | nil => exact hcs
  | lineBreak rest ih =>
    have hfirst : ∀ r, Form.first? ('\n' :: r) = some (.lineBreak, 1) := fun _ => rfl
    exact (reads_drop_iff (hfirst _) (by simp)).1 (ih hfaults)
  | @blank c cs' _ hc rest ih =>
    rw [List.cons_append, ← reads_dropWhile_isBlank_iff, List.dropWhile_cons_of_pos hc,
      reads_dropWhile_isBlank_iff]
    exact ih hfaults
  | @comment body cs' _ hbody hend rest ih =>
    obtain ⟨r, rfl⟩ : ∃ r, cs' = '\n' :: r := by simpa using hend
    have hrun : Form.run (· ≠ '\n') (body ++ '\n' :: (r ++ cs)) = body.length := by
      refine Form.run_append_cons (fun d hd => ?_) (by simp)
      exact decide_eq_true fun hn => hbody (hn ▸ hd)
    have hfirst : Form.first? ('/' :: '/' :: (body ++ '\n' :: (r ++ cs))) =
        some (.comment, 2 + body.length) := by
      rw [← hrun]
      refine Form.first?_eq_some_iff.2 ⟨[.lineBreak, .blank], Form.all.drop 3, rfl, rfl, ?_, ?_⟩
      · simp [Form.longest]
      · simp only [List.mem_cons, List.not_mem_nil, or_false, forall_eq_or_imp, forall_eq]
        exact ⟨rfl, rfl⟩
    have hdrop : ('/' :: '/' :: (body ++ '\n' :: (r ++ cs))).drop (2 + body.length) =
        '\n' :: r ++ cs := by
      rw [Nat.add_comm, List.drop_succ_cons, List.drop_succ_cons, List.drop_left]
      rfl
    have hrest := ih hfaults
    rw [← hdrop, reads_drop_iff hfirst (by simp)] at hrest
    simpa using hrest
  | stray => cases hfaults
  | openString => cases hfaults

/-- A lexeme is read, and then what is behind it. -/
theorem Token.Rescans.reads (h : t.Rescans form) {behind : List Char}
    (hfirst : Form.first? (t.lexeme.toList ++ behind) = some (form, t.lexeme.toList.length))
    (hbehind : Reads behind contents) :
    Reads (t.lexeme.toList ++ behind) (t.content :: contents) := by
  intro line
  rw [pieces_of_first? hfirst, List.take_left, List.drop_left, bodyFrom, reportsFrom,
    h.token, Piece.report?_of_token? (h.token _), List.map_append, (hbehind _).1, (hbehind _).2]
  exact ⟨rfl, rfl⟩

/-! ## Separators -/

/-- What separates two lexemes: a blank or a line break, and then more of these and comments, each
with the end of its line. -/
structure Separator where
  text : List Char
  begins : ∃ c r, text = c :: r ∧ Form.isLayout c = true
  gap : Gap false text []

instance : Inhabited Separator where
  default := ⟨[' '], ⟨' ', [], rfl, rfl⟩, .blank rfl .nil⟩

/-- Lexemes in order, with a separator between any two of them; they are counted from the last. -/
def spelled (separator : Nat → Separator) : List Token → List Char
  | [] => []
  | [t] => t.lexeme.toList
  | t :: u :: ts =>
    t.lexeme.toList ++ ((separator ts.length).text ++ spelled separator (u :: ts))

theorem reads_spelled (separator : Nat → Separator) {ts : List Token}
    (h : ∀ t ∈ ts, ∃ form, t.Rescans form) :
    Reads (spelled separator ts) (ts.map Token.content) := by
  fun_induction spelled separator ts with
  | case1 => exact reads_nil
  | case2 t =>
    obtain ⟨form, ht⟩ := h t List.mem_cons_self
    have halone : Form.first? (t.lexeme.toList ++ []) = some (form, t.lexeme.toList.length) := by
      rw [List.append_nil, ht.alone]
    simpa using ht.reads halone reads_nil
  | case3 t u ts ih =>
    obtain ⟨form, ht⟩ := h t List.mem_cons_self
    obtain ⟨c, r, hsep, hc⟩ := (separator ts.length).begins
    have hrest := (separator ts.length).gap.reads (ih fun v hv => h v (List.mem_cons_of_mem t hv))
    refine ht.reads ?_ hrest
    rw [hsep, List.cons_append]
    exact Form.first?_append_layout ht.alone (Piece.isLexeme_of_token? (ht.token 1)) hc

/-- Scanning undoes writing lexemes out.  The lexemes of a source, also of one with stray characters
or an open string in it, written with any separators between them, are scanned without a report, and
give the tokens of the source, each with its kind, its lexeme and its value, and the end. -/
theorem scan_spelled (source : String) (separator : Nat → Separator) :
    let text := String.ofList (spelled separator (body source))
    (scan source).tokens = body source ++ [.eof (1 + source.toList.count '\n')] ∧
      (scan text).reports = [] ∧
      (scan text).tokens = body text ++ [.eof (1 + text.toList.count '\n')] ∧
      (body text).map Token.content = (body source).map Token.content := by
  intro text
  have hread : Reads text.toList ((body source).map Token.content) := by
    rw [String.toList_ofList]
    exact reads_spelled separator fun t ht => exists_rescans_of_mem_bodyFrom ht
  exact ⟨tokens_scan source, (hread 1).2, tokens_scan text, (hread 1).1⟩

end Lox
