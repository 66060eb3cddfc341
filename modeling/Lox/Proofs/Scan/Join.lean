import Lox.Proofs.Relabel
import Lox.Proofs.Scan.Lexeme

/-!
# Texts joined by line breaks

A line break ends every piece in front of it except a string.  So if a text leaves no string open,
its pieces are the same with a line break and more text behind it (`pieces_append`).  Scanning two
texts with a line break between them gives what scanning each of them gives, the tokens and reports
of the second further down (`scan_append_lineBreak`); and texts that are scanned without a report,
joined by line breaks, have their tokens one after the other, each on the lines it then stands on
(`exists_tokensFrom_intercalate`).
-/

namespace Lox

variable {a b cs : List Char} {c : Char}

/-! ## The next piece -/

namespace Form

theorem run_append {p : Char → Bool} (hc : p c = false) : run p (a ++ c :: b) = run p a := by
  unfold run
  rw [List.takeWhile_append]
  split
  next h => rw [List.takeWhile_cons_of_neg (by simp [hc]), List.append_nil, h]
  · rfl

/-- A run that ends within a text is the same with more text behind. -/
theorem run_append_of_mem {p : Char → Bool} (hmem : c ∈ a) (hc : p c = false) :
    run p (a ++ b) = run p a := by
  have hlt : (a.takeWhile p).length < a.length := run_lt hmem hc
  unfold run
  rw [List.takeWhile_append, if_neg (Nat.ne_of_lt hlt)]

/-- Is the character layout: a line break or a blank? -/
def isLayout (c : Char) : Bool := c = '\n' || isBlank c

/-- No form goes on from another character over layout, except the layout itself, comments and
strings. -/
theorem ends_of_isLayout (h : isLayout c = true) :
    Number.isDigit c = false ∧ inWord c = false ∧ c ≠ '.' ∧ c ≠ '/' ∧ ∀ s ∈ symbols, c ∉ s.2 := by
  simp only [isLayout, isBlank, Bool.or_eq_true, decide_eq_true_eq] at h
  rcases h with rfl | (rfl | rfl) | rfl <;> decide

theorem numberLength_append (hdigit : Number.isDigit c = false) (hpoint : c ≠ '.') :
    numberLength (a ++ c :: b) = numberLength a := by
  have hrun : ∀ r, run Number.isDigit (r ++ c :: b) = run Number.isDigit r :=
    fun r => run_append hdigit
  have hdrop : (a ++ c :: b).drop (run Number.isDigit a) =
      a.drop (run Number.isDigit a) ++ c :: b :=
    List.drop_append_of_le_length (run_le _ a)
  unfold numberLength
  simp only [hrun, hdrop]
  cases h : a.drop (run Number.isDigit a) with
  | nil => simp [hpoint]
  | cons d r =>
    by_cases hd : d = '.'
    · subst hd
      simp only [List.cons_append, hrun]
    · simp [hd]

/-- No symbol has layout in it. -/
theorem not_mem_spelling {kind : Kind} {spelling : List Char} (h : symbol kind spelling ∈ all)
    (hc : isLayout c = true) : c ∉ spelling := by
  obtain ⟨-, -, -, -, hsymbols⟩ := ends_of_isLayout hc
  refine hsymbols (kind, spelling) ?_
  simpa [all] using h

theorem isPrefixOf_append {spelling : List Char} (h : c ∉ spelling) :
    spelling.isPrefixOf (a ++ c :: b) = spelling.isPrefixOf a := by
  rw [Bool.eq_iff_iff, List.isPrefixOf_iff_prefix, List.isPrefixOf_iff_prefix]
  constructor
  · intro hs
    rcases List.prefix_or_prefix_of_prefix hs (List.prefix_append a _) with hs' | ⟨x, rfl⟩
    · exact hs'
    · rw [List.prefix_append_right_inj] at hs
      cases x with
      | nil => exact ⟨[], by simp⟩
      | cons d x =>
        obtain ⟨rfl, -⟩ := List.cons_prefix_cons.1 hs
        exact absurd (by simp) h
  · exact fun hs => hs.trans (List.prefix_append a _)

/-- A quote at the start of a text has a closing one. -/
def QuoteCloses (cs : List Char) : Prop := ∀ r, cs = '"' :: r → '"' ∈ r

/-- The character ends every piece at the start of a text in front of it, but for strings: a line
break does, and a blank does if the text begins with no blank and no comment. -/
def EndsPiece (c : Char) (cs : List Char) : Prop :=
  c = '\n' ∨ isBlank c = true ∧ blank.longest cs = 0 ∧ comment.longest cs = 0

theorem EndsPiece.isLayout (h : EndsPiece c a) : isLayout c = true := by
  rcases h with rfl | ⟨h, -⟩
  · rfl
  · simp [Form.isLayout, h]

/-- A character that ends the pieces in front of it, and what is behind it, do not change how far a
form reaches. -/
theorem longest_append {f : Form} (hf : f ∈ all) (hne : a ≠ []) (hq : QuoteCloses a)
    (hc : EndsPiece c a) : f.longest (a ++ c :: b) = f.longest a := by
  obtain ⟨hdigit, hword, hpoint, hslash, -⟩ := ends_of_isLayout hc.isLayout
  obtain ⟨d, r, rfl⟩ := List.exists_cons_of_ne_nil hne
  have hquote : d = '"' → run (· ≠ '"') (r ++ c :: b) = run (· ≠ '"') r := fun hd =>
    run_append_of_mem (hq r (hd ▸ rfl)) (by simp)
  cases f with
  | lineBreak =>
    by_cases hd : d = '\n'
    · subst hd
      rfl
    · simp [longest, hd]
  | blank =>
    rcases hc with rfl | ⟨-, hblank, -⟩
    · exact run_append (by decide)
    · have hd : isBlank d = false := by
        rw [Bool.eq_false_iff]
        intro hd
        simp [longest, run, hd] at hblank
      simp [longest, run, hd]
  | comment =>
    by_cases hd : d = '/'
    · subst hd
      cases r with
      | nil => simp [longest, hslash]
      | cons e r =>
        by_cases he : e = '/'
        · subst he
          rcases hc with rfl | ⟨-, -, hcomment⟩
          · exact congrArg (2 + ·) (run_append (by simp))
          · simp [longest] at hcomment
        · simp [longest, he]
    · simp [longest, hd]
  | string =>
    by_cases hd : d = '"'
    · subst hd
      have hmem := hq r rfl
      show (if '"' ∈ r ++ c :: b then 2 + run (· ≠ '"') (r ++ c :: b) else 0) =
        if '"' ∈ r then 2 + run (· ≠ '"') r else 0
      rw [if_pos (List.mem_append_left _ hmem), if_pos hmem, hquote rfl]
    · simp [longest, hd]
  | openString =>
    by_cases hd : d = '"'
    · subst hd
      exact congrArg (1 + ·) (hquote rfl)
    · simp [longest, hd]
  | number => exact numberLength_append hdigit hpoint
  | word =>
    by_cases hd : startsWord d = true
    · have hrun : run inWord (r ++ c :: b) = run inWord r := run_append hword
      simp [longest, hd, hrun]
    · simp [longest, hd]
  | symbol kind spelling =>
    have hprefix := isPrefixOf_append (a := d :: r) (b := b) (not_mem_spelling hf hc.isLayout)
    simp only [longest, hprefix]
  | stray => rfl

theorem first?_congr (h : ∀ f ∈ all, f.longest a = f.longest b) : first? a = first? b := by
  unfold first?
  generalize all = forms at h
  induction forms with
  | nil => rfl
  | cons f forms ih =>
    rw [List.findSome?_cons, List.findSome?_cons, h f List.mem_cons_self,
      ih fun g hg => h g (List.mem_cons_of_mem f hg)]

theorem first?_append (hne : a ≠ []) (hq : QuoteCloses a) (hc : EndsPiece c a) :
    first? (a ++ c :: b) = first? a :=
  first?_congr fun _ hf => longest_append hf hne hq hc

/-- The next piece is the longest text of its form, and no form that is tried before fits. -/
theorem first?_eq_some_iff {f : Form} {n : Nat} :
    first? cs = some (f, n) ↔ ∃ before behind, all = before ++ f :: behind ∧
      n = f.longest cs ∧ f.longest cs ≠ 0 ∧ ∀ g ∈ before, g.longest cs = 0 := by
  have hnone : ∀ g : Form,
      (if g.longest cs = 0 then none else some (g, g.longest cs)) = none ↔ g.longest cs = 0 := by
    intro g
    split <;> simp_all
  unfold first?
  rw [List.findSome?_eq_some_iff]
  constructor
  · rintro ⟨before, g, behind, hall, hg, hbefore⟩
    split at hg
    · cases hg
    next hlongest =>
      cases hg
      exact ⟨before, behind, hall, rfl, hlongest, fun k hk => (hnone k).1 (hbefore k hk)⟩
  · rintro ⟨before, behind, hall, rfl, hlongest, hbefore⟩
    exact ⟨before, f, behind, hall, if_neg hlongest, fun k hk => (hnone k).2 (hbefore k hk)⟩

/-- A quote without a closing one opens a string. -/
theorem first?_openString {r : List Char} (h : '"' ∉ r) :
    first? ('"' :: r) = some (openString, 1 + run (· ≠ '"') r) := by
  have hopen : openString.longest ('"' :: r) = 1 + run (· ≠ '"') r := rfl
  refine first?_eq_some_iff.2 ⟨[lineBreak, blank, comment, string], all.drop 5, rfl, rfl, ?_, ?_⟩
  · omega
  · simp only [List.mem_cons, List.not_mem_nil, or_false, forall_eq_or_imp, forall_eq]
    exact ⟨rfl, rfl, rfl, if_neg h⟩

theorem quoteCloses_of_first? {f : Form} {n : Nat} (h : first? a = some (f, n))
    (hf : f ≠ openString) : QuoteCloses a := by
  rintro r rfl
  refine Classical.byContradiction fun hmem => ?_
  rw [first?_openString hmem] at h
  cases h
  exact hf rfl

end Form

/-! ## Pieces -/

theorem pieces_of_first? {form : Form} {n : Nat} (h : Form.first? cs = some (form, n)) :
    pieces cs = ⟨form, cs.take n⟩ :: pieces (cs.drop n) := by
  rw [pieces]
  split
  next h' => rw [h] at h'; cases h'
  next h' =>
    rw [h] at h'
    cases h'
    rfl

theorem pieces_nil : pieces [] = [] := by
  rw [pieces]
  rfl

theorem pieces_lineBreak : pieces ('\n' :: b) = ⟨.lineBreak, ['\n']⟩ :: pieces b := by
  have h : Form.first? ('\n' :: b) = some (.lineBreak, 1) := rfl
  exact pieces_of_first? h

/-- A line break cuts a text in two unless a string is open in front of it. -/
theorem pieces_append (h : ∀ p ∈ pieces a, p.form ≠ .openString) :
    pieces (a ++ '\n' :: b) = pieces a ++ ⟨.lineBreak, ['\n']⟩ :: pieces b := by
  induction hlen : a.length using Nat.strongRecOn generalizing a with
  | ind k ih =>
  subst hlen
  by_cases hne : a = []
  · subst hne
    rw [pieces_nil]
    exact pieces_lineBreak
  cases hfirst : Form.first? a with
  | none => exact absurd (Form.first?_eq_none_iff.1 hfirst) hne
  | some next =>
    obtain ⟨form, n⟩ := next
    obtain ⟨hpos, hle⟩ := Form.length_of_first? hfirst
    rw [pieces_of_first? hfirst] at h ⊢
    have hq : Form.QuoteCloses a := by
      refine Form.quoteCloses_of_first? hfirst ?_
      exact h ⟨form, _⟩ List.mem_cons_self
    rw [pieces_of_first? ((Form.first?_append hne hq (Or.inl rfl)).trans hfirst),
      List.take_append_of_le_length hle, List.drop_append_of_le_length hle,
      ih (a.drop n).length (by rw [List.length_drop]; omega)
        (fun p hp => h p (List.mem_cons_of_mem _ hp)) rfl]
    rfl

/-! ## Lines -/

namespace Piece

theorem token?_add (p : Piece) (line lines : Int) :
    p.token? (line + lines) = (p.token? line).map (Token.relabel (.down lines)) := by
  unfold token?
  cases p.form <;> rfl

theorem report?_add (p : Piece) (line lines : Int) :
    p.report? (line + lines) = (p.report? line).map (Report.relabel (.down lines)) := by
  unfold report?
  cases p.form with
  | stray => cases p.text <;> rfl
  | _ => rfl

/-- A piece is reported on every line or on none. -/
theorem report?_eq_none_iff (p : Piece) (line line' : Int) :
    p.report? line = none ↔ p.report? line' = none := by
  have h := report?_add p line (line' - line)
  rw [show line + (line' - line) = line' by omega] at h
  rw [h, Option.map_eq_none_iff]

end Piece

/-- How many lines pieces end. -/
def lineEnds : List Piece → Nat
  | [] => 0
  | p :: ps => p.lineEnds + lineEnds ps

theorem lineEnds_eq_count (ps : List Piece) :
    lineEnds ps = (ps.map Piece.text).flatten.count '\n' := by
  induction ps with
  | nil => rfl
  | cons p ps ih =>
    rw [List.map_cons, List.flatten_cons, List.count_append, ← ih]
    rfl

theorem lineEnds_pieces (cs : List Char) : lineEnds (pieces cs) = cs.count '\n' := by
  rw [lineEnds_eq_count, flatten_pieces]

/-- The tokens of pieces that begin on `line`, without the end. -/
def bodyFrom (line : Int) : List Piece → List Token
  | [] => []
  | p :: ps => (p.token? (line + p.lineEnds)).toList ++ bodyFrom (line + p.lineEnds) ps

variable {ps qs : List Piece} {line : Int}

theorem tokensFrom_append (line : Int) (ps qs : List Piece) :
    tokensFrom line (ps ++ qs) = bodyFrom line ps ++ tokensFrom (line + lineEnds ps) qs := by
  induction ps generalizing line with
  | nil => simp [bodyFrom, lineEnds]
  | cons p ps ih =>
    have hline : line + p.lineEnds + lineEnds ps = line + lineEnds (p :: ps) := by
      simp [lineEnds, Int.add_assoc]
    rw [List.cons_append, tokensFrom, bodyFrom, ih, hline, List.append_assoc]

theorem tokensFrom_eq (line : Int) (ps : List Piece) :
    tokensFrom line ps = bodyFrom line ps ++ [Token.eof (line + lineEnds ps)] := by
  rw [← tokensFrom_nil, ← tokensFrom_append, List.append_nil]

theorem kind_ne_eof_of_mem_bodyFrom (hps : ∀ p ∈ ps, p.Formed) {t : Token}
    (h : t ∈ bodyFrom line ps) : t.kind ≠ .eof := by
  induction ps generalizing line with
  | nil => exact absurd h List.not_mem_nil
  | cons p ps ih =>
    rcases List.mem_append.1 h with h | h
    · exact ((hps p List.mem_cons_self).lexed (Option.mem_toList.1 h)).2
    · exact ih (fun q hq => hps q (List.mem_cons_of_mem p hq)) h

/-- Further down, pieces have the same tokens on other lines. -/
theorem bodyFrom_add (line lines : Int) (ps : List Piece) :
    bodyFrom (line + lines) ps = (bodyFrom line ps).map (Token.relabel (.down lines)) := by
  induction ps generalizing line with
  | nil => rfl
  | cons p ps ih =>
    have hline : line + lines + p.lineEnds = line + p.lineEnds + lines := by omega
    rw [bodyFrom, bodyFrom, hline, ih, Piece.token?_add, List.map_append]
    cases p.token? (line + p.lineEnds) <;> rfl

theorem reportsFrom_append (line : Int) (ps qs : List Piece) :
    reportsFrom line (ps ++ qs) = reportsFrom line ps ++ reportsFrom (line + lineEnds ps) qs := by
  induction ps generalizing line with
  | nil => simp [lineEnds]
  | cons p ps ih =>
    have hline : line + p.lineEnds + lineEnds ps = line + lineEnds (p :: ps) := by
      simp [lineEnds, Int.add_assoc]
    rw [List.cons_append, reportsFrom, reportsFrom, ih, hline, List.append_assoc]

/-- Further down, pieces have the same reports on other lines. -/
theorem reportsFrom_add (line lines : Int) (ps : List Piece) :
    reportsFrom (line + lines) ps = (reportsFrom line ps).map (Report.relabel (.down lines)) := by
  induction ps generalizing line with
  | nil => rfl
  | cons p ps ih =>
    have hline : line + lines + p.lineEnds = line + p.lineEnds + lines := by omega
    rw [reportsFrom, reportsFrom, hline, ih, Piece.report?_add, List.map_append]
    cases p.report? (line + p.lineEnds) <;> rfl

/-- Further down, the end is on another line, too. -/
theorem tokensFrom_add (line lines : Int) (ps : List Piece) :
    tokensFrom (line + lines) ps = (tokensFrom line ps).map (Token.relabel (.down lines)) := by
  have hend : line + lines + lineEnds ps = line + lineEnds ps + lines := by omega
  rw [tokensFrom_eq, tokensFrom_eq, bodyFrom_add, hend, List.map_append]
  rfl

/-- A string that is open is reported. -/
theorem exists_mem_reportsFrom {p : Piece} (line : Int) (h : p ∈ ps)
    (hform : p.form = .openString) :
    ∃ line', Report.ofFault line' .unsaid .openString ∈ reportsFrom line ps := by
  induction ps generalizing line with
  | nil => exact absurd h List.not_mem_nil
  | cons q ps ih =>
    rcases List.mem_cons.1 h with rfl | h
    · refine ⟨line + p.lineEnds, List.mem_append_left _ ?_⟩
      rw [Piece.report?, hform]
      exact List.mem_singleton_self _
    · obtain ⟨line', hmem⟩ := ih (line + q.lineEnds) h
      exact ⟨line', List.mem_append_right _ hmem⟩

/-- Nothing is reported just if there is nothing to report of any piece. -/
theorem reportsFrom_eq_nil_iff :
    reportsFrom line ps = [] ↔ ∀ p ∈ ps, ∀ line, p.report? line = none := by
  induction ps generalizing line with
  | nil => simp
  | cons p ps ih =>
    rw [reportsFrom, List.append_eq_nil_iff, ih, List.forall_mem_cons, Option.toList_eq_nil_iff]
    exact and_congr_left fun _ =>
      ⟨fun h line' => (p.report?_eq_none_iff _ line').1 h, fun h => h _⟩

theorem form_ne_openString (h : ∀ p ∈ ps, ∀ line, p.report? line = none) :
    ∀ p ∈ ps, p.form ≠ .openString := by
  intro p hp hform
  have hnone := h p hp 1
  rw [Piece.report?, hform] at hnone
  cases hnone

/-! ## Texts -/

/-- The tokens of a text, without the end. -/
def body (source : String) : List Token := bodyFrom 1 (pieces source.toList)

/-- The only end is behind the tokens of a text. -/
theorem kind_ne_eof_of_mem_body {source : String} {t : Token} (h : t ∈ body source) :
    t.kind ≠ .eof :=
  kind_ne_eof_of_mem_bodyFrom (fun _ hp => formed_of_mem_pieces hp) h

theorem tokens_scan (source : String) :
    (scan source).tokens = body source ++ [.eof (1 + source.toList.count '\n')] := by
  rw [← lineEnds_pieces]
  exact tokensFrom_eq 1 _

/-- Scanning composes across a line break.  If the upper text leaves no string open, the tokens of two
texts with a line break between them are those of the upper text without their end, and those of the
lower text as many lines further down as the upper text and the line break take; and the same is
reported as of the two texts. -/
theorem scan_append_lineBreak {upper lower : String}
    (h : ∀ line place, Report.ofFault line place .openString ∉ (scan upper).reports) :
    let lines : Int := 1 + upper.toList.count '\n'
    (scan upper).tokens = body upper ++ [.eof lines] ∧
      (scan (upper ++ "\n" ++ lower)).tokens =
        body upper ++ (scan lower).tokens.map (Token.relabel (.down lines)) ∧
      (scan (upper ++ "\n" ++ lower)).reports =
        (scan upper).reports ++ (scan lower).reports.map (Report.relabel (.down lines)) := by
  intro lines
  have hform : ∀ p ∈ pieces upper.toList, p.form ≠ .openString := by
    intro p hp hopen
    obtain ⟨line, hmem⟩ := exists_mem_reportsFrom 1 hp hopen
    exact h line .unsaid hmem
  have htext : (upper ++ "\n" ++ lower).toList = upper.toList ++ '\n' :: lower.toList := by simp
  have hline : (1 : Int) + lineEnds (pieces upper.toList) + 1 = 1 + lines := by
    rw [lineEnds_pieces]
    omega
  refine ⟨tokens_scan upper, ?_, ?_⟩
  · calc tokensFrom 1 (pieces (upper ++ "\n" ++ lower).toList)
        = bodyFrom 1 (pieces upper.toList) ++
            tokensFrom (1 + lineEnds (pieces upper.toList) + 1) (pieces lower.toList) := by
          rw [htext, pieces_append hform, tokensFrom_append]
          rfl
      _ = body upper ++ (tokensFrom 1 (pieces lower.toList)).map (Token.relabel (.down lines)) := by
          rw [hline, tokensFrom_add]
          rfl
  · calc reportsFrom 1 (pieces (upper ++ "\n" ++ lower).toList)
        = reportsFrom 1 (pieces upper.toList) ++
            reportsFrom (1 + lineEnds (pieces upper.toList) + 1) (pieces lower.toList) := by
          rw [htext, pieces_append hform, reportsFrom_append]
          rfl
      _ = reportsFrom 1 (pieces upper.toList) ++
            (reportsFrom 1 (pieces lower.toList)).map (Report.relabel (.down lines)) := by
          rw [hline, reportsFrom_add]

/-- A string over two lines and a stray character above; below, what could go on with the last
character above, and a string that is open. -/
theorem scan_append_lineBreak_stray :
    (∀ line place, Report.ofFault line place .openString ∉ (scan "\"a\nb\" @ !").reports) ∧
      (scan ("\"a\nb\" @ !" ++ "\n" ++ "= \"")).tokens =
        [⟨.string, "\"a\nb\"", .string "a\nb", 2⟩, ⟨.bang, "!", .nil, 2⟩,
          ⟨.equal, "=", .nil, 3⟩, .eof 3] ∧
      (scan ("\"a\nb\" @ !" ++ "\n" ++ "= \"")).reports =
        [.ofFault 2 .unsaid (.strayCharacter '@'), .ofFault 3 .unsaid .openString] := by
  have hreports : (scan "\"a\nb\" @ !").reports = [.ofFault 2 .unsaid (.strayCharacter '@')] := by
    decide +kernel
  have hclosed : ∀ line place,
      Report.ofFault line place .openString ∉ (scan "\"a\nb\" @ !").reports := by
    simp [hreports]
  obtain ⟨-, htokens, hall⟩ := @scan_append_lineBreak _ "= \"" hclosed
  refine ⟨hclosed, htokens.trans (by decide +kernel), hall.trans (by decide +kernel)⟩

/-- The tokens of texts one below the other, each without the end, with so many lines above. -/
def stacked (lines : Nat) : List String → List (List Token)
  | [] => []
  | c :: cs =>
    (body c).map (Token.relabel (.down lines)) :: stacked (lines + c.toList.count '\n' + 1) cs

theorem pieces_cons_intercalate {c d : String} {cs : List String}
    (h : ∀ p ∈ pieces c.toList, p.form ≠ .openString) :
    pieces ("\n".intercalate (c :: d :: cs)).toList =
      pieces c.toList ++ ⟨.lineBreak, ['\n']⟩ :: pieces ("\n".intercalate (d :: cs)).toList := by
  rw [← pieces_append h, String.intercalate_cons_cons]
  simp

/-- Joined by line breaks, texts that are scanned without a report have their tokens one after the
other, each as far down as it then stands. -/
theorem exists_tokensFrom_intercalate {texts : List String} (lines : Nat)
    (h : ∀ c ∈ texts, (scan c).reports = []) :
    ∃ line, tokensFrom (1 + lines) (pieces ("\n".intercalate texts).toList) =
      (stacked lines texts).flatten ++ [.eof line] := by
  induction texts generalizing lines with
  | nil => exact ⟨_, by rw [String.intercalate_nil]; exact congrArg (tokensFrom _) pieces_nil⟩
  | cons c cs ih =>
    have hbody : bodyFrom (1 + lines) (pieces c.toList) =
        (body c).map (Token.relabel (.down lines)) :=
      bodyFrom_add 1 lines _
    cases cs with
    | nil =>
      refine ⟨1 + lines + lineEnds (pieces c.toList), ?_⟩
      rw [String.intercalate_singleton, tokensFrom_eq, hbody]
      simp [stacked]
    | cons d cs =>
      obtain ⟨line, hline⟩ := ih (lines + c.toList.count '\n' + 1)
        fun c hc => h c (List.mem_cons_of_mem _ hc)
      have hquiet := reportsFrom_eq_nil_iff.1 (h c List.mem_cons_self)
      have hbreak : tokensFrom (1 + lines + lineEnds (pieces c.toList))
          (⟨.lineBreak, ['\n']⟩ :: pieces ("\n".intercalate (d :: cs)).toList) =
          tokensFrom (1 + (lines + c.toList.count '\n' + 1 : Nat))
            (pieces ("\n".intercalate (d :: cs)).toList) := by
        rw [lineEnds_pieces, tokensFrom]
        simp [Piece.token?, Piece.lineEnds, Int.add_assoc]
      refine ⟨line, ?_⟩
      rw [pieces_cons_intercalate (form_ne_openString hquiet), tokensFrom_append, hbody, hbreak,
        hline, ← List.append_assoc]
      rfl

theorem reports_scan_intercalate {texts : List String} (h : ∀ c ∈ texts, (scan c).reports = []) :
    (scan ("\n".intercalate texts)).reports = [] := by
  refine reportsFrom_eq_nil_iff.2 ?_
  induction texts with
  | nil => simp [pieces_nil]
  | cons c cs ih =>
    have hquiet := reportsFrom_eq_nil_iff.1 (h c List.mem_cons_self)
    cases cs with
    | nil =>
      rw [String.intercalate_singleton]
      exact hquiet
    | cons d cs =>
      have hrest := ih fun c hc => h c (List.mem_cons_of_mem _ hc)
      rw [pieces_cons_intercalate (form_ne_openString hquiet)]
      rintro p hp
      rcases List.mem_append.1 hp with hp | hp
      · exact hquiet p hp
      rcases List.mem_cons.1 hp with rfl | hp
      · exact fun _ => rfl
      · exact hrest p hp

end Lox
