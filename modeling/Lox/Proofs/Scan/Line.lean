import Lox.Proofs.Scan.Join

/-!
# Lines of tokens and reports

The pieces of a source lie one behind the other and fill it.  What is made of a piece, a token or a
report, carries the line on which the piece ends: one more than the line breaks of the source up to
there (`linesRight_scan`).  So a token that holds no line break carries the line it stands on, one
that does carries its last line, and down the tokens the lines never decrease.
-/

namespace Lox

/-! ## Stretches of a source -/

/-- A piece of a source with all that stands in front of it. -/
structure Stretch where
  before : List Char
  piece : Piece

namespace Stretch

/-- The source up to the end of the stretch. -/
def upTo (s : Stretch) : List Char := s.before ++ s.piece.text

/-- The line on which the stretch ends: one more than the line breaks up to there. -/
def line (s : Stretch) : Int := 1 + s.upTo.count '\n'

/-- The token of the stretch. -/
def token? (s : Stretch) : Option Token := s.piece.token? s.line

/-- The report of the stretch. -/
def report? (s : Stretch) : Option Report := s.piece.report? s.line

/-- The stretch ends in front of another or where it begins. -/
def Precedes (s other : Stretch) : Prop := s.upTo <+: other.before

end Stretch

/-- Pieces with what stands in front of each. -/
def stretchesFrom (before : List Char) : List Piece → List Stretch
  | [] => []
  | p :: ps => ⟨before, p⟩ :: stretchesFrom (before ++ p.text) ps

/-- The stretches of a source, in order. -/
def stretches (source : String) : List Stretch := stretchesFrom [] (pieces source.toList)

variable {before cs : List Char} {ps : List Piece} {s other : Stretch} {t : Token} {r : Report}
  {source : String}

theorem before_prefix_of_mem_stretchesFrom (h : s ∈ stretchesFrom before ps) :
    before <+: s.before := by
  induction ps generalizing before with
  | nil => exact absurd h List.not_mem_nil
  | cons p ps ih =>
    rcases List.mem_cons.1 h with rfl | h
    · exact List.prefix_rfl
    · exact (List.prefix_append before p.text).trans (ih h)

theorem upTo_prefix_of_mem_stretchesFrom (h : s ∈ stretchesFrom before ps) :
    s.upTo <+: before ++ (ps.map Piece.text).flatten := by
  induction ps generalizing before with
  | nil => exact absurd h List.not_mem_nil
  | cons p ps ih =>
    rw [List.map_cons, List.flatten_cons, ← List.append_assoc]
    rcases List.mem_cons.1 h with rfl | h
    · exact List.prefix_append _ _
    · exact ih h

theorem pairwise_stretchesFrom (before : List Char) (ps : List Piece) :
    (stretchesFrom before ps).Pairwise Stretch.Precedes := by
  induction ps generalizing before with
  | nil => exact .nil
  | cons p ps ih => exact .cons (fun _ h => before_prefix_of_mem_stretchesFrom h) (ih _)

theorem map_piece_stretchesFrom (before : List Char) (ps : List Piece) :
    (stretchesFrom before ps).map Stretch.piece = ps := by
  induction ps generalizing before with
  | nil => rfl
  | cons p ps ih => rw [stretchesFrom, List.map_cons, ih]

/-- Every stretch stands in the source. -/
theorem exists_behind_of_mem_stretches (h : s ∈ stretches source) :
    ∃ behind, source.toList = s.before ++ s.piece.text ++ behind := by
  obtain ⟨behind, hbehind⟩ := upTo_prefix_of_mem_stretchesFrom h
  rw [flatten_pieces, List.nil_append] at hbehind
  exact ⟨behind, hbehind.symm⟩

/-! ## Tokens and reports of stretches -/

/-- The line on which a piece ends, counted on from where it begins. -/
theorem line_add_lineEnds (before : List Char) (p : Piece) :
    1 + (before.count '\n' : Int) + p.lineEnds = 1 + ((before ++ p.text).count '\n' : Nat) := by
  rw [List.count_append, Int.add_assoc]
  rfl

theorem bodyFrom_eq_filterMap (before : List Char) (ps : List Piece) :
    bodyFrom (1 + before.count '\n') ps = (stretchesFrom before ps).filterMap Stretch.token? := by
  induction ps generalizing before with
  | nil => rfl
  | cons p ps ih =>
    rw [bodyFrom, line_add_lineEnds, ih, stretchesFrom, List.filterMap_cons]
    show (Stretch.token? ⟨before, p⟩).toList ++ _ = _
    cases Stretch.token? ⟨before, p⟩ <;> rfl

theorem reportsFrom_eq_filterMap (before : List Char) (ps : List Piece) :
    reportsFrom (1 + before.count '\n') ps =
      (stretchesFrom before ps).filterMap Stretch.report? := by
  induction ps generalizing before with
  | nil => rfl
  | cons p ps ih =>
    rw [reportsFrom, line_add_lineEnds, ih, stretchesFrom, List.filterMap_cons]
    show (Stretch.report? ⟨before, p⟩).toList ++ _ = _
    cases Stretch.report? ⟨before, p⟩ <;> rfl

theorem body_eq_filterMap (source : String) :
    body source = (stretches source).filterMap Stretch.token? := bodyFrom_eq_filterMap [] _

/-- A token has the text of its piece and the line it is given. -/
theorem Piece.lexeme_and_line_of_token? {p : Piece} {line : Int} (h : p.token? line = some t) :
    t.lexeme.toList = p.text ∧ t.line = line := by
  unfold token? at h
  split at h
  case h_5 => cases h
  all_goals
    obtain rfl := Option.some.inj h
    exact ⟨String.toList_ofList, rfl⟩

/-- A report has the line it is given and says no more of its place; it is about a stray character
or an open string. -/
theorem Piece.exists_of_report? {p : Piece} {line : Int} (h : p.report? line = some r) :
    ∃ fault, r = .ofFault line .unsaid fault ∧
      ((∃ c rest, p.text = c :: rest ∧ fault = .strayCharacter c) ∨ fault = .openString) := by
  unfold report? at h
  split at h
  · obtain rfl := Option.some.inj h
    exact ⟨_, rfl, Or.inr rfl⟩
  next c rest _ htext =>
    obtain rfl := Option.some.inj h
    exact ⟨_, rfl, Or.inl ⟨c, rest, htext, rfl⟩⟩
  · cases h

theorem Stretch.line_le_of_precedes (h : s.Precedes other) : s.line ≤ other.line := by
  have hupTo : s.upTo <+: other.upTo := h.trans (List.prefix_append _ _)
  have hcount := hupTo.sublist.count_le '\n'
  unfold line
  omega

/-- What holds no line break carries the line on which it begins. -/
theorem Stretch.line_eq_of_not_mem (h : '\n' ∉ s.piece.text) :
    s.line = 1 + s.before.count '\n' := by
  rw [line, upTo, List.count_append, List.count_eq_zero_of_not_mem h, Nat.add_zero]

/-! ## Scans -/

/-- A scan has the lines of its source right. -/
structure LinesRight (source : String) (scanned : Scan) : Prop where
  /-- The source is its stretches, one behind the other, each standing where it says. -/
  whole : ((stretches source).map (·.piece.text)).flatten = source.toList
  stands : ∀ s ∈ stretches source,
    ∃ behind, source.toList = s.before ++ s.piece.text ++ behind
  inOrder : (stretches source).Pairwise Stretch.Precedes
  /-- The tokens are those of the stretches, and the end carries one more than all line breaks. -/
  tokens : scanned.tokens =
    (stretches source).filterMap Stretch.token? ++ [.eof (1 + source.toList.count '\n')]
  token : ∀ s ∈ stretches source, ∀ t, s.token? = some t → t.lexeme.toList = s.piece.text ∧
    t.line = 1 + (s.before ++ t.lexeme.toList).count '\n' ∧
    ('\n' ∉ t.lexeme.toList → t.line = 1 + s.before.count '\n')
  /-- The reports are those of the stretches. -/
  reports : scanned.reports = (stretches source).filterMap Stretch.report?
  report : ∀ s ∈ stretches source, ∀ r, s.report? = some r → ∃ fault,
    r = .ofFault (1 + (s.before ++ s.piece.text).count '\n') .unsaid fault ∧
    ((∃ c rest, s.piece.text = c :: rest ∧ fault = .strayCharacter c) ∨ fault = .openString)
  ascending : scanned.tokens.Pairwise fun t u => t.line ≤ u.line

theorem token_of_stretch (h : s.token? = some t) : t.lexeme.toList = s.piece.text ∧
    t.line = 1 + (s.before ++ t.lexeme.toList).count '\n' ∧
    ('\n' ∉ t.lexeme.toList → t.line = 1 + s.before.count '\n') := by
  obtain ⟨htext, hline⟩ := Piece.lexeme_and_line_of_token? h
  rw [htext, hline]
  exact ⟨rfl, rfl, Stretch.line_eq_of_not_mem⟩

/-- No token is on a line behind that of the end. -/
theorem line_le_of_mem_stretches (h : s ∈ stretches source) :
    s.line ≤ 1 + source.toList.count '\n' := by
  have hprefix : s.upTo <+: source.toList := by
    obtain ⟨behind, hbehind⟩ := exists_behind_of_mem_stretches h
    exact ⟨behind, hbehind.symm⟩
  have hcount := hprefix.sublist.count_le '\n'
  unfold Stretch.line
  omega

theorem pairwise_line_tokens (source : String) :
    (scan source).tokens.Pairwise fun t u => t.line ≤ u.line := by
  rw [tokens_scan, body_eq_filterMap]
  refine List.pairwise_append.2 ⟨?_, List.pairwise_singleton _ _, ?_⟩
  · refine List.pairwise_filterMap.2 ((pairwise_stretchesFrom [] _).imp fun hab t ht u hu => ?_)
    rw [(Piece.lexeme_and_line_of_token? ht).2, (Piece.lexeme_and_line_of_token? hu).2]
    exact Stretch.line_le_of_precedes hab
  · intro t ht u hu
    obtain ⟨s, hs, ht⟩ := List.mem_filterMap.1 ht
    rw [List.mem_singleton.1 hu, (Piece.lexeme_and_line_of_token? ht).2]
    exact line_le_of_mem_stretches hs

/-- Every scan has the lines of its source right. -/
theorem linesRight_scan (source : String) : LinesRight source (scan source) where
  whole := by
    rw [show (fun s : Stretch => s.piece.text) = Piece.text ∘ Stretch.piece from rfl,
      ← List.map_map, stretches, map_piece_stretchesFrom, flatten_pieces]
  stands _ h := exists_behind_of_mem_stretches h
  inOrder := pairwise_stretchesFrom [] _
  tokens := by rw [tokens_scan, body_eq_filterMap]
  token _ _ _ h := token_of_stretch h
  reports := reportsFrom_eq_filterMap [] _
  report _ _ _ h := Piece.exists_of_report? h
  ascending := pairwise_line_tokens source

/-! ## Tokens without line breaks -/

/-- No operator and no word holds a line break: only strings can. -/
theorem Piece.Formed.not_mem_text {p : Piece} (hp : p.Formed) {line : Int}
    (h : p.token? line = some t) (hstring : t.kind ≠ .string) (hnumber : t.kind ≠ .number) :
    '\n' ∉ p.text := by
  obtain ⟨form, text⟩ := p
  cases form with
  | string =>
    obtain rfl := Option.some.inj h
    exact absurd rfl hstring
  | number =>
    obtain rfl := Option.some.inj h
    exact absurd rfl hnumber
  | word =>
    obtain ⟨c, r, rfl, hc, hr⟩ : ∃ c r, text = c :: r ∧ Form.startsWord c = true ∧
      r.all Form.inWord = true := hp
    have hbreak : Form.startsWord '\n' = false ∧ Form.inWord '\n' = false := by decide
    intro hmem
    rcases List.mem_cons.1 hmem with rfl | hmem
    · rw [hbreak.1] at hc
      cases hc
    · have hin := List.all_eq_true.1 hr _ hmem
      rw [hbreak.2] at hin
      cases hin
  | symbol kind spelling =>
    obtain ⟨rfl, hmem⟩ : text = spelling ∧ (kind, spelling) ∈ symbols := hp
    have hsymbols : ∀ s ∈ symbols, '\n' ∉ s.2 := by decide
    exact hsymbols _ hmem
  | _ => cases h

/-- A token of a source that is no literal holds no line break. -/
theorem not_mem_lexeme_of_stretch (hs : s ∈ stretches source) (h : s.token? = some t)
    (hstring : t.kind ≠ .string) (hnumber : t.kind ≠ .number) : '\n' ∉ t.lexeme.toList := by
  have hpiece : s.piece ∈ pieces source.toList := by
    rw [← map_piece_stretchesFrom [] (pieces source.toList)]
    exact List.mem_map_of_mem hs
  rw [(Piece.lexeme_and_line_of_token? h).1]
  exact (formed_of_mem_pieces hpiece).not_mem_text h hstring hnumber

end Lox
