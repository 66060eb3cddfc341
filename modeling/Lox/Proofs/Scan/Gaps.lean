import Lox.Proofs.Scan.Join

/-!
# Scanning loses nothing silently

A source is gaps and lexemes in turn (`scan_eq_gaps_and_lexemes`).  What stands in a gap is layout, or
it is reported: each stray character, and a string that is still open where the source ends.  So the
rules for the forms leave no character out, and no text between two lexemes goes by without a report
unless it means nothing.
-/

namespace Lox

/-! ## Lexemes -/

/-- Is the text a word, reserved or not? -/
def isWord (text : List Char) : Bool :=
  match text with
  | [] => false
  | c :: r => Form.startsWord c && r.all Form.inWord

/-- Does a lexeme begin with the character? -/
def beginsLexeme (c : Char) : Bool :=
  c = '"' || Number.isDigit c || Form.startsWord c ||
    symbols.any fun (_, spelling) => spelling.head? = some c

/-- The token says what its lexeme says.  Only numbers and strings have a value; that of a string is
what stands between its quotes.  Words are identifiers, except the reserved ones. -/
structure Token.Faithful (t : Token) : Prop where
  noEnd : t.kind ≠ .eof
  begins : ∃ c r, t.lexeme.toList = c :: r ∧ beginsLexeme c = true
  literal : t.literal ≠ .nil → t.kind = .number ∨ t.kind = .string
  string : t.kind = .string → ∃ body, '"' ∉ body ∧ t.lexeme.toList = '"' :: body ++ ['"'] ∧
    t.literal = .string (String.ofList body)
  word : isWord t.lexeme.toList = true ↔ t.kind ∈ .identifier :: Kind.reserved.map Prod.snd
  reserved : ∀ kind ∈ Kind.reserved.map Prod.snd,
    t.kind = kind ↔ (t.lexeme, kind) ∈ Kind.reserved

/-! ## Gaps -/

/-- Is the character neither layout nor the first of a lexeme? -/
def isStray (c : Char) : Bool := c ≠ '\n' && !Form.isBlank c && !beginsLexeme c

/-- What may stand between lexemes, with its faults, or behind the last of them.  A comment goes on to
the end of its line.  A string can be open only where the source ends. -/
inductive Gap (last : Bool) : List Char → List Fault → Prop
  | nil : Gap last [] []
  | lineBreak {cs faults} (rest : Gap last cs faults) : Gap last ('\n' :: cs) faults
  | blank {c cs faults} (hc : Form.isBlank c = true) (rest : Gap last cs faults) :
      Gap last (c :: cs) faults
  | comment {body cs faults} (hbody : '\n' ∉ body)
      (hend : (∃ r, cs = '\n' :: r) ∨ (cs = [] ∧ last = true)) (rest : Gap last cs faults) :
      Gap last ('/' :: '/' :: body ++ cs) faults
  | stray {c cs faults} (hc : isStray c = true) (rest : Gap last cs faults) :
      Gap last (c :: cs) (.strayCharacter c :: faults)
  | openString {body} (hlast : last = true) (hbody : '"' ∉ body) :
      Gap last ('"' :: body) [.openString]

/-- A lexeme with the gap in front of it. -/
structure Spaced where
  gap : List Char
  faults : List Fault
  token : Token

/-- The text of a lexeme with the gap in front of it. -/
def Spaced.text (s : Spaced) : List Char := s.gap ++ s.token.lexeme.toList

/-- The fault in a report that says no more of its place than the line. -/
def Report.fault? : Report → Option Fault
  | ofFault _ .unsaid fault => some fault
  | _ => none

/-- The source is these lexemes, each with a gap in front of it, and the gap behind them, and the
faults in the gaps are what is reported. -/
structure Arranges (cs : List Char) (reports : List Report) (row : List Spaced) (gap : List Char)
    (faults : List Fault) : Prop where
  source : cs = row.flatMap Spaced.text ++ gap
  gaps : ∀ s ∈ row, Gap false s.gap s.faults
  last : Gap true gap faults
  faithful : ∀ s ∈ row, s.token.Faithful
  reports : reports.map Report.fault? = (row.flatMap Spaced.faults ++ faults).map some

variable {c : Char} {cs r gap behind : List Char} {faults : List Fault} {last : Bool} {form : Form}
  {n : Nat} {line : Int} {t : Token}

/-! ## Texts of the forms -/

namespace Form

theorem take_run (p : Char → Bool) (cs : List Char) : cs.take (run p cs) = cs.takeWhile p :=
  (List.prefix_iff_eq_take.1 (List.takeWhile_prefix p)).symm

theorem drop_run (p : Char → Bool) (cs : List Char) : cs.drop (run p cs) = cs.dropWhile p := by
  refine (List.append_right_inj (cs.take (run p cs))).1 ?_
  rw [List.take_append_drop, take_run, List.takeWhile_append_dropWhile]

/-- A run ends at the end of the text or at what does not satisfy `p`. -/
theorem drop_run_eq (p : Char → Bool) (cs : List Char) :
    cs.drop (run p cs) = [] ∨ ∃ c r, cs.drop (run p cs) = c :: r ∧ p c = false := by
  rw [drop_run]
  have hhead := List.head?_dropWhile_not p cs
  cases h : cs.dropWhile p with
  | nil => exact Or.inl rfl
  | cons c r =>
    rw [h] at hhead
    exact Or.inr ⟨c, r, rfl, hhead⟩

/-- A quote with a closing one is a string. -/
theorem first?_string (h : '"' ∈ r) :
    first? ('"' :: r) = some (string, 2 + run (· ≠ '"') r) := by
  have hstring : string.longest ('"' :: r) = 2 + run (· ≠ '"') r := if_pos h
  refine first?_eq_some_iff.2
    ⟨[lineBreak, blank, comment], all.drop 4, rfl, hstring.symm, ?_, ?_⟩
  · omega
  · simp only [List.mem_cons, List.not_mem_nil, or_false, forall_eq_or_imp, forall_eq]
    exact ⟨rfl, rfl, rfl⟩

/-- The next piece is the longest text of its form. -/
theorem longest_of_first? (h : first? cs = some (form, n)) :
    form ∈ all ∧ n = form.longest cs ∧ form.longest cs ≠ 0 := by
  obtain ⟨before, behind, hall, hn, hlongest, -⟩ := first?_eq_some_iff.1 h
  exact ⟨hall ▸ by simp, hn, hlongest⟩

theorem run_of_forall {p : Char → Bool} (h : ∀ d ∈ cs, p d = true) : run p cs = cs.length := by
  have happend : (cs ++ []).takeWhile p = cs ++ [].takeWhile p := List.takeWhile_append_of_pos h
  rw [List.append_nil, List.takeWhile_nil, List.append_nil] at happend
  rw [run, happend]

/-- A run over all of a text ends at what does not satisfy `p`. -/
theorem run_append_cons {p : Char → Bool} {a b : List Char} (ha : ∀ d ∈ a, p d = true)
    (hc : p c = false) : run p (a ++ c :: b) = a.length := by
  rw [run_append hc, run_of_forall ha]

theorem longest_string {body behind : List Char} (h : '"' ∉ body) :
    string.longest ('"' :: (body ++ '"' :: behind)) = body.length + 2 := by
  have hmem : '"' ∈ body ++ '"' :: behind := by simp
  have hall : ∀ d ∈ body, decide (d ≠ '"') = true := fun d hd =>
    decide_eq_true fun hq => h (hq ▸ hd)
  have hrun := run_append_cons (b := behind) hall (c := '"') (by simp)
  simp only [longest, hmem, if_true, hrun]
  omega

/-- A string goes up to the next quote. -/
theorem exists_string (h : string.longest cs ≠ 0) :
    ∃ body behind, '"' ∉ body ∧ cs = '"' :: (body ++ '"' :: behind) ∧
      cs.take (string.longest cs) = '"' :: body ++ ['"'] := by
  cases cs with
  | nil => exact absurd rfl h
  | cons c r =>
    by_cases hc : c = '"'
    · subst hc
      by_cases hmem : '"' ∈ r
      · obtain ⟨body, behind, rfl, hbody⟩ := List.eq_append_cons_of_mem hmem
        refine ⟨body, behind, hbody, rfl, ?_⟩
        rw [longest_string hbody, List.take_succ_cons, List.take_append,
          List.take_of_length_le (by omega)]
        simp
      · exact absurd (if_neg hmem) h
    · simp [longest, hc] at h

theorem exists_lineBreak (h : lineBreak.longest cs ≠ 0) : ∃ r, cs = '\n' :: r := by
  unfold longest at h
  split at h <;> simp_all

theorem exists_comment (h : comment.longest cs ≠ 0) : ∃ r, cs = '/' :: '/' :: r := by
  unfold longest at h
  split at h <;> simp_all

theorem exists_openString (h : openString.longest cs ≠ 0) : ∃ r, cs = '"' :: r := by
  unfold longest at h
  split at h <;> simp_all

theorem exists_word (h : word.longest cs ≠ 0) : ∃ c r, cs = c :: r ∧ startsWord c = true := by
  unfold longest at h
  split at h <;> simp_all

theorem exists_stray (h : stray.longest cs ≠ 0) : ∃ c r, cs = c :: r ∧ c ≠ '\n' := by
  unfold longest at h
  split at h <;> simp_all

/-- No other form fits a stray character. -/
theorem longest_of_stray (h : first? cs = some (stray, n)) :
    ∀ f ∈ all, f ≠ stray → f.longest cs = 0 := by
  obtain ⟨before, behind, hall, -, -, hbefore⟩ := first?_eq_some_iff.1 h
  -- a stray character is the last form that is tried
  obtain ⟨others, hothers, hstray⟩ : ∃ others, all = others ++ [stray] ∧ stray ∉ others :=
    ⟨_, rfl, by decide⟩
  have hbehind : behind = [] := by
    rcases List.eq_nil_or_concat behind with h | ⟨others', g, rfl⟩
    · exact h
    · have hend : (before ++ stray :: others') ++ [g] = others ++ [stray] := by
        rw [← hothers, hall, List.concat_eq_append, List.append_assoc, List.cons_append]
      rw [← (List.append_inj' hend rfl).1] at hstray
      simp at hstray
  intro f hf hne
  rw [hall, hbehind] at hf
  exact hbefore f (by simpa [hne] using hf)

end Form

/-! ## Lexemes are faithful -/

theorem isWord_of_mem_reserved : ∀ entry ∈ Kind.reserved, isWord entry.1.toList = true := by decide

theorem ofWord_of_mem_reserved : ∀ entry ∈ Kind.reserved, Kind.ofWord entry.1 = entry.2 := by decide

/-- A word is of a reserved kind just if it is the reserved word of that kind. -/
theorem ofWord_eq_iff {text : String} {kind : Kind} (h : kind ≠ .identifier) :
    Kind.ofWord text = kind ↔ (text, kind) ∈ Kind.reserved := by
  refine ⟨fun hkind => ?_, fun hmem => ofWord_of_mem_reserved _ hmem⟩
  unfold Kind.ofWord at hkind
  cases hlookup : Kind.reserved.lookup text with
  | none =>
    rw [hlookup] at hkind
    exact absurd hkind.symm h
  | some found =>
    rw [hlookup] at hkind
    obtain rfl : found = kind := hkind
    obtain ⟨before, after, hreserved, -⟩ := List.lookup_eq_some_iff.1 hlookup
    rw [hreserved]
    exact List.mem_append_right _ List.mem_cons_self

/-- What is no word is not of the kind of a word. -/
theorem Token.Faithful.of_not_isWord (hword : isWord t.lexeme.toList = false)
    (hkind : t.kind ∉ .identifier :: Kind.reserved.map Prod.snd) (noEnd : t.kind ≠ .eof)
    (begins : ∃ c r, t.lexeme.toList = c :: r ∧ beginsLexeme c = true)
    (literal : t.literal ≠ .nil → t.kind = .number ∨ t.kind = .string)
    (string : t.kind = .string → ∃ body, '"' ∉ body ∧ t.lexeme.toList = '"' :: body ++ ['"'] ∧
      t.literal = .string (String.ofList body)) : t.Faithful where
  noEnd := noEnd
  begins := begins
  literal := literal
  string := string
  word := by simp only [hword, hkind, Bool.false_eq_true]
  reserved kind hmem := by
    refine ⟨fun h => absurd (List.mem_cons_of_mem _ (h ▸ hmem)) hkind, fun h => ?_⟩
    rw [isWord_of_mem_reserved _ h] at hword
    cases hword

theorem faithful_string {body : List Char} (h : '"' ∉ body) (line : Int) :
    Token.Faithful ⟨.string, String.ofList ('"' :: body ++ ['"']),
      .string (String.ofList body), line⟩ := by
  have hquote : Form.startsWord '"' = false := by decide
  have hkind : Kind.string ∉ .identifier :: Kind.reserved.map Prod.snd := by decide
  refine .of_not_isWord ?_ hkind (by simp) ⟨'"', body ++ ['"'], by simp, by decide⟩
    (fun _ => Or.inr rfl) fun _ => ⟨body, h, by simp, rfl⟩
  simp [isWord, hquote]

theorem faithful_number (h : Number.isDigit c = true) (line : Int) :
    Token.Faithful ⟨.number, String.ofList (c :: r), .number (Number.ofSource (c :: r)), line⟩ := by
  have hkind : Kind.number ∉ .identifier :: Kind.reserved.map Prod.snd := by decide
  refine .of_not_isWord ?_ hkind (by simp) ⟨c, r, by simp, by simp [beginsLexeme, h]⟩
    (fun _ => Or.inl rfl) (by simp)
  simp [isWord, startsWord_eq_false_of_isDigit h]

theorem faithful_symbol {kind : Kind} {spelling : List Char} (h : (kind, spelling) ∈ symbols)
    (line : Int) : Token.Faithful ⟨kind, String.ofList spelling, .nil, line⟩ := by
  have hsymbols : ∀ s ∈ symbols, isWord s.2 = false ∧ s.1 ≠ .eof ∧ s.1 ≠ .string ∧
      s.1 ∉ Kind.identifier :: Kind.reserved.map Prod.snd ∧
      s.2.head?.map beginsLexeme = some true := by decide
  obtain ⟨hword, heof, hstring, hkind, hbegins⟩ := hsymbols _ h
  refine .of_not_isWord (by simpa using hword) hkind heof ?_ (by simp) (by simp [hstring])
  obtain ⟨c, hc, hcbegins⟩ := Option.map_eq_some_iff.1 hbegins
  obtain ⟨r, rfl⟩ := List.head?_eq_some_iff.1 hc
  exact ⟨c, r, by simp, hcbegins⟩

theorem faithful_word (hc : Form.startsWord c = true) (hr : r.all Form.inWord = true) (line : Int) :
    Token.Faithful ⟨.ofWord (String.ofList (c :: r)), String.ofList (c :: r), .nil, line⟩ := by
  have hwords : ∀ kind ∈ Kind.identifier :: Kind.reserved.map Prod.snd,
      kind ≠ .eof ∧ kind ≠ .string := by decide
  have hmem := ofWord_mem (String.ofList (c :: r))
  obtain ⟨heof, hstring⟩ := hwords _ hmem
  exact {
    noEnd := heof
    begins := ⟨c, r, by simp, by simp [beginsLexeme, hc]⟩
    literal := fun h => absurd rfl h
    string := fun h => absurd h hstring
    word := by
      refine ⟨fun _ => hmem, fun _ => ?_⟩
      simp only [String.toList_ofList, isWord, hc, hr, Bool.and_self]
    reserved := fun kind hkind => ofWord_eq_iff (by rintro rfl; exact absurd hkind (by decide)) }

/-- The token of the next piece is faithful, and its lexeme is the text of the piece. -/
theorem faithful_of_first? (h : Form.first? cs = some (form, n))
    (ht : (⟨form, cs.take n⟩ : Piece).token? line = some t) :
    t.Faithful ∧ t.lexeme.toList = cs.take n := by
  have hformed := Form.formed_of_first? h
  generalize htext : cs.take n = text at ht hformed
  cases form with
  | string =>
    obtain rfl := Option.some.inj ht
    obtain ⟨-, hn, hlongest⟩ := Form.longest_of_first? h
    obtain ⟨body, -, hbody, -, hstring⟩ := Form.exists_string hlongest
    rw [← hn] at hstring
    obtain rfl : '"' :: body ++ ['"'] = text := hstring.symm.trans htext
    refine ⟨?_, by simp⟩
    have hinner : ('"' :: body ++ ['"']).tail.dropLast = body := by simp
    rw [hinner]
    exact faithful_string hbody line
  | number =>
    obtain rfl := Option.some.inj ht
    obtain ⟨c, r, rfl, hc⟩ : ∃ c r, text = c :: r ∧ Number.isDigit c = true := hformed
    exact ⟨faithful_number hc line, by simp⟩
  | word =>
    obtain rfl := Option.some.inj ht
    obtain ⟨c, r, rfl, hc, hr⟩ : ∃ c r, text = c :: r ∧ Form.startsWord c = true ∧
      r.all Form.inWord = true := hformed
    exact ⟨faithful_word hc hr line, by simp⟩
  | symbol kind spelling =>
    obtain rfl := Option.some.inj ht
    obtain ⟨rfl, hmem⟩ : text = spelling ∧ (kind, spelling) ∈ symbols := hformed
    exact ⟨faithful_symbol hmem line, by simp⟩
  | _ => cases ht

/-! ## Gaps go on -/

/-- The fault of a piece. -/
def Piece.fault? (p : Piece) : Option Fault :=
  match p.form, p.text with
  | .openString, _ => some .openString
  | .stray, c :: _ => some (.strayCharacter c)
  | _, _ => none

theorem Piece.report?_eq (p : Piece) (line : Int) :
    p.report? line = p.fault?.map (.ofFault line .unsaid) := by
  unfold report? fault?
  cases p.form with
  | stray => cases p.text <;> rfl
  | _ => rfl

/-- What gives a token is not reported. -/
theorem Piece.report?_of_token? {p : Piece} (h : p.token? line = some t) :
    p.report? line = none := by
  unfold token? at h
  unfold report?
  cases hform : p.form <;> rw [hform] at h <;> first | rfl | cases h

theorem Gap.blanks {blanks : List Char} (hblanks : ∀ c ∈ blanks, Form.isBlank c = true)
    (rest : Gap last gap faults) : Gap last (blanks ++ gap) faults := by
  induction blanks with
  | nil => exact rest
  | cons c blanks ih =>
    exact .blank (hblanks c List.mem_cons_self) (ih fun d hd => hblanks d (List.mem_cons_of_mem c hd))

/-- What follows a gap: the end of the source, or a lexeme. -/
def FollowsGap (last : Bool) (behind : List Char) : Prop :=
  (behind = [] ∧ last = true) ∨ ∃ c r, behind = c :: r ∧ beginsLexeme c = true

/-- A comment is followed by the end of its line, in the same gap. -/
theorem FollowsGap.endsLine (h : FollowsGap last behind)
    (hend : gap ++ behind = [] ∨ ∃ c r, gap ++ behind = c :: r ∧ decide (c ≠ '\n') = false) :
    (∃ r, gap = '\n' :: r) ∨ (gap = [] ∧ last = true) := by
  cases gap with
  | cons c r =>
    rcases hend with hnil | ⟨d, r', hcons, hd⟩
    · cases hnil
    · obtain ⟨rfl, -⟩ := List.cons.inj hcons
      exact Or.inl ⟨r, by simp_all⟩
  | nil =>
    rcases h with ⟨-, hlast⟩ | ⟨c, r, rfl, hc⟩
    · exact Or.inr ⟨rfl, hlast⟩
    · rcases hend with hnil | ⟨d, r', hcons, hd⟩
      · cases hnil
      · obtain ⟨rfl, -⟩ := List.cons.inj hcons
        have hbreak : beginsLexeme '\n' = false := by decide
        have hd : c = '\n' := by simpa using hd
        rw [hd, hbreak] at hc
        cases hc

theorem run_ne_zero {p : Char → Bool} (hc : p c = true) : Form.run p (c :: r) ≠ 0 := by
  simp [Form.run, hc]

/-- Every symbol begins with a symbol of one character. -/
theorem exists_symbol_singleton (h : symbols.any (fun (_, spelling) => spelling.head? = some c)) :
    ∃ kind, (kind, [c]) ∈ symbols := by
  have hsingle : ∀ s ∈ symbols, s.2.head?.all (fun d => symbols.any (·.2 = [d])) = true := by
    decide
  obtain ⟨s, hs, hc⟩ := List.any_eq_true.1 h
  have hall := hsingle s hs
  rw [of_decide_eq_true hc, Option.all_some] at hall
  obtain ⟨⟨kind, spelling⟩, hs', hspelling⟩ := List.any_eq_true.1 hall
  obtain rfl : spelling = [c] := by simpa using hspelling
  exact ⟨kind, hs'⟩

/-- Some form other than the last fits where a lexeme begins. -/
theorem exists_longest_ne_zero (h : beginsLexeme c = true) (r : List Char) :
    ∃ f ∈ Form.all, f ≠ .stray ∧ f.longest (c :: r) ≠ 0 := by
  unfold beginsLexeme at h
  simp only [Bool.or_eq_true, decide_eq_true_eq] at h
  rcases h with ((rfl | hdigit) | hword) | hsymbol
  · exact ⟨.openString, by simp [Form.all], by simp, by simp [Form.longest]⟩
  · refine ⟨.number, by simp [Form.all], by simp, ?_⟩
    have hrun := run_ne_zero (r := r) hdigit
    show Form.numberLength (c :: r) ≠ 0
    simp only [Form.numberLength]
    split
    · split
      · exact hrun
      · omega
    · exact hrun
  · exact ⟨.word, by simp [Form.all], by simp, by simp [Form.longest, hword]⟩
  · obtain ⟨kind, hkind⟩ := exists_symbol_singleton hsymbol
    refine ⟨.symbol kind [c], ?_, by simp, by simp [Form.longest]⟩
    simpa [Form.all] using hkind

/-- A stray character is no layout and begins no lexeme. -/
theorem isStray_of_first? (h : Form.first? cs = some (.stray, n)) :
    ∃ c r, cs = c :: r ∧ n = 1 ∧ isStray c = true := by
  obtain ⟨-, rfl, hlongest⟩ := Form.longest_of_first? h
  have hothers := Form.longest_of_stray h
  cases cs with
  | nil => exact absurd rfl hlongest
  | cons c r =>
    have hbreak : c ≠ '\n' := by
      rintro rfl
      exact absurd rfl hlongest
    have hblank : Form.isBlank c = false := by
      rw [Bool.eq_false_iff]
      exact fun hc => run_ne_zero hc (hothers .blank (by simp [Form.all]) (by simp))
    have hlexeme : beginsLexeme c = false := by
      rw [Bool.eq_false_iff]
      intro hc
      obtain ⟨f, hf, hne, hfits⟩ := exists_longest_ne_zero hc r
      exact hfits (hothers f hf hne)
    exact ⟨c, r, rfl, if_neg hbreak, by simp [isStray, hbreak, hblank, hlexeme]⟩

/-- A piece that is no token goes on with the gap behind it. -/
theorem Gap.of_first? (h : Form.first? cs = some (form, n))
    (htoken : (⟨form, cs.take n⟩ : Piece).token? line = none) (rest : Gap last gap faults)
    (hdrop : cs.drop n = gap ++ behind) (hbehind : FollowsGap last behind) :
    Gap last (cs.take n ++ gap) ((⟨form, cs.take n⟩ : Piece).fault?.toList ++ faults) := by
  obtain ⟨-, hn, hlongest⟩ := Form.longest_of_first? h
  cases form with
  | lineBreak =>
    cases cs with
    | nil => exact absurd rfl hlongest
    | cons c r =>
      by_cases hc : c = '\n'
      · subst hc
        obtain rfl : n = 1 := hn
        exact .lineBreak rest
      · simp [Form.longest, hc] at hlongest
  | blank =>
    have hn : n = Form.run Form.isBlank cs := hn
    rw [hn, Form.take_run]
    refine .blanks (fun c hc => ?_) rest
    exact List.all_eq_true.1 List.all_takeWhile c hc
  | comment =>
    obtain ⟨r, rfl⟩ : ∃ r, cs = '/' :: '/' :: r := by
      unfold Form.longest at hlongest
      split at hlongest <;> simp_all
    obtain rfl : n = 2 + Form.run (· ≠ '\n') r := hn
    rw [Nat.add_comm, List.drop_succ_cons, List.drop_succ_cons] at hdrop
    rw [Nat.add_comm, List.take_succ_cons, List.take_succ_cons, Form.take_run]
    have hbody : '\n' ∉ r.takeWhile (· ≠ '\n') := fun hmem =>
      absurd (List.all_eq_true.1 List.all_takeWhile _ hmem) (by simp)
    exact .comment hbody (hbehind.endsLine (hdrop ▸ Form.drop_run_eq _ r)) rest
  | openString =>
    cases cs with
    | nil => exact absurd rfl hlongest
    | cons c r =>
      by_cases hc : c = '"'
      · subst hc
        have hquote : '"' ∉ r := fun hmem => by
          rw [Form.first?_string hmem] at h
          cases h
        have hrun : Form.run (· ≠ '"') r = r.length :=
          Form.run_of_forall fun d hd => decide_eq_true fun hq => hquote (hq ▸ hd)
        obtain rfl : n = 1 + r.length := by rw [← hrun]; exact hn
        rw [Nat.add_comm, List.drop_succ_cons, List.drop_length] at hdrop
        obtain ⟨rfl, rfl⟩ := List.append_eq_nil_iff.1 hdrop.symm
        obtain rfl : faults = [] := by cases rest; rfl
        rw [Nat.add_comm, List.take_succ_cons, List.take_length, List.append_nil]
        refine .openString ?_ hquote
        rcases hbehind with ⟨-, hlast⟩ | ⟨c, r', hnil, -⟩
        · exact hlast
        · cases hnil
      · simp [Form.longest, hc] at hlongest
  | stray =>
    obtain ⟨c, r, rfl, rfl, hc⟩ := isStray_of_first? h
    exact .stray hc rest
  | _ => cases htoken

/-! ## Sources -/

theorem Arranges.lexeme {reports : List Report} {row : List Spaced} (ht : t.Faithful)
    (h : Arranges cs reports row gap faults) :
    Arranges (t.lexeme.toList ++ cs) reports (⟨[], [], t⟩ :: row) gap faults where
  source := by simp [Spaced.text, h.source]
  gaps := List.forall_mem_cons.2 ⟨.nil, h.gaps⟩
  last := h.last
  faithful := List.forall_mem_cons.2 ⟨ht, h.faithful⟩
  reports := h.reports

theorem Report.fault?_toList (fault? : Option Fault) (line : Int) :
    (fault?.map (Report.ofFault line .unsaid)).toList.map Report.fault? =
      fault?.toList.map some := by
  cases fault? <;> rfl

/-- A piece that is no token goes to the first gap. -/
theorem Arranges.fill {reports : List Report} {row : List Spaced}
    (h : Form.first? cs = some (form, n)) (htoken : (⟨form, cs.take n⟩ : Piece).token? line = none)
    (hrest : Arranges (cs.drop n) reports row gap faults) :
    ∃ row' gap' faults', Arranges cs
      (((⟨form, cs.take n⟩ : Piece).report? line).toList ++ reports) row' gap' faults' ∧
      row'.map Spaced.token = row.map Spaced.token := by
  have hcs := (List.take_append_drop n cs).symm
  rw [Piece.report?_eq]
  generalize hfault : (⟨form, cs.take n⟩ : Piece).fault? = fault?
  have hreports : ((fault?.map (Report.ofFault line .unsaid)).toList ++ reports).map
      Report.fault? = (fault?.toList ++ (row.flatMap Spaced.faults ++ faults)).map some := by
    rw [List.map_append, List.map_append, Report.fault?_toList, hrest.reports]
  cases row with
  | nil =>
    have hdrop : cs.drop n = gap ++ [] := by simpa using hrest.source
    have hgap := hrest.last.of_first? h htoken hdrop (Or.inl ⟨rfl, rfl⟩)
    rw [hfault] at hgap
    refine ⟨[], _, _, ⟨?_, by simp, hgap, by simp, by simpa using hreports⟩, rfl⟩
    simpa [hdrop] using hcs
  | cons s row =>
    obtain ⟨hsgap, hgaps⟩ := List.forall_mem_cons.1 hrest.gaps
    obtain ⟨hs, hfaithful⟩ := List.forall_mem_cons.1 hrest.faithful
    obtain ⟨c, r, hlexeme, hc⟩ := hs.begins
    have hdrop : cs.drop n = s.gap ++ (s.token.lexeme.toList ++ (row.flatMap Spaced.text ++ gap)) := by
      simpa [Spaced.text] using hrest.source
    have hgap := hsgap.of_first? h htoken hdrop (Or.inr ⟨c, _, by rw [hlexeme]; rfl, hc⟩)
    rw [hfault] at hgap
    refine ⟨⟨_, _, s.token⟩ :: row, gap, faults, ⟨?_, List.forall_mem_cons.2 ⟨hgap, hgaps⟩,
      hrest.last, List.forall_mem_cons.2 ⟨hs, hfaithful⟩, by simpa using hreports⟩, rfl⟩
    simpa [Spaced.text, hdrop] using hcs

/-- Pieces can be arranged as lexemes and gaps. -/
theorem exists_arranges (line : Int) (cs : List Char) :
    ∃ row gap faults, Arranges cs (reportsFrom line (pieces cs)) row gap faults ∧
      bodyFrom line (pieces cs) = row.map Spaced.token := by
  fun_induction pieces cs generalizing line with
  | case1 cs h =>
    obtain rfl := Form.first?_eq_none_iff.1 h
    exact ⟨[], [], [], ⟨rfl, by simp, .nil, by simp, rfl⟩, rfl⟩
  | case2 cs form n h shorter ih =>
    obtain ⟨row, gap, faults, hrest, hbody⟩ := ih (line + Piece.lineEnds ⟨form, cs.take n⟩)
    rw [bodyFrom, reportsFrom, hbody]
    cases htoken : (⟨form, cs.take n⟩ : Piece).token? (line + Piece.lineEnds ⟨form, cs.take n⟩) with
    | none =>
      obtain ⟨row', gap', faults', hall, htokens⟩ := hrest.fill h htoken
      exact ⟨row', gap', faults', hall, htokens.symm⟩
    | some t =>
      obtain ⟨hfaithful, htext⟩ := faithful_of_first? h htoken
      have hall := hrest.lexeme hfaithful
      rw [htext, List.take_append_drop] at hall
      rw [Piece.report?_of_token? htoken]
      exact ⟨⟨[], [], t⟩ :: row, gap, faults, hall, rfl⟩

/-- Scanning loses nothing.  Every source is scanned, as lexemes with gaps around them.  The lexemes
are those of the tokens, in order, and say what the tokens say; the one end is behind them.  The gaps
hold layout, stray characters and, where the source ends, at most one open string; and the reports
are those of the stray characters and of the open string, in order. -/
theorem scan_eq_gaps_and_lexemes (source : String) :
    ∃ row gap faults line,
      Arranges source.toList (scan source).reports row gap faults ∧
      (scan source).tokens = row.map Spaced.token ++ [.eof line] := by
  obtain ⟨row, gap, faults, hall, hbody⟩ := exists_arranges 1 source.toList
  exact ⟨row, gap, faults, _, hall, by rw [tokens_scan, body, hbody]⟩

end Lox
