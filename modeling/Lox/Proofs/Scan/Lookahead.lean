import Lox.Proofs.Scan.Spacing

/-!
# A scanner that looks at the next character

Scanning can be done without forms: a cursor goes through the source, decides by the character it
stands at what begins there, and looks no further than at the next one.  It takes blanks one by one,
goes through a string character by character to count lines, and has the marks of the language in
tables of its own.  Such a scanner gives the tokens and the reports that cutting into pieces gives
(`scanFrom_eq`), since the next piece is as long as any form allows.
-/

namespace Lox

namespace Lookahead

open Form (isBlank startsWord inWord)
open Number (isDigit)

/-! ## The scanner -/

/-- What one turn of the scanner gives: at most one token or report, and the line and the text from
which it goes on. -/
structure Turn where
  token? : Option Token
  report? : Option Report
  line : Int
  rest : List Char

/-- A turn over layout. -/
def Turn.skip (line : Int) (rest : List Char) : Turn := ⟨none, none, line, rest⟩

/-- A turn over a lexeme. -/
def Turn.token (kind : Kind) (lexeme : List Char) (literal : Value) (line : Int)
    (rest : List Char) : Turn :=
  ⟨some ⟨kind, String.ofList lexeme, literal, line⟩, none, line, rest⟩

/-- A turn with a report. -/
def Turn.fault (fault : Fault) (line : Int) (rest : List Char) : Turn :=
  ⟨none, some (.ofFault line .unsaid fault), line, rest⟩

/-- Marks of one character that no other goes with. -/
def mark? : Char → Option Kind
  | '(' => some .leftParen
  | ')' => some .rightParen
  | '{' => some .leftBrace
  | '}' => some .rightBrace
  | ',' => some .comma
  | '.' => some .dot
  | ';' => some .semicolon
  | '-' => some .minus
  | '+' => some .plus
  | '*' => some .star
  | _ => none

/-- Marks that mean something else with an equals sign behind them: what they mean alone, and what
they mean with it. -/
def comparison? : Char → Option (Kind × Kind)
  | '!' => some (.bang, .bangEqual)
  | '=' => some (.equal, .equalEqual)
  | '>' => some (.greater, .greaterEqual)
  | '<' => some (.less, .lessEqual)
  | _ => none

/-- Goes on behind a quote, up to the next one: what is between them, the line of the next one, and
what is behind it; if there is none, the line of the end. -/
def upToQuote (line : Int) : List Char → List Char × Int × Option (List Char)
  | [] => ([], line, none)
  | c :: r =>
    if c = '"' then ([], line, some r)
    else
      let (between, line, rest) := upToQuote (if c = '\n' then line + 1 else line) r
      (c :: between, line, rest)

/-- A number and what is behind it: digits, and a point only if the next character is a digit. -/
def splitNumber (cs : List Char) : List Char × List Char :=
  let whole := cs.takeWhile isDigit
  match cs.dropWhile isDigit with
  | '.' :: d :: r =>
    if isDigit d then (whole ++ '.' :: (d :: r).takeWhile isDigit, (d :: r).dropWhile isDigit)
    else (whole, '.' :: d :: r)
  | rest => (whole, rest)

/-- A turn at a quote. -/
def atQuote (line : Int) (r : List Char) : Turn :=
  match upToQuote line r with
  | (between, line, some rest) =>
    .token .string ('"' :: between ++ ['"']) (.string (String.ofList between)) line rest
  | (_, line, none) => .fault .openString line []

/-- A turn at a slash. -/
def atSlash (line : Int) (r : List Char) : Turn :=
  if r.head? = some '/' then .skip line (r.dropWhile (· ≠ '\n'))
  else .token .slash ['/'] .nil line r

/-- A turn at a mark that may go with an equals sign. -/
def atComparison (c : Char) (alone withEqual : Kind) (line : Int) (r : List Char) : Turn :=
  if r.head? = some '=' then .token withEqual [c, '='] .nil line r.tail
  else .token alone [c] .nil line r

/-- A turn at `c`, with `r` behind it. -/
def turn (line : Int) (c : Char) (r : List Char) : Turn :=
  if c = '\n' then .skip (line + 1) r
  else if isBlank c then .skip line r
  else if c = '/' then atSlash line r
  else if c = '"' then atQuote line r
  else if isDigit c then
    let (number, rest) := splitNumber (c :: r)
    .token .number number (.number (Number.ofSource number)) line rest
  else if startsWord c then
    let word := c :: r.takeWhile inWord
    .token (.ofWord (String.ofList word)) word .nil line (r.dropWhile inWord)
  else
    match comparison? c, mark? c with
    | some (alone, withEqual), _ => atComparison c alone withEqual line r
    | none, some kind => .token kind [c] .nil line r
    | none, none => .fault (.strayCharacter c) line r

/-! ## One turn is over the next piece -/

variable {c : Char} {cs r text rest : List Char} {form : Form} {line : Int} {t : Turn}

/-- The turn over a piece that begins on `line`. -/
def Turn.ofPiece (line : Int) (p : Piece) (rest : List Char) : Turn :=
  let line := line + p.lineEnds
  ⟨p.token? line, p.report? line, line, rest⟩

/-- The turn is over the next piece of `cs`. -/
def Turn.IsNext (t : Turn) (line : Int) (cs : List Char) : Prop :=
  ∃ form n, Form.first? cs = some (form, n) ∧ t = .ofPiece line ⟨form, cs.take n⟩ (cs.drop n)

theorem Turn.ofPiece_eq (h : '\n' ∉ text) : Turn.ofPiece line ⟨form, text⟩ rest =
    ⟨Piece.token? ⟨form, text⟩ line, Piece.report? ⟨form, text⟩ line, line, rest⟩ := by
  have hzero : Piece.lineEnds ⟨form, text⟩ = 0 := List.count_eq_zero.2 h
  simp [ofPiece, hzero]

/-- The forms that are tried before a form. -/
def tried (form : Form) : List Form := Form.all.takeWhile (· ≠ form)

theorem first?_of_tried (hform : form ∈ Form.all) (h : ∀ g ∈ tried form, g.longest cs = 0)
    (hne : form.longest cs ≠ 0) : Form.first? cs = some (form, form.longest cs) := by
  have hall := List.takeWhile_append_dropWhile (p := (· ≠ form)) (l := Form.all)
  have hhead := List.head?_dropWhile_not (fun f => decide (f ≠ form)) Form.all
  cases hrest : Form.all.dropWhile (· ≠ form) with
  | nil =>
    rw [hrest, List.append_nil] at hall
    exact absurd (List.mem_takeWhile_imp (hall ▸ hform)) (by simp)
  | cons g behind =>
    rw [hrest] at hhead hall
    obtain rfl : g = form := by simpa using hhead
    exact Form.first?_eq_some_iff.2 ⟨_, behind, hall.symm, rfl, hne, h⟩

/-- The case that the forms that are tried before do not begin with this character. -/
theorem first?_of_begins (hform : form ∈ Form.all) (h : ∀ g ∈ tried form, g.begins c = false)
    (hne : form.longest (c :: r) ≠ 0) :
    Form.first? (c :: r) = some (form, form.longest (c :: r)) :=
  first?_of_tried hform (fun g hg => Form.longest_eq_zero (h g hg) r) hne

theorem isNext_lineBreak : (Turn.skip (line + 1) r).IsNext line ('\n' :: r) :=
  ⟨.lineBreak, 1, rfl, rfl⟩

theorem isNext_comment :
    (Turn.skip line (r.dropWhile (· ≠ '\n'))).IsNext line ('/' :: '/' :: r) := by
  have hlongest : Form.comment.longest ('/' :: '/' :: r) = Form.run (· ≠ '\n') r + 2 :=
    Nat.add_comm _ _
  have htried : ∀ g ∈ tried .comment, g.begins '/' = false := by decide
  have hfirst := first?_of_begins (r := '/' :: r) (by decide) htried (by rw [hlongest]; omega)
  refine ⟨_, _, hfirst, ?_⟩
  rw [hlongest, List.take_succ_cons, List.take_succ_cons, List.drop_succ_cons,
    List.drop_succ_cons, Form.take_run, Form.drop_run, Turn.ofPiece_eq]
  · rfl
  · have hbody : '\n' ∉ r.takeWhile (· ≠ '\n') :=
      fun h => by simpa using List.mem_takeWhile_imp h
    rw [List.mem_cons, List.mem_cons, not_or, not_or]
    exact ⟨by decide, by decide, hbody⟩

/-- A symbol is taken where no form fits that is tried before. -/
theorem isNext_symbol {kind : Kind} {spelling : List Char} (hmem : (kind, spelling) ∈ symbols)
    (h : ∀ g ∈ tried (.symbol kind spelling), g.longest (spelling ++ r) = 0) :
    (Turn.token kind spelling .nil line r).IsNext line (spelling ++ r) := by
  have hsymbols : ∀ s ∈ symbols, s.2.length ≠ 0 ∧ '\n' ∉ s.2 := by decide
  obtain ⟨hne, hbreak⟩ := hsymbols _ hmem
  have hlongest := Form.longest_symbol kind spelling r
  have hform : Form.symbol kind spelling ∈ Form.all := by simpa [Form.all] using hmem
  refine ⟨_, _, first?_of_tried hform h (hlongest ▸ hne), ?_⟩
  rw [hlongest, List.take_left, List.drop_left, Turn.ofPiece_eq hbreak]
  rfl

theorem isNext_atSlash : (atSlash line r).IsNext line ('/' :: r) := by
  unfold atSlash
  split
  next h =>
    obtain ⟨s, rfl⟩ := List.head?_eq_some_iff.1 h
    exact isNext_comment
  next h =>
    have htried : ∀ g ∈ tried (.symbol .slash ['/']), g.begins '/' = false ∨ g = .comment := by
      decide
    have hmem : (.slash, ['/']) ∈ symbols := by decide
    refine isNext_symbol hmem fun g hg => ?_
    rcases htried g hg with hbegins | rfl
    · exact Form.longest_eq_zero hbegins r
    · refine Classical.byContradiction fun hne => h ?_
      obtain ⟨s, hs⟩ := Form.exists_comment hne
      obtain rfl : r = '/' :: s := (List.cons.inj hs).2
      rfl

/-- A mark that may go with an equals sign is tried with it first. -/
theorem tried_of_comparison? {alone withEqual : Kind}
    (h : comparison? c = some (alone, withEqual)) :
    (withEqual, [c, '=']) ∈ symbols ∧ (alone, [c]) ∈ symbols ∧
    (∀ g ∈ tried (.symbol withEqual [c, '=']), g.begins c = false) ∧
    ∀ g ∈ tried (.symbol alone [c]), g.begins c = false ∨ g = .symbol withEqual [c, '='] := by
  unfold comparison? at h
  split at h <;> cases h <;> decide

theorem isNext_atComparison {alone withEqual : Kind} (h : comparison? c = some (alone, withEqual)) :
    (atComparison c alone withEqual line r).IsNext line (c :: r) := by
  obtain ⟨hboth, halone, htriedBoth, htriedAlone⟩ := tried_of_comparison? h
  unfold atComparison
  split
  next hequal =>
    obtain ⟨s, rfl⟩ := List.head?_eq_some_iff.1 hequal
    exact isNext_symbol hboth fun g hg => Form.longest_eq_zero (htriedBoth g hg) _
  next hequal =>
    refine isNext_symbol halone fun g hg => ?_
    rcases htriedAlone g hg with hbegins | rfl
    · exact Form.longest_eq_zero hbegins r
    · refine Classical.byContradiction fun hne => hequal ?_
      obtain ⟨s, hs⟩ := Form.exists_symbol hne
      obtain rfl : r = '=' :: s := (List.cons.inj hs).2
      rfl

theorem isNext_mark {kind : Kind} (h : mark? c = some kind) :
    (Turn.token kind [c] .nil line r).IsNext line (c :: r) := by
  have hmark : (kind, [c]) ∈ symbols ∧ ∀ g ∈ tried (.symbol kind [c]), g.begins c = false := by
    unfold mark? at h
    split at h <;> cases h <;> decide
  exact isNext_symbol hmark.1 fun g hg => Form.longest_eq_zero (hmark.2 g hg) r

theorem upToQuote_closed {between : List Char} (h : '"' ∉ between) (line : Int) :
    upToQuote line (between ++ '"' :: r) = (between, line + between.count '\n', some r) := by
  induction between generalizing line with
  | nil => simp [upToQuote]
  | cons c between ih =>
    obtain ⟨hc, hbetween⟩ := List.ne_and_not_mem_of_not_mem_cons h
    simp only [List.cons_append, upToQuote, if_neg hc.symm, ih hbetween, List.count_cons]
    by_cases hbreak : c = '\n'
    · simp [hbreak]; omega
    · simp [hbreak]

theorem upToQuote_open (h : '"' ∉ r) (line : Int) :
    upToQuote line r = (r, line + r.count '\n', none) := by
  induction r generalizing line with
  | nil => simp [upToQuote]
  | cons c r ih =>
    obtain ⟨hc, hr⟩ := List.ne_and_not_mem_of_not_mem_cons h
    simp only [upToQuote, if_neg hc.symm, ih hr, List.count_cons]
    by_cases hbreak : c = '\n'
    · simp [hbreak]; omega
    · simp [hbreak]

theorem isNext_atQuote : (atQuote line r).IsNext line ('"' :: r) := by
  by_cases hmem : '"' ∈ r
  · obtain ⟨between, rest, rfl, hbetween⟩ := List.eq_append_cons_of_mem hmem
    have hlongest : Form.string.longest ('"' :: (between ++ '"' :: rest)) = between.length + 2 :=
      Form.longest_string hbetween
    have hlength : between.length + 2 = ('"' :: between ++ ['"']).length := by simp
    have hsource : '"' :: (between ++ '"' :: rest) = ('"' :: between ++ ['"']) ++ rest := by simp
    have htried : ∀ g ∈ tried .string, g.begins '"' = false := by decide
    refine ⟨_, _, first?_of_begins (by decide) htried (by rw [hlongest]; omega), ?_⟩
    rw [hlongest, hlength, hsource, List.take_left, List.drop_left]
    simp [atQuote, upToQuote_closed hbetween, Turn.ofPiece, Turn.token, Piece.lineEnds,
      Piece.token?, Piece.report?]
  · have hlength : Form.run (· ≠ '"') r = r.length :=
      Form.run_of_forall fun c hc => decide_eq_true fun hq => hmem (hq ▸ hc)
    refine ⟨_, _, Form.first?_openString hmem, ?_⟩
    rw [hlength, Nat.add_comm, ← List.length_cons (a := '"'), List.take_length, List.drop_length]
    simp [atQuote, upToQuote_open hmem, Turn.ofPiece, Turn.fault, Piece.lineEnds,
      Piece.token?, Piece.report?]

theorem splitNumber_eq (h : Form.run isDigit cs ≠ 0) :
    splitNumber cs = (cs.take (Form.numberLength cs), cs.drop (Form.numberLength cs)) := by
  have hsplit : ∀ n, n = Form.run isDigit cs →
      (cs.take n, cs.drop n) = (cs.takeWhile isDigit, cs.dropWhile isDigit) := by
    rintro n rfl
    rw [Form.take_run, Form.drop_run]
  unfold splitNumber
  split
  next d r hpoint =>
    split
    next hd =>
      have hlength := Form.numberLength_of_point h ((Form.drop_run _ _).trans hpoint)
        (run_ne_zero hd)
      have hdrop := (Form.drop_run isDigit cs).trans hpoint
      rw [hlength, List.take_add, ← List.drop_drop, hdrop, List.take_succ_cons,
        List.drop_succ_cons, Form.take_run, Form.take_run, Form.drop_run]
    next hd =>
      rw [hsplit, hpoint]
      refine Form.numberLength_of_run fun s hs => ?_
      have hrest := hpoint.symm.trans ((Form.drop_run _ _).symm.trans hs)
      obtain rfl : d :: r = s := (List.cons.inj hrest).2
      exact congrArg List.length (List.takeWhile_cons_of_neg hd)
  next hpoint =>
    rw [hsplit]
    refine Form.numberLength_of_run fun s hs => ?_
    cases s with
    | nil => rfl
    | cons d s => exact absurd ((Form.drop_run _ _).symm.trans hs) (hpoint d s)

theorem not_mem_of_mem_number (h : text ∈ Form.number.language) : '\n' ∉ text := by
  have hdigits : ∀ {digits}, digits ∈ Form.digits → '\n' ∉ digits := fun h hmem =>
    absurd ((Form.mem_digits.1 h).2 _ hmem) (by decide)
  rcases Form.mem_number.1 h with h | ⟨whole, hwhole, places, hplaces, rfl⟩
  · exact hdigits h
  · rw [List.mem_append, List.mem_cons, not_or, not_or]
    exact ⟨hdigits hwhole, by decide, hdigits hplaces⟩

theorem isNext_number (htried : ∀ g ∈ tried .number, g.begins c = false) (hc : isDigit c = true) :
    let (number, rest) := splitNumber (c :: r)
    (Turn.token .number number (.number (Number.ofSource number)) line rest).IsNext
      line (c :: r) := by
  have hrun : Form.run isDigit (c :: r) ≠ 0 := run_ne_zero hc
  have hne : Form.number.longest (c :: r) ≠ 0 := by
    have hle := Form.run_le_numberLength (c :: r)
    show Form.numberLength (c :: r) ≠ 0
    omega
  rw [splitNumber_eq hrun]
  refine ⟨_, _, first?_of_begins (by decide) htried hne, ?_⟩
  rw [Turn.ofPiece_eq (not_mem_of_mem_number (Form.take_longest_mem hne))]
  rfl

theorem isNext_word (htried : ∀ g ∈ tried .word, g.begins c = false) (hc : startsWord c = true) :
    (Turn.token (.ofWord (String.ofList (c :: r.takeWhile inWord))) (c :: r.takeWhile inWord) .nil
      line (r.dropWhile inWord)).IsNext line (c :: r) := by
  have hlongest : Form.word.longest (c :: r) = Form.run inWord r + 1 := by
    simp [Form.longest, hc, Nat.add_comm]
  have hbreak : '\n' ∉ c :: r.takeWhile inWord := by
    rw [List.mem_cons, not_or]
    refine ⟨?_, fun h => absurd (List.mem_takeWhile_imp h) (by decide)⟩
    rintro rfl
    exact absurd hc (by decide)
  refine ⟨_, _, first?_of_begins (by decide) htried (by rw [hlongest]; omega), ?_⟩
  rw [hlongest, List.take_succ_cons, List.drop_succ_cons, Form.take_run, Form.drop_run,
    Turn.ofPiece_eq hbreak]
  rfl

theorem isNext_stray (htried : ∀ g ∈ tried .stray, g.begins c = false) (hc : c ≠ '\n') :
    (Turn.fault (.strayCharacter c) line r).IsNext line (c :: r) := by
  have hlongest : Form.stray.longest (c :: r) = 1 := if_neg hc
  refine ⟨_, _, first?_of_begins (by decide) htried (by rw [hlongest]; omega), ?_⟩
  rw [hlongest, List.take_succ_cons, List.drop_succ_cons, List.take_zero, List.drop_zero,
    Turn.ofPiece_eq (by simpa using hc.symm)]
  rfl

/-- A stray character is tried last. -/
theorem tried_stray : tried .stray =
    [.lineBreak, .blank, .comment, .string, .openString, .number, .word] ++
      symbols.map fun (kind, spelling) => .symbol kind spelling := by
  decide

/-- A symbol begins with a slash, or with a character of the tables. -/
theorem begins_symbol {kind : Kind} {spelling : List Char} (hmem : (kind, spelling) ∈ symbols)
    (h : (Form.symbol kind spelling).begins c = true) :
    c = '/' ∨ comparison? c ≠ none ∨ mark? c ≠ none := by
  have hsymbols : ∀ s ∈ symbols, s.2.head? = some '/' ∨
      s.2.head?.bind comparison? ≠ none ∨ s.2.head?.bind mark? ≠ none := by decide
  have hhead : spelling.head? = some c := of_decide_eq_true h
  simpa [hhead] using hsymbols _ hmem

/-- A turn at anything but a blank is over the next piece. -/
theorem isNext_turn (hblank : isBlank c = false) : (turn line c r).IsNext line (c :: r) := by
  unfold turn
  split
  next hbreak =>
    subst hbreak
    exact isNext_lineBreak
  next hbreak =>
  rw [if_neg (by simp [hblank])]
  split
  next hslash =>
    subst hslash
    exact isNext_atSlash
  next hslash =>
  split
  next hquote =>
    subst hquote
    exact isNext_atQuote
  next hquote =>
  have hlayout : ∀ g ∈ [Form.lineBreak, .blank, .comment, .string, .openString],
      g.begins c = false := by
    simp [Form.begins, hbreak, hblank, hslash, hquote]
  split
  next hdigit => exact isNext_number hlayout hdigit
  next hdigit =>
  have hbefore : ∀ g ∈ [Form.lineBreak, .blank, .comment, .string, .openString, .number],
      g.begins c = false := by
    simp [Form.begins, hbreak, hblank, hslash, hquote, hdigit]
  split
  next hword => exact isNext_word hbefore hword
  next hword =>
  split
  next hmark => exact isNext_atComparison hmark
  next hmark => exact isNext_mark hmark
  next hcomparison hmark =>
    refine isNext_stray (fun g hg => Bool.eq_false_iff.2 fun hg' => ?_) hbreak
    rw [tried_stray, List.mem_append, List.mem_map] at hg
    rcases hg with hg | ⟨⟨kind, spelling⟩, hmem, rfl⟩
    · have hclasses : ∀ g ∈ [Form.lineBreak, .blank, .comment, .string, .openString, .number,
          .word], g.begins c = false := by
        simp [Form.begins, hbreak, hblank, hslash, hquote, hdigit, hword]
      rw [hclasses g hg] at hg'
      cases hg'
    · rcases begins_symbol hmem hg' with h | h | h
      · exact hslash h
      · exact h hcomparison
      · exact h hmark

theorem turn_of_isBlank (hblank : isBlank c = true) : turn line c r = .skip line r := by
  have hbreak : c ≠ '\n' := by
    rintro rfl
    cases hblank
  rw [turn, if_neg hbreak, if_pos hblank]

/-- A turn goes on behind the character it stands at. -/
theorem length_rest_le (line : Int) (c : Char) (r : List Char) :
    (turn line c r).rest.length ≤ r.length := by
  by_cases hblank : isBlank c = true
  · rw [turn_of_isBlank hblank]
    exact Nat.le_refl _
  · have hnext : (turn line c r).IsNext line (c :: r) :=
      isNext_turn (Bool.eq_false_iff.2 hblank)
    obtain ⟨form, n, hfirst, hturn⟩ := hnext
    have hpos := (Form.length_of_first? hfirst).1
    rw [hturn]
    show ((c :: r).drop n).length ≤ r.length
    rw [List.length_drop, List.length_cons]
    omega

/-! ## The whole source -/

/-- The scanner goes on from each turn to the next, up to the end. -/
def scanFrom (line : Int) : List Char → Scan
  | [] => ⟨[Token.eof line], []⟩
  | c :: r =>
    let t := turn line c r
    let behind := scanFrom t.line t.rest
    ⟨t.token?.toList ++ behind.tokens, t.report?.toList ++ behind.reports⟩
termination_by cs => cs.length
decreasing_by exact Nat.lt_succ_of_le (length_rest_le line c r)

/-- Scans a source from its first line on. -/
def scan (source : String) : Scan := scanFrom 1 source.toList

end Lookahead

/-- What scanning gives for a text that begins on `line`. -/
def scannedFrom (line : Int) (cs : List Char) : Scan :=
  ⟨tokensFrom line (pieces cs), reportsFrom line (pieces cs)⟩

variable {c : Char} {cs r : List Char} {line : Int} {t : Lookahead.Turn}

theorem scannedFrom_of_isNext (h : t.IsNext line cs) :
    scannedFrom line cs = ⟨t.token?.toList ++ (scannedFrom t.line t.rest).tokens,
      t.report?.toList ++ (scannedFrom t.line t.rest).reports⟩ := by
  obtain ⟨form, n, hfirst, rfl⟩ := h
  rw [scannedFrom, pieces_of_first? hfirst]
  rfl

/-- Blanks at the start of a text do not matter. -/
theorem scannedFrom_dropWhile (line : Int) (cs : List Char) :
    scannedFrom line (cs.dropWhile Form.isBlank) = scannedFrom line cs := by
  cases cs with
  | nil => rfl
  | cons c r =>
    by_cases hc : Form.isBlank c = true
    · have hnext : (Lookahead.Turn.skip line ((c :: r).dropWhile Form.isBlank)).IsNext
          line (c :: r) := by
        refine ⟨_, _, Form.first?_blank hc, ?_⟩
        rw [Form.take_run, Form.drop_run, Lookahead.Turn.ofPiece_eq]
        · rfl
        · exact fun h => absurd (List.mem_takeWhile_imp h) (by decide)
      exact (scannedFrom_of_isNext hnext).symm
    · rw [List.dropWhile_cons_of_neg hc]

theorem scannedFrom_blank (hc : Form.isBlank c = true) (line : Int) :
    scannedFrom line (c :: r) = scannedFrom line r := by
  rw [← scannedFrom_dropWhile, List.dropWhile_cons_of_pos hc, scannedFrom_dropWhile]

/-- The scanner that looks at the next character gives the same tokens and reports. -/
theorem scanFrom_eq (line : Int) (cs : List Char) :
    Lookahead.scanFrom line cs = scannedFrom line cs := by
  fun_induction Lookahead.scanFrom line cs with
  | case1 line =>
    rw [scannedFrom, pieces_nil]
    rfl
  | case2 line c r t behind ih =>
    have hbehind : behind = scannedFrom t.line t.rest := ih
    rw [hbehind]
    by_cases hblank : Form.isBlank c = true
    · have hturn : t = .skip line r := Lookahead.turn_of_isBlank hblank
      rw [hturn, scannedFrom_blank hblank]
      rfl
    · exact (scannedFrom_of_isNext (Lookahead.isNext_turn (Bool.eq_false_iff.2 hblank))).symm

/-- The next piece is the longest text that any form has there, and of the forms that have it, it is
given the first; and the scanner that looks no further than at the next character gives the same
tokens and the same reports as cutting into such pieces. -/
theorem maximal_munch :
    (∀ c r, ∃ form text rest, c :: r = text ++ rest ∧
      Form.first? (c :: r) = some (form, text.length) ∧
      pieces (c :: r) = ⟨form, text⟩ :: pieces rest ∧ Form.Munches (c :: r) form text) ∧
    ∀ source, Lookahead.scan source = scan source := by
  refine ⟨fun c r => ?_, fun source => scanFrom_eq 1 source.toList⟩
  obtain ⟨⟨form, n⟩, hfirst⟩ := Option.ne_none_iff_exists'.1
    (Form.first?_eq_none_iff.not.2 (List.cons_ne_nil c r))
  have hle := (Form.length_of_first? hfirst).2
  have hlength : ((c :: r).take n).length = n := List.length_take_of_le hle
  exact ⟨form, _, (c :: r).drop n, (List.take_append_drop n _).symm, hlength.symm ▸ hfirst,
    pieces_of_first? hfirst, Form.munches_of_first? hfirst⟩

end Lox
