import Mathlib.Computability.Language
import Mathlib.Data.List.TakeWhile
import Lox.Proofs.Scan.Gaps

/-!
# The next piece is as long as any form allows

Each form is a language (`Form.language`), and a form reaches over the longest text of its language
at the start of a source (`take_longest_mem`, `length_le_longest`).  The forms are tried in a fixed
order, and the first that fits is taken.  A later one might reach further; but the forms overlap only
where the earlier one reaches as far (`pairwise_covers`).  So the next piece is the longest text that
any form has there, and of the forms that have it, it is given the first (`munches_of_first?`).
-/

namespace Lox

open scoped Computability

namespace Form

variable {cs r text : List Char} {c : Char} {f g : Form} {n : Nat} {p : Char → Bool}

/-! ## Languages of the forms -/

/-- The texts of one character that satisfies `p`. -/
def oneOf (p : Char → Bool) : Language Char := {text | ∃ c, p c = true ∧ text = [c]}

/-- One text and no other. -/
def just (text : List Char) : Language Char := {text}

/-- Digits, at least one. -/
def digits : Language Char := oneOf Number.isDigit * (oneOf Number.isDigit)∗

/-- The texts of a form. -/
def language : Form → Language Char
  | lineBreak => just ['\n']
  | blank => oneOf isBlank * (oneOf isBlank)∗
  | comment => just ['/', '/'] * (oneOf (· ≠ '\n'))∗
  | string => just ['"'] * (oneOf (· ≠ '"'))∗ * just ['"']
  | openString => just ['"'] * (oneOf (· ≠ '"'))∗
  | number => digits * (1 + just ['.'] * digits)
  | word => oneOf startsWord * (oneOf inWord)∗
  | symbol _ spelling => just spelling
  | stray => oneOf (· ≠ '\n')

theorem mem_just {spelling : List Char} : text ∈ just spelling ↔ text = spelling := Iff.rfl

theorem mem_just_mul {spelling : List Char} {l : Language Char} :
    text ∈ just spelling * l ↔ ∃ rest ∈ l, text = spelling ++ rest := by
  rw [Language.mem_mul]
  constructor
  · rintro ⟨_, rfl, rest, hrest, rfl⟩
    exact ⟨rest, hrest, rfl⟩
  · rintro ⟨rest, hrest, rfl⟩
    exact ⟨spelling, rfl, rest, hrest, rfl⟩

theorem mem_oneOf_mul {l : Language Char} :
    text ∈ oneOf p * l ↔ ∃ c, p c = true ∧ ∃ rest ∈ l, text = c :: rest := by
  rw [Language.mem_mul]
  constructor
  · rintro ⟨_, ⟨c, hc, rfl⟩, rest, hrest, rfl⟩
    exact ⟨c, hc, rest, hrest, rfl⟩
  · rintro ⟨c, hc, rest, hrest, rfl⟩
    exact ⟨[c], ⟨c, hc, rfl⟩, rest, hrest, rfl⟩

theorem mem_kstar_oneOf : text ∈ (oneOf p)∗ ↔ ∀ c ∈ text, p c = true := by
  rw [Language.mem_kstar]
  constructor
  · rintro ⟨texts, rfl, htexts⟩ c hc
    obtain ⟨one, hone, hmem⟩ := List.mem_flatten.1 hc
    obtain ⟨d, hd, rfl⟩ := htexts one hone
    exact List.mem_singleton.1 hmem ▸ hd
  · intro h
    refine ⟨text.map fun c => [c], (List.flatMap_singleton' text).symm, fun one hone => ?_⟩
    obtain ⟨c, hc, rfl⟩ := List.mem_map.1 hone
    exact ⟨c, h c hc, rfl⟩

/-- At least one character, all of them of one class. -/
theorem mem_oneOf_mul_kstar :
    text ∈ oneOf p * (oneOf p)∗ ↔ text ≠ [] ∧ ∀ c ∈ text, p c = true := by
  simp only [mem_oneOf_mul, mem_kstar_oneOf]
  constructor
  · rintro ⟨c, hc, rest, hrest, rfl⟩
    exact ⟨by simp, List.forall_mem_cons.2 ⟨hc, hrest⟩⟩
  · rintro ⟨hne, h⟩
    obtain ⟨c, rest, rfl⟩ := List.exists_cons_of_ne_nil hne
    obtain ⟨hc, hrest⟩ := List.forall_mem_cons.1 h
    exact ⟨c, hc, rest, hrest, rfl⟩

theorem mem_digits : text ∈ digits ↔ text ≠ [] ∧ ∀ c ∈ text, Number.isDigit c = true :=
  mem_oneOf_mul_kstar

/-- A number is digits, or digits, a point and more digits. -/
theorem mem_number : text ∈ number.language ↔
    text ∈ digits ∨ ∃ whole ∈ digits, ∃ places ∈ digits, text = whole ++ '.' :: places := by
  simp only [language, mul_add, mul_one, Language.mem_add, Language.mem_mul (l := digits),
    mem_just_mul]
  refine or_congr_right ⟨?_, ?_⟩
  · rintro ⟨whole, hwhole, _, ⟨places, hplaces, rfl⟩, rfl⟩
    exact ⟨whole, hwhole, places, hplaces, rfl⟩
  · rintro ⟨whole, hwhole, places, hplaces, rfl⟩
    exact ⟨whole, hwhole, '.' :: places, ⟨places, hplaces, rfl⟩, rfl⟩

/-! ## A form reaches over the longest text of its language -/

/-- A run goes on as far as all characters satisfy `p`. -/
theorem length_le_run (hstart : text <+: cs) (h : ∀ c ∈ text, p c = true) :
    text.length ≤ run p cs := by
  obtain ⟨behind, rfl⟩ := hstart
  rw [run, List.takeWhile_append_of_pos h, List.length_append]
  exact Nat.le_add_right _ _

theorem length_take_longest (f : Form) (cs : List Char) :
    (cs.take (f.longest cs)).length = f.longest cs :=
  List.length_take_of_le (longest_le f cs)

theorem longest_symbol (kind : Kind) (spelling r : List Char) :
    (symbol kind spelling).longest (spelling ++ r) = spelling.length :=
  if_pos (List.isPrefixOf_iff_prefix.2 (List.prefix_append spelling r))

theorem exists_symbol {kind : Kind} {spelling : List Char}
    (h : (symbol kind spelling).longest cs ≠ 0) : ∃ r, cs = spelling ++ r := by
  by_cases hs : spelling.isPrefixOf cs = true
  · obtain ⟨r, rfl⟩ := List.isPrefixOf_iff_prefix.1 hs
    exact ⟨r, rfl⟩
  · exact absurd (if_neg hs) h

/-- A number goes on behind a point if a digit follows it. -/
theorem numberLength_of_point (hwhole : run Number.isDigit cs ≠ 0)
    (hpoint : cs.drop (run Number.isDigit cs) = '.' :: r) (hplaces : run Number.isDigit r ≠ 0) :
    numberLength cs = run Number.isDigit cs + (run Number.isDigit r + 1) := by
  simp only [numberLength, hpoint, if_neg (not_or.2 ⟨hwhole, hplaces⟩)]
  omega

/-- Otherwise it ends with the digits. -/
theorem numberLength_of_run
    (h : ∀ r, cs.drop (run Number.isDigit cs) = '.' :: r → run Number.isDigit r = 0) :
    numberLength cs = run Number.isDigit cs := by
  simp only [numberLength]
  split
  next r hpoint => rw [if_pos (Or.inr (h r hpoint))]
  next => rfl

theorem take_numberLength_mem (h : numberLength cs ≠ 0) :
    cs.take (numberLength cs) ∈ number.language := by
  have hrun : run Number.isDigit cs ≠ 0 := by
    intro hzero
    refine h ?_
    simp only [numberLength, hzero]
    split <;> rfl
  have hwhole : cs.takeWhile Number.isDigit ∈ digits :=
    mem_digits.2 ⟨fun hnil => hrun (congrArg List.length hnil), fun _ => List.mem_takeWhile_imp⟩
  by_cases hpoint : ∃ r, cs.drop (run Number.isDigit cs) = '.' :: r ∧ run Number.isDigit r ≠ 0
  · obtain ⟨r, hr, hrunPlaces⟩ := hpoint
    have hplaces : r.takeWhile Number.isDigit ∈ digits :=
      mem_digits.2 ⟨fun hnil => hrunPlaces (congrArg List.length hnil),
        fun _ => List.mem_takeWhile_imp⟩
    rw [numberLength_of_point hrun hr hrunPlaces, List.take_add, hr, List.take_succ_cons,
      take_run, take_run]
    exact mem_number.2 (Or.inr ⟨_, hwhole, _, hplaces, rfl⟩)
  · have hlength : numberLength cs = run Number.isDigit cs :=
      numberLength_of_run fun r hr => Classical.byContradiction fun hne => hpoint ⟨r, hr, hne⟩
    rw [hlength, take_run]
    exact mem_number.2 (Or.inl hwhole)

theorem run_le_numberLength (cs : List Char) : run Number.isDigit cs ≤ numberLength cs := by
  simp only [numberLength]
  split
  · split <;> omega
  · exact Nat.le_refl _

theorem le_numberLength_point {whole places : List Char} (hwhole : whole ∈ digits)
    (hplaces : places ∈ digits) (behind : List Char) :
    whole.length + 1 + places.length ≤ numberLength (whole ++ '.' :: (places ++ behind)) := by
  obtain ⟨hne, hall⟩ := mem_digits.1 hwhole
  obtain ⟨hplacesNe, hplacesAll⟩ := mem_digits.1 hplaces
  have hrun := run_append_cons (b := places ++ behind) hall (c := '.') (by decide)
  have hplacesRun := length_le_run (List.prefix_append places behind) hplacesAll
  have hwholePos := List.length_pos_of_ne_nil hne
  have hplacesPos := List.length_pos_of_ne_nil hplacesNe
  have hnot : ¬ (whole.length = 0 ∨ run Number.isDigit (places ++ behind) = 0) := by omega
  simp only [numberLength, hrun, List.drop_left, if_neg hnot]
  omega

/-- What a form reaches over is a text of the form. -/
theorem take_longest_mem (h : f.longest cs ≠ 0) : cs.take (f.longest cs) ∈ f.language := by
  cases f with
  | lineBreak =>
    obtain ⟨r, rfl⟩ := exists_lineBreak h
    rfl
  | blank =>
    refine mem_oneOf_mul_kstar.2 ⟨?_, ?_⟩
    · exact List.ne_nil_of_length_pos (by rw [length_take_longest]; omega)
    · show ∀ c ∈ cs.take (run isBlank cs), _
      rw [take_run]
      exact fun _ => List.mem_takeWhile_imp
  | comment =>
    obtain ⟨r, rfl⟩ := exists_comment h
    refine mem_just_mul.2 ⟨r.takeWhile (· ≠ '\n'), ?_, ?_⟩
    · exact mem_kstar_oneOf.2 fun _ => List.mem_takeWhile_imp
    · show ('/' :: '/' :: r).take (2 + run (· ≠ '\n') r) = _
      rw [Nat.add_comm 2, List.take_succ_cons, List.take_succ_cons, take_run]
      rfl
  | string =>
    obtain ⟨body, behind, hbody, -, htake⟩ := exists_string h
    rw [htake]
    refine Language.append_mem_mul (mem_just_mul.2 ⟨body, ?_, rfl⟩) rfl
    exact mem_kstar_oneOf.2 fun c hc => decide_eq_true fun hq => hbody (hq ▸ hc)
  | openString =>
    obtain ⟨r, rfl⟩ := exists_openString h
    refine mem_just_mul.2 ⟨r.takeWhile (· ≠ '"'), ?_, ?_⟩
    · exact mem_kstar_oneOf.2 fun _ => List.mem_takeWhile_imp
    · show ('"' :: r).take (1 + run (· ≠ '"') r) = _
      rw [Nat.add_comm 1, List.take_succ_cons, take_run]
      rfl
  | number => exact take_numberLength_mem h
  | word =>
    obtain ⟨c, r, rfl, hc⟩ := exists_word h
    refine mem_oneOf_mul.2 ⟨c, hc, r.takeWhile inWord, ?_, ?_⟩
    · exact mem_kstar_oneOf.2 fun _ => List.mem_takeWhile_imp
    · have hlongest : word.longest (c :: r) = 1 + run inWord r := if_pos hc
      rw [hlongest, Nat.add_comm 1, List.take_succ_cons, take_run]
  | symbol kind spelling =>
    obtain ⟨r, rfl⟩ := exists_symbol h
    rw [longest_symbol, List.take_left]
    rfl
  | stray =>
    obtain ⟨c, r, rfl, hc⟩ := exists_stray h
    exact ⟨c, decide_eq_true hc, by simp [longest, hc]⟩

/-- No text of a form is longer than what the form reaches over. -/
theorem length_le_longest (hstart : text <+: cs) (h : text ∈ f.language) :
    text.length ≤ f.longest cs := by
  obtain ⟨behind, rfl⟩ := hstart
  cases f with
  | lineBreak =>
    obtain rfl := mem_just.1 h
    exact Nat.le_refl 1
  | blank => exact length_le_run (List.prefix_append _ _) (mem_oneOf_mul_kstar.1 h).2
  | comment =>
    obtain ⟨body, hbody, rfl⟩ := mem_just_mul.1 h
    have hrun := length_le_run (List.prefix_append body behind) (mem_kstar_oneOf.1 hbody)
    show body.length + 2 ≤ 2 + run _ (body ++ behind)
    omega
  | string =>
    obtain ⟨_, hopen, _, rfl, rfl⟩ := Language.mem_mul.1 h
    obtain ⟨body, hbody, rfl⟩ := mem_just_mul.1 hopen
    have hquote : '"' ∉ body := fun hq => by simpa using mem_kstar_oneOf.1 hbody _ hq
    have hlongest : string.longest ('"' :: (body ++ '"' :: behind)) = body.length + 2 :=
      longest_string hquote
    have hcs : ['"'] ++ body ++ ['"'] ++ behind = '"' :: (body ++ '"' :: behind) := by simp
    have hlength : (['"'] ++ body ++ ['"']).length = body.length + 2 := by simp
    rw [hcs, hlongest, hlength]
  | openString =>
    obtain ⟨body, hbody, rfl⟩ := mem_just_mul.1 h
    have hrun := length_le_run (List.prefix_append body behind) (mem_kstar_oneOf.1 hbody)
    show body.length + 1 ≤ 1 + run _ (body ++ behind)
    omega
  | number =>
    rcases mem_number.1 h with h | ⟨whole, hwhole, places, hplaces, rfl⟩
    · have hrun := length_le_run (List.prefix_append text behind) (mem_digits.1 h).2
      exact hrun.trans (run_le_numberLength _)
    · have hnumber := le_numberLength_point hwhole hplaces behind
      show (whole ++ '.' :: places).length ≤ numberLength ((whole ++ '.' :: places) ++ behind)
      simpa [Nat.add_assoc, Nat.add_comm 1] using hnumber
  | word =>
    obtain ⟨c, hc, rest, hrest, rfl⟩ := mem_oneOf_mul.1 h
    have hrun := length_le_run (List.prefix_append rest behind) (mem_kstar_oneOf.1 hrest)
    have hlongest : word.longest (c :: rest ++ behind) = 1 + run inWord (rest ++ behind) :=
      if_pos hc
    rw [hlongest, List.length_cons]
    omega
  | symbol kind spelling =>
    obtain rfl := mem_just.1 h
    exact (longest_symbol _ _ _).ge
  | stray =>
    obtain ⟨c, hc, rfl⟩ := h
    exact (if_neg (of_decide_eq_true hc)).ge

/-- With more text behind, a form reaches no less far. -/
theorem longest_le_of_prefix {a b : List Char} (h : a <+: b) (f : Form) :
    f.longest a ≤ f.longest b := by
  by_cases ha : f.longest a = 0
  · omega
  · have hstart : a.take (f.longest a) <+: b := (List.take_prefix _ a).trans h
    simpa only [length_take_longest] using length_le_longest hstart (take_longest_mem ha)

/-- What a form reaches over, alone, is the longest text of the form. -/
theorem longest_take (f : Form) (cs : List Char) :
    f.longest (cs.take (f.longest cs)) = f.longest cs := by
  by_cases h : f.longest cs = 0
  · have hle := longest_le f (cs.take (f.longest cs))
    rw [length_take_longest] at hle
    omega
  · have hle := longest_le f (cs.take (f.longest cs))
    have hge := length_le_longest List.prefix_rfl (take_longest_mem h)
    rw [length_take_longest] at hle hge
    omega

/-! ## Earlier forms reach as far as later ones -/

/-- Can a text of the form begin with the character? -/
def begins : Form → Char → Bool
  | lineBreak, c => c = '\n'
  | blank, c => isBlank c
  | comment, c => c = '/'
  | string, c | openString, c => c = '"'
  | number, c => Number.isDigit c
  | word, c => startsWord c
  | symbol _ spelling, c => spelling.head? = some c
  | stray, c => c ≠ '\n'

theorem begins_of_longest (h : f.longest (c :: r) ≠ 0) : f.begins c = true := by
  cases f with
  | lineBreak =>
    obtain ⟨r, hr⟩ := exists_lineBreak h
    exact decide_eq_true (List.cons.inj hr).1
  | blank =>
    refine Classical.byContradiction fun hc => h ?_
    exact congrArg List.length (List.takeWhile_cons_of_neg hc)
  | comment =>
    obtain ⟨r, hr⟩ := exists_comment h
    exact decide_eq_true (List.cons.inj hr).1
  | string =>
    obtain ⟨body, behind, -, hr, -⟩ := exists_string h
    exact decide_eq_true (List.cons.inj hr).1
  | openString =>
    obtain ⟨r, hr⟩ := exists_openString h
    exact decide_eq_true (List.cons.inj hr).1
  | number => exact isDigit_of_numberLength h
  | word =>
    obtain ⟨d, r, hr, hd⟩ := exists_word h
    exact (List.cons.inj hr).1 ▸ hd
  | symbol kind spelling =>
    obtain ⟨r, hr⟩ := exists_symbol h
    cases spelling with
    | nil => exact absurd rfl h
    | cons d spelling => exact decide_eq_true (congrArg some (List.cons.inj hr).1.symm)
  | stray =>
    obtain ⟨d, r, hr, hd⟩ := exists_stray h
    exact decide_eq_true ((List.cons.inj hr).1 ▸ hd)

theorem longest_eq_zero (h : f.begins c = false) (r : List Char) : f.longest (c :: r) = 0 := by
  refine Classical.byContradiction fun hne => ?_
  rw [begins_of_longest hne] at h
  cases h

/-- Wherever the one form fits, the other reaches no further. -/
def Covers (f g : Form) : Prop := ∀ cs, f.longest cs ≠ 0 → g.longest cs ≤ f.longest cs

theorem Covers.of_disjoint (h : ∀ c, f.begins c = true → g.begins c = false) : f.Covers g := by
  intro cs hf
  cases cs with
  | nil => exact (longest_le g []).trans (Nat.zero_le _)
  | cons c r =>
    rw [longest_eq_zero (h c (begins_of_longest hf))]
    exact Nat.zero_le _

/-- The case of a form that only texts with one first character have. -/
theorem Covers.of_first {d : Char} (hf : ∀ c, f.begins c = true → c = d)
    (hg : g.begins d = false) : f.Covers g :=
  .of_disjoint fun c hc => hf c hc ▸ hg

theorem Covers.of_short (h : ∀ cs, g.longest cs ≤ 1) (f : Form) : f.Covers g :=
  fun cs hf => (h cs).trans (Nat.one_le_iff_ne_zero.2 hf)

theorem longest_stray_le (cs : List Char) : stray.longest cs ≤ 1 := by
  cases cs with
  | nil => exact Nat.zero_le _
  | cons c r =>
    simp only [longest]
    split <;> omega

theorem longest_symbol_le (kind : Kind) (spelling cs : List Char) :
    (symbol kind spelling).longest cs ≤ spelling.length := by
  simp only [longest]
  split <;> omega

/-- The closing quote makes a string one longer than the same string without it. -/
theorem string_covers_openString : string.Covers openString := by
  intro cs h
  obtain ⟨body, behind, hbody, rfl, -⟩ := exists_string h
  have hall : ∀ c ∈ body, decide (c ≠ '"') = true := fun c hc =>
    decide_eq_true fun hq => hbody (hq ▸ hc)
  have hrun := run_append_cons (b := behind) hall (c := '"') (by simp)
  rw [longest_string hbody]
  show 1 + run (· ≠ '"') (body ++ '"' :: behind) ≤ _
  omega

theorem pairwise_covers_symbols :
    (symbols.map fun (kind, spelling) => symbol kind spelling).Pairwise Covers := by
  have hsymbols : symbols.Pairwise fun s t => t.2.length ≤ 1 ∨ s.2.head? ≠ t.2.head? := by decide
  refine List.pairwise_map.2 (hsymbols.imp fun {s t} h => ?_)
  rcases h with hshort | hheads
  · exact .of_short (fun cs => (longest_symbol_le t.1 t.2 cs).trans hshort) _
  · refine .of_disjoint fun c hc => ?_
    have hs : s.2.head? = some c := of_decide_eq_true hc
    exact decide_eq_false (hs ▸ hheads.symm)

theorem pairwise_covers_classes :
    [lineBreak, blank, comment, string, openString, number, word].Pairwise Covers := by
  have hlineBreak : ∀ g ∈ [blank, comment, string, openString, number, word],
      g.begins '\n' = false := by decide
  have hblank : ∀ c, isBlank c = true → ∀ g ∈ [comment, string, openString, number, word],
      g.begins c = false := by
    intro c hc
    simp only [isBlank, Bool.or_eq_true, decide_eq_true_eq] at hc
    rcases hc with (rfl | rfl) | rfl <;> decide
  have hcomment : ∀ g ∈ [string, openString, number, word], g.begins '/' = false := by decide
  have hquote : ∀ g ∈ [number, word], g.begins '"' = false := by decide
  refine .cons ?lineBreak (.cons ?blank (.cons ?comment (.cons ?string (.cons ?openString
    (.cons ?number (List.pairwise_singleton _ _))))))
  case lineBreak => exact fun g hg => .of_first (fun _ => of_decide_eq_true) (hlineBreak g hg)
  case blank => exact fun g hg => .of_disjoint fun c hc => hblank c hc g hg
  case comment => exact fun g hg => .of_first (fun _ => of_decide_eq_true) (hcomment g hg)
  case string =>
    refine List.forall_mem_cons.2 ⟨string_covers_openString, fun g hg => ?_⟩
    exact .of_first (fun _ => of_decide_eq_true) (hquote g hg)
  case openString => exact fun g hg => .of_first (fun _ => of_decide_eq_true) (hquote g hg)
  case number =>
    refine List.forall_mem_singleton.2 (.of_disjoint fun c hc => ?_)
    exact startsWord_eq_false_of_isDigit hc

/-- A form that is tried earlier reaches as far as any later one, wherever it fits. -/
theorem pairwise_covers : all.Pairwise Covers := by
  have hcross : ∀ s ∈ symbols, s.2.length ≤ 1 ∨
      ∀ f ∈ [lineBreak, blank, comment, string, openString, number, word],
        s.2.head?.any f.begins = false := by
    decide
  rw [all, List.pairwise_append, List.pairwise_append]
  refine ⟨⟨pairwise_covers_classes, pairwise_covers_symbols, ?_⟩, List.pairwise_singleton _ _, ?_⟩
  · intro f hf g hg
    obtain ⟨s, hs, rfl⟩ := List.mem_map.1 hg
    rcases hcross s hs with hshort | hheads
    · exact .of_short (fun cs => (longest_symbol_le s.1 s.2 cs).trans hshort) f
    · refine .of_disjoint fun c hc => decide_eq_false fun hhead => ?_
      have hnot := hheads f hf
      rw [hhead, Option.any_some, hc] at hnot
      cases hnot
  · intro f _ g hg
    obtain rfl := List.mem_singleton.1 hg
    exact .of_short longest_stray_le f

/-! ## The next piece -/

/-- The text is the longest that any form has at the start of `cs`, and the form is the first of
those that have it. -/
structure Munches (cs : List Char) (form : Form) (text : List Char) : Prop where
  ne_nil : text ≠ []
  isPrefix : text <+: cs
  fits : text ∈ form.language
  longest : ∀ f ∈ all, ∀ other ∈ f.language, other <+: cs → other.length ≤ text.length
  first : ∃ before behind, all = before ++ form :: behind ∧ ∀ f ∈ before, text ∉ f.language

theorem munches_of_first? (h : first? cs = some (f, n)) : Munches cs f (cs.take n) := by
  obtain ⟨before, behind, hall, rfl, hf, hbefore⟩ := first?_eq_some_iff.1 h
  have hlength := length_take_longest f cs
  have hne : cs.take (f.longest cs) ≠ [] := List.ne_nil_of_length_pos (by omega)
  have hcovers : ∀ g ∈ behind, g.longest cs ≤ f.longest cs := by
    have hpairs := pairwise_covers
    rw [hall, List.pairwise_append, List.pairwise_cons] at hpairs
    exact fun g hg => hpairs.2.1.1 g hg cs hf
  refine ⟨hne, List.take_prefix _ _, take_longest_mem hf, ?_, before, behind, hall, ?_⟩
  · intro g hg other hother hstart
    refine (length_le_longest hstart hother).trans (Nat.le_trans ?_ hlength.ge)
    rw [hall, List.mem_append, List.mem_cons] at hg
    rcases hg with hg | rfl | hg
    · exact hbefore g hg ▸ Nat.zero_le _
    · exact Nat.le_refl _
    · exact hcovers g hg
  · intro g hg hmem
    have hzero := length_le_longest (List.take_prefix _ cs) hmem
    rw [hbefore g hg] at hzero
    exact hne (List.length_eq_zero_iff.1 (Nat.le_zero.1 hzero))

end Form

end Lox
