import Lox.Proofs.Grammar.Attempt
import Lox.Proofs.Grammar.Production
import Lox.Proofs.Grammar.Termination

/-!
# Faults stay inside their statement

A segment of a program is a row of tokens that is read without a report by itself, or an attempt at
one statement.  In a row of segments each adds the declarations and the reports that it gives by
itself (`parse_segments`); so a fault in one of them costs nothing of the others.
-/

namespace Lox.Grammar

open Computing

variable {n : Nat} {s s' : Reading} {t : Token} {r ts : List Token} {program : List Stmt}

/-! ## A program, one declaration after the other -/

theorem readProgram_of_eof (hs : s.ahead = t :: r) (ht : t.kind = .eof) :
    readProgram n s = .ok [] s := by
  show gather (· = .eof) (readDeclaration n) s.ahead s = _
  rw [hs, gather, bind_of_ok (peek_of_ahead hs), if_pos (by simpa using ht)]
  rfl

/-- Away from an end, a program is a declaration and a program. -/
theorem readProgram_eq_ok_iff (hs : s.ahead = t :: r) (ht : t.kind ≠ .eof) :
    readProgram n s = .ok program s' ↔ ∃ o s₁ rest, readDeclaration n s = .ok o s₁ ∧
      readProgram n s₁ = .ok rest s' ∧ program = o.toList ++ rest := by
  -- the rounds left are enough, as the declaration takes a token
  have hrest : ∀ {o s₁}, readDeclaration n s = .ok o s₁ →
      gather (· = .eof) (readDeclaration n) r s₁ = readProgram n s₁ := by
    intro o s₁ ho
    have hlt := (OrderlyStatements.all n).progresses _ _ _ _ _ hs ht ho
    rw [hs, List.length_cons] at hlt
    exact gather_eq_of_length_le (by simp) (OrderlyStatements.all n).progresses r s₁.ahead s₁
      (by omega) (Nat.le_refl _)
  have hgather : readProgram n s = (do
      let o ← readDeclaration n
      let rest ← gather (· = Kind.eof) (readDeclaration n) r
      return o.toList ++ rest) s := by
    show gather (· = .eof) (readDeclaration n) s.ahead s = _
    rw [hs, gather, bind_of_ok (peek_of_ahead hs), if_neg (by simpa using ht)]
  rw [hgather, bind_eq_ok]
  constructor
  · rintro ⟨o, s₁, ho, h⟩
    obtain ⟨rest, s₂, hr, h⟩ := bind_eq_ok.1 h
    obtain ⟨rfl, rfl⟩ := pure_eq_ok.1 h
    exact ⟨o, s₁, rest, ho, hrest ho ▸ hr, rfl⟩
  · rintro ⟨o, s₁, rest, ho, hr, rfl⟩
    exact ⟨o, s₁, ho, bind_eq_ok.2 ⟨rest, s', (hrest ho).trans hr, rfl⟩⟩

/-! ## Segments -/

/-- Wherever these tokens stand, they add these declarations and these reports to a program. -/
def Adds (n : Nat) (ts : List Token) (ss : List Stmt) (reports : List Report) : Prop :=
  ∀ (f : Frame) program s, f.Follows →
    readProgram n ⟨f.behind, f.before ++ reports⟩ = .ok program s →
      readProgram n (Reading.within ⟨ts, []⟩ f) = .ok (ss ++ program) s

theorem adds_nil : Adds n [] [] [] := by
  intro f program s _ h
  rw [List.append_nil] at h
  simpa [Reading.within] using h

/-- What fills a declaration adds it if there is one. -/
theorem Fills.adds {o : Option Stmt} {reports : List Report}
    (h : Fills ts o reports (readDeclaration n)) (hts : ts = t :: r) (ht : t.kind ≠ .eof) :
    Adds n ts o.toList reports := by
  intro f program s hf hr
  subst hts
  exact (readProgram_eq_ok_iff rfl ht).2 ⟨o, _, program, h f hf, hr, rfl⟩

/-- A declaration that is read without a report up to an end is read the same wherever it stands. -/
theorem exists_declared_of_quiet {f : Frame} (hf : f.Ends) (hbefore : f.before = [])
    {o : Option Stmt} (ho : readDeclaration (n + 1) (Reading.within ⟨ts, []⟩ f) = .ok o s)
    (hq : s.reports = []) :
    ∃ stmt us, o = some stmt ∧ s = Reading.within ⟨us, []⟩ f ∧ us <:+ ts ∧ us.length < ts.length ∧
      ∀ f' : Frame, f'.Follows → readDeclaration (n + 1) (Reading.within ⟨ts, []⟩ f') =
        .ok (some stmt) (Reading.within ⟨us, []⟩ f') := by
  have hdeclared := closes_declared (ρ := .none) n
  -- without a report it is a declaration, and keeps to its own tokens
  obtain ⟨stmt, rfl, hstmt⟩ := eq_ok_of_recover hdeclared.orderly ho (by simp [Reading.count, hq])
  obtain ⟨⟨us, reports⟩, rfl, -⟩ := hdeclared.fits f f _ _ _ hf hf.follows hstmt
  rw [Reading.reports_within, hbefore, List.nil_append] at hq
  obtain rfl : reports = [] := hq
  have hlt := hdeclared.takes _ _ _ hstmt
  simp only [Reading.ahead_within, List.length_append] at hlt
  have hsuffix := ((hdeclared.orderly _).ok hstmt).suffix
  refine ⟨stmt, us, rfl, rfl, ((List.suffix_append_inj_of_length_eq rfl).1 hsuffix).1, by omega,
    fun f' hf' => ?_⟩
  obtain ⟨s', hs', hstmt'⟩ := hdeclared.fits f f' _ _ _ hf hf' hstmt
  rw [← Reading.within_injective hs', Reading.relabel_none, Reading.relabel_none,
    Stmt.relabel_none] at hstmt'
  exact recover_of_ok hstmt'

/-- What is read without a report up to an end adds the same wherever it stands. -/
theorem adds_of_quiet {f : Frame} (hf : f.Ends) (hbefore : f.before = [])
    (heof : ∀ t ∈ ts, t.kind ≠ .eof)
    (h : readProgram (n + 1) (Reading.within ⟨ts, []⟩ f) = .ok program s) (hq : s.reports = []) :
    Adds (n + 1) ts program [] := by
  -- on the number of tokens, as a declaration takes some of them
  induction hlen : ts.length using Nat.strongRecOn generalizing ts program with
  | ind k ih =>
  cases ts with
  | nil =>
    obtain ⟨e, r, hb, he⟩ := id hf
    have hnil := readProgram_of_eof (n := n + 1) (s := Reading.within ⟨[], []⟩ f) hb he
    obtain ⟨rfl, -⟩ := EStateM.Result.ok.inj (hnil.symm.trans h)
    exact adds_nil
  | cons t r =>
    have ht : t.kind ≠ .eof := heof t List.mem_cons_self
    obtain ⟨o, s₁, rest, ho, hrest, rfl⟩ := (readProgram_eq_ok_iff rfl ht).1 h
    have hq₁ : s₁.reports = [] := by
      have hle := ((orderly_readProgram (n + 1) s₁).ok hrest).reports
      rw [hq] at hle
      exact List.prefix_nil.1 hle
    obtain ⟨stmt, us, rfl, rfl, hus, hlt, hdeclared⟩ := exists_declared_of_quiet hf hbefore ho hq₁
    have hadds : Adds (n + 1) us rest [] :=
      ih us.length (hlen ▸ hlt) (fun u hu => heof u (hus.subset hu)) hrest rfl
    intro f' program' s' hf' hr'
    exact (readProgram_eq_ok_iff rfl ht).2 ⟨some stmt, _, rest ++ program', hdeclared f' hf',
      hadds f' program' s' hf' hr', rfl⟩

/-- A segment of a program: tokens with no end among them and no `else` in front that are read
without a report in front of an end, or that are an attempt at one statement. -/
structure Segment (ts : List Token) : Prop where
  noEnd : ∀ t ∈ ts, t.kind ≠ .eof
  noElse : NoElse ts
  single : (∃ e, e.kind = .eof ∧ (parse (ts ++ [e])).reports = []) ∨ Attempt ts

/-- A segment adds declarations and reports of its own. -/
theorem Segment.exists_adds (h : Segment ts) : ∃ ss reports, Adds nestingLimit ts ss reports := by
  obtain ⟨n, hn⟩ : ∃ n, nestingLimit = n + 2 := ⟨_, rfl⟩
  rcases h.single with ⟨e, he, hq⟩ | hattempt
  · have hend : ∃ t ∈ ts ++ [e], t.kind = .eof := ⟨e, by simp, he⟩
    obtain ⟨program, s, hr, hp⟩ := exists_parse_eq hend
    rw [hp] at hq
    rw [hn] at hr ⊢
    exact ⟨program, [], adds_of_quiet (f := ⟨[e], []⟩) ⟨e, [], rfl, he⟩ rfl h.noEnd hr hq⟩
  · obtain ⟨o, reports, hfills⟩ := hattempt.exists_fills h.noEnd n
    obtain ⟨t, r, rfl⟩ := List.exists_cons_of_ne_nil hattempt.upToSemicolon.ne_nil
    exact ⟨o.toList, reports, hn ▸ hfills.adds rfl (h.noEnd t List.mem_cons_self)⟩

/-- In front of an end, tokens give what they add to any program. -/
theorem Adds.parse_eq {e : Token} {reports : List Report}
    (h : Adds nestingLimit ts program reports) (he : e.kind = .eof) :
    parse (ts ++ [e]) = ⟨some program, reports⟩ := by
  have hend := readProgram_of_eof (n := nestingLimit) (s := ⟨[e], reports⟩) rfl he
  have hr := h ⟨[e], []⟩ [] _ (Frame.Ends.follows ⟨e, [], rfl, he⟩) hend
  rw [List.append_nil] at hr
  exact Lox.parse_eq ⟨e, by simp, he⟩ hr

/-- No `else` is in front of segments in front of an end. -/
theorem follows_flatten {segments : List (List Token)} (h : ∀ ts ∈ segments, NoElse ts) {e : Token}
    (he : e.kind = .eof) (before : List Report) :
    Frame.Follows ⟨segments.flatten ++ [e], before⟩ := by
  refine ⟨by simp, ?_⟩
  induction segments with
  | nil => exact noElse_cons (by simp [he])
  | cons ts segments ih =>
    cases ts with
    | nil => exact ih fun us hus => h us (List.mem_cons_of_mem _ hus)
    | cons u us => exact noElse_cons (h _ List.mem_cons_self u us rfl)

/-- In a row, tokens add one after the other. -/
theorem readProgram_flatten {segments : List (List Token)} {programs : List Token → List Stmt}
    {reports : List Token → List Report} {e : Token} (he : e.kind = .eof)
    (h : ∀ ts ∈ segments, NoElse ts ∧ Adds n ts (programs ts) (reports ts))
    (before : List Report) :
    readProgram n ⟨segments.flatten ++ [e], before⟩ =
      .ok (segments.flatMap programs) ⟨[e], before ++ segments.flatMap reports⟩ := by
  induction segments generalizing before with
  | nil => simpa using readProgram_of_eof (n := n) (s := ⟨[e], before⟩) rfl he
  | cons ts segments ih =>
    have hrest := fun us hus => h us (List.mem_cons_of_mem ts hus)
    have hr := (h ts List.mem_cons_self).2 ⟨segments.flatten ++ [e], before⟩ _ _
      (follows_flatten (fun us hus => (hrest us hus).1) he before) (ih hrest _)
    simpa [Reading.within] using hr

end Lox.Grammar

namespace Lox

open Grammar

variable (segments : List (List Token)) {e : Token}

/-- Segments in a row give what they give by themselves, in a row. -/
theorem exists_parse_flatten (he : e.kind = .eof) (h : ∀ ts ∈ segments, Segment ts) :
    ∃ (programs : List Token → List Stmt) (reports : List Token → List Report),
      (∀ ts ∈ segments, ∀ e', e'.kind = .eof →
        parse (ts ++ [e']) = ⟨some (programs ts), reports ts⟩) ∧
      parse (segments.flatten ++ [e]) =
        ⟨some (segments.flatMap programs), segments.flatMap reports⟩ := by
  let programs := fun ts => (parse (ts ++ [.eof 1])).program?.getD []
  let reports := fun ts => (parse (ts ++ [.eof 1])).reports
  have hadds : ∀ ts ∈ segments, Adds nestingLimit ts (programs ts) (reports ts) := by
    intro ts hts
    obtain ⟨ss, rs, hadds⟩ := (h ts hts).exists_adds
    have hparse := hadds.parse_eq (e := .eof 1) rfl
    simpa only [programs, reports, hparse, Option.getD_some] using hadds
  refine ⟨programs, reports, fun ts hts e' he' => (hadds ts hts).parse_eq he', ?_⟩
  have hr := readProgram_flatten he (fun ts hts => ⟨(h ts hts).noElse, hadds ts hts⟩) []
  exact parse_eq ⟨e, by simp, he⟩ hr

/-- Faults stay inside their segment: segments in a row give the declarations and the reports that
they give by themselves.  A segment that does not belong to the language is reported, and one that
does is kept as it is, unless it is reported for its nesting. -/
theorem parse_segments (he : e.kind = .eof) (h : ∀ ts ∈ segments, Segment ts) :
    ∃ (programs : List Token → List Stmt) (reports : List Token → List Report),
      (∀ ts ∈ segments, ∀ e', e'.kind = .eof →
        parse (ts ++ [e']) = ⟨some (programs ts), reports ts⟩) ∧
      parse (segments.flatten ++ [e]) =
        ⟨some (segments.flatMap programs), segments.flatMap reports⟩ ∧
      (∀ ts ∈ segments, ¬ Derives (.star (.rule .declaration)) ts → reports ts ≠ []) ∧
      (∀ ts ∈ segments, Derives (.star (.rule .declaration)) ts →
        (∀ t, .atToken t .tooDeep ∉ reports ts) →
          reports ts = [] ∧ SequencePhrase (ts ++ [e]) (programs ts) [e]) := by
  obtain ⟨programs, reports, hsingle, hall⟩ := exists_parse_flatten segments he h
  refine ⟨programs, reports, hsingle, hall, fun ts hts hnot hq => hnot ?_,
    fun ts hts hd hnest => ?_⟩
  · have hparse := hsingle ts hts e he
    obtain ⟨program, -, hseq⟩ := sequencePhrase_of_parse he (h ts hts).noEnd (by rw [hparse, hq])
    obtain ⟨w, hw, hd⟩ := hseq.derives
    rwa [(List.append_inj' hw rfl).1]
  · have hparse := hsingle ts hts e he
    obtain ⟨program, hseq⟩ := sequencePhrase_of_derives hd [e]
    have hquiet := parse_of_sequencePhrase he (by rw [hparse]; exact hnest) hseq
    obtain ⟨hprogram, hreports⟩ := Parse.mk.inj (hparse.symm.trans hquiet)
    obtain rfl := Option.some.inj hprogram
    exact ⟨hreports, hseq⟩

/-- Of three statements, the one without an expression is lost and no other. -/
theorem parse_segments_print_without_expression :
    let first : List Token :=
      [⟨.printWord, "print", .nil, 1⟩, ⟨.nilWord, "nil", .nil, 1⟩, ⟨.semicolon, ";", .nil, 1⟩]
    let second : List Token := [⟨.printWord, "print", .nil, 2⟩, ⟨.semicolon, ";", .nil, 2⟩]
    let third : List Token :=
      [⟨.varWord, "var", .nil, 3⟩, ⟨.identifier, "a", .nil, 3⟩, ⟨.semicolon, ";", .nil, 3⟩]
    parse ([first, second, third].flatten ++ [.eof 4]) =
      ⟨some [.print (.literal .nil), .declare ⟨.identifier, "a", .nil, 3⟩ none],
        [.atToken ⟨.semicolon, ";", .nil, 2⟩ .noExpression]⟩ := by
  intro first second third
  have hsegments : ∀ ts ∈ [first, second, third], Segment ts := by
    intro ts hts
    simp only [List.mem_cons, List.not_mem_nil, or_false] at hts
    rcases hts with rfl | rfl | rfl
    · exact ⟨by decide, noElse_cons (by decide), Or.inl ⟨.eof 1, rfl, rfl⟩⟩
    · refine ⟨by decide, noElse_cons (by decide), Or.inr
        ⟨⟨[_], _, rfl, rfl, by decide⟩, by decide, by decide, fun t r h => ?_⟩⟩
      obtain ⟨rfl, -⟩ := List.cons.inj h
      decide
    · exact ⟨by decide, noElse_cons (by decide), Or.inl ⟨.eof 1, rfl, rfl⟩⟩
  obtain ⟨programs, reports, hsingle, hall, -, -⟩ :=
    parse_segments [first, second, third] (e := .eof 4) rfl hsegments
  have hgives : ∀ ts {program rs}, ts ∈ [first, second, third] →
      parse (ts ++ [.eof 1]) = ⟨some program, rs⟩ → programs ts = program ∧ reports ts = rs := by
    intro ts program rs hts h
    obtain ⟨hprogram, hreports⟩ := Parse.mk.inj ((hsingle ts hts (.eof 1) rfl).symm.trans h)
    exact ⟨Option.some.inj hprogram, hreports⟩
  obtain ⟨hprogram₁, hreports₁⟩ := hgives first (by simp) rfl
  obtain ⟨hprogram₂, hreports₂⟩ := hgives second (by simp) rfl
  obtain ⟨hprogram₃, hreports₃⟩ := hgives third (by simp) rfl
  rw [hall]
  simp only [List.flatMap_cons, List.flatMap_nil, hprogram₁, hprogram₂, hprogram₃, hreports₁,
    hreports₂, hreports₃]
  rfl

end Lox
