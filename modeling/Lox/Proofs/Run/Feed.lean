import Lox.Proofs.Grammar.Segment
import Lox.Proofs.Run.Relabel
import Lox.Proofs.Scan.Join
import Lox.Text.Line

/-!
# Texts fed piece by piece

A session that is fed texts one after the other, up to the first that fails, shows what it would
show if it were fed them at once, joined by line breaks (`run_intercalate`).  Scanning does not carry
a lexeme over from one text to the next, reading does not tie declarations of two texts together, and
a program goes on in the globals that another has left.
-/

namespace Lox

open Computing Execution Grammar

variable {texts : List String} {lines rounds : Nat}

/-! ## Texts that are read at once -/

/-- What is read alone without a report is not tied to what follows it. -/
theorem Grammar.Segment.of_quiet {ts : List Token} {e : Token} (he : e.kind = .eof)
    (hts : ∀ t ∈ ts, t.kind ≠ .eof) (h : (parse (ts ++ [e])).reports = []) : Segment ts where
  noEnd := hts
  noElse := by
    obtain ⟨program, -, hseq⟩ := sequencePhrase_of_parse he hts h
    have hno := hseq.noElse (noElse_cons (by simp [he]))
    rintro t r rfl
    exact hno t (r ++ [e]) rfl
  single := Or.inl ⟨e, he, h⟩

namespace Session

/-- What is read of a text without a report is read of it on other lines as well. -/
theorem parse_body_relabel {c : String} (h : (read c).reports = []) (ρ : Relabeling) :
    ∃ e, e.kind = .eof ∧ parse ((body c).map (Token.relabel ρ) ++ [e]) =
      ⟨some ((read c).program.map (Stmt.relabel ρ)), []⟩ := by
  have htokens : ∃ t ∈ (scan c).tokens, t.kind = .eof := exists_eof_tokensFrom 1 _
  have hparse := parse_relabel ρ htokens
  rw [parse_tokens_scan (List.append_eq_nil_iff.1 h).1, h, tokens_scan, List.map_append] at hparse
  exact ⟨_, rfl, hparse⟩

/-- The declarations of texts one below the other, with so many lines above. -/
def stackedProgram (lines : Nat) : List String → List Stmt
  | [] => []
  | c :: cs =>
    (read c).program.map (Stmt.relabel (.down lines)) ++
      stackedProgram (lines + c.toList.count '\n' + 1) cs

/-- The texts are read one below the other as each is read alone. -/
theorem segments_stacked (h : ∀ c ∈ texts, (read c).reports = []) (lines : Nat) :
    (∀ ts ∈ stacked lines texts, Segment ts) ∧
      ∀ (programs : List Token → List Stmt) (reports : List Token → List Report),
        (∀ ts ∈ stacked lines texts, ∀ e, e.kind = .eof →
          parse (ts ++ [e]) = ⟨some (programs ts), reports ts⟩) →
        (stacked lines texts).flatMap programs = stackedProgram lines texts ∧
          (stacked lines texts).flatMap reports = [] := by
  induction texts generalizing lines with
  | nil => exact ⟨fun ts hts => absurd hts List.not_mem_nil, fun _ _ _ => ⟨rfl, rfl⟩⟩
  | cons c cs ih =>
    obtain ⟨hsegments, hprograms⟩ := ih (fun c hc => h c (List.mem_cons_of_mem _ hc))
      (lines + c.toList.count '\n' + 1)
    obtain ⟨e, he, hparse⟩ := parse_body_relabel (h c List.mem_cons_self) (.down lines)
    constructor
    · intro ts hts
      rcases List.mem_cons.1 hts with rfl | hts
      · refine .of_quiet he (List.forall_mem_map.2 fun t ht => ?_) (congrArg Parse.reports hparse)
        have hne := kind_ne_eof_of_mem_body ht
        exact hne
      · exact hsegments ts hts
    · intro programs reports hsingle
      obtain ⟨hrest, hrest'⟩ := hprograms programs reports
        fun ts hts => hsingle ts (List.mem_cons_of_mem _ hts)
      obtain ⟨hprogram, hreports⟩ :=
        Parse.mk.inj ((hsingle _ List.mem_cons_self e he).symm.trans hparse)
      rw [stacked, List.flatMap_cons, List.flatMap_cons, hrest, hrest', Option.some.inj hprogram,
        hreports]
      exact ⟨rfl, rfl⟩

/-- Texts that are read without a report are read so when they are joined by line breaks. -/
theorem read_intercalate (h : ∀ c ∈ texts, (read c).reports = []) :
    (read ("\n".intercalate texts)).program = stackedProgram 0 texts ∧
      (read ("\n".intercalate texts)).reports = [] := by
  have hscan := fun c hc => (List.append_eq_nil_iff.1 (h c hc)).1
  obtain ⟨hsegments, hprograms⟩ := segments_stacked h 0
  obtain ⟨line, htokens⟩ := exists_tokensFrom_intercalate 0 hscan
  obtain ⟨programs, reports, hsingle, hall⟩ := exists_parse_flatten _ (e := .eof line) rfl hsegments
  obtain ⟨hprogram, hreports⟩ := hprograms programs reports hsingle
  have hparse : parse (scan ("\n".intercalate texts)).tokens =
      ⟨some (stackedProgram 0 texts), []⟩ := by
    rw [← hprogram, ← hreports, ← hall, ← htokens]
    rfl
  have hquiet := reports_scan_intercalate hscan
  refine ⟨congrArg (fun p => p.program?.getD []) hparse, ?_⟩
  show (scan _).reports ++ (parse (scan _).tokens).reports = []
  rw [hparse, hquiet]
  rfl

/-! ## Runs one after the other -/

/-- Runs texts one after the other, up to the first that reports something or does not end. -/
def feed (rounds : Nat) : Session → List String → List Outcome
  | _, [] => []
  | s, text :: texts =>
    let out := s.run rounds false text
    if out.reports = [] ∧ out.halt? = none then out :: feed rounds out.session texts else [out]

/-- What stands above a text among texts joined by line breaks. -/
def above (texts : List String) (k : Nat) : String := Text.printLines (texts.take k)

theorem intercalate_eq_above_append {k : Nat} (hk : k < texts.length) :
    "\n".intercalate texts = above texts k ++ "\n".intercalate (texts.drop k) := by
  induction k generalizing texts with
  | zero => rfl
  | succ k ih =>
    match texts with
    | c :: d :: cs =>
      have hrest : "\n".intercalate (d :: cs) =
          above (d :: cs) k ++ "\n".intercalate ((d :: cs).drop k) :=
        ih (Nat.lt_of_succ_lt_succ hk)
      rw [String.intercalate_cons_cons, hrest]
      simp [above, Text.printLines, String.append_assoc]

theorem count_above_succ (c : String) (cs : List String) (k : Nat) :
    (above (c :: cs) (k + 1)).toList.count '\n' =
      c.toList.count '\n' + 1 + (above cs k).toList.count '\n' := by
  simp [above, Text.printLines, List.count_append]
  omega

/-- The session that some outcomes leave. -/
def after (s : Session) (outs : List Outcome) : Session :=
  (outs.getLast?.map Outcome.session).getD s

/-- One outcome shows all that the outcomes of texts show, one after the other, and what was printed
before.  What a text reports, it reports so many lines further down. -/
structure Sums (s : Session) (texts : List String) (lines : Nat) (before : List String)
    (outs : List Outcome) (out : Outcome) : Prop where
  printed : out.printed = before ++ outs.flatMap Outcome.printed
  globals : out.session.globals = (s.after outs).globals
  halt? : out.halt? = outs.getLast?.bind Outcome.halt?
  quiet : (∀ o ∈ outs, o.reports = []) → out.reports = []
  reports : ∀ k o, outs[k]? = some o → o.reports ≠ [] →
    k + 1 = outs.length ∧ ∃ failure, o.reports = [.ofFailure failure] ∧
      out.reports = [.ofFailure (failure.relabel
        (.down ↑(lines + (above texts k).toList.count '\n')))]

section Sums

variable {s : Session} {before : List String} {c : String} {cs : List String} {o out : Outcome}
  {outs : List Outcome}

/-- The outcome of a text that does not end well is all there is. -/
theorem sums_singleton (h : Outcome.Relates (.down lines) Eq before o out)
    (hfailure : o.reports ≠ [] → ∃ failure, o.reports = [.ofFailure failure]) :
    Sums s (c :: cs) lines before [o] out where
  printed := by simpa using h.printed
  globals := h.globals.symm
  halt? := h.halt?
  quiet hq := by rw [h.reports, hq o List.mem_cons_self, List.map_nil]
  reports k o' hk hne := by
    cases k with
    | zero =>
      obtain rfl := Option.some.inj hk
      obtain ⟨failure, hf⟩ := hfailure hne
      refine ⟨rfl, failure, hf, ?_⟩
      rw [h.reports, hf]
      rfl
    | succ k => simp at hk

/-- The outcome of a text that ends well comes in front of the others. -/
theorem Sums.cons (hreports : o.reports = []) (hhalt : o.halt? = none)
    (h : Sums o.session cs (lines + c.toList.count '\n' + 1) (before ++ o.printed) outs out) :
    Sums s (c :: cs) lines before (o :: outs) out where
  printed := by simpa using h.printed
  globals := by
    rw [h.globals, after, after, List.getLast?_cons]
    cases outs.getLast? <;> rfl
  halt? := by
    rw [h.halt?, List.getLast?_cons]
    cases outs.getLast? with
    | none => exact hhalt.symm
    | some last => rfl
  quiet hq := h.quiet fun o' ho' => hq o' (List.mem_cons_of_mem o ho')
  reports k o' hk hne := by
    cases k with
    | zero =>
      obtain rfl := Option.some.inj hk
      exact absurd hreports hne
    | succ k =>
      obtain ⟨hlast, failure, hf, hout⟩ := h.reports k o' hk hne
      refine ⟨congrArg (· + 1) hlast, failure, hf, ?_⟩
      rw [hout, count_above_succ]
      congr 5
      omega

end Sums

variable {s : Session}

/-- In a clean session a text that is read without a report is performed. -/
theorem run_of_quiet (hclean : s.log.hadFault = false) {c : String} (h : (read c).reports = []) :
    s.run rounds false c = s.perform rounds (read c).program := by
  have hs : s.report (read c).reports = s := by rw [h, report, Log.add_nil]
  have hfault : (s.report (read c).reports).log.hadFault = false := by rw [hs, hclean]
  show s.runReading rounds (read c) = _
  rw [runReading_of_not_hadFault hfault, hs, h]
  rfl

/-- A run that halts says so, in a report or otherwise. -/
theorem conclude_error_not_quiet (s : Session) (halt : Halt) (m : Machine) :
    ¬((s.conclude (.error halt m)).reports = [] ∧ (s.conclude (.error halt m)).halt? = none) := by
  rintro ⟨hreports, hhalt⟩
  cases halt with
  | failure | tooDeep => exact List.cons_ne_nil _ _ hreports
  | _ => exact Option.some_ne_none _ hhalt

/-- A run that halts reports one failure, if anything. -/
theorem exists_failure_of_conclude_error (s : Session) (halt : Halt) (m : Machine)
    (h : (s.conclude (.error halt m)).reports ≠ []) :
    ∃ failure, (s.conclude (.error halt m)).reports = [.ofFailure failure] := by
  cases halt with
  | failure f => exact ⟨f, rfl⟩
  | tooDeep => exact ⟨.tooDeep, rfl⟩
  | _ => exact absurd rfl h

theorem feed_cons_of_quiet (text : String) (texts : List String)
    (h : (s.run rounds false text).reports = [] ∧ (s.run rounds false text).halt? = none) :
    s.feed rounds (text :: texts) =
      s.run rounds false text :: (s.run rounds false text).session.feed rounds texts :=
  if_pos h

theorem feed_cons_of_not_quiet (text : String) (texts : List String)
    (h : ¬((s.run rounds false text).reports = [] ∧ (s.run rounds false text).halt? = none)) :
    s.feed rounds (text :: texts) = [s.run rounds false text] :=
  if_neg h

/-- The declarations of the first text come first, then the others in what they leave. -/
theorem execute_stackedProgram_cons (rounds lines : Nat) (c : String) (cs : List String) :
    execute rounds (stackedProgram lines (c :: cs)) =
      (execute rounds ((read c).program.map (Stmt.relabel (.down lines))) >>= fun _ =>
        execute rounds (stackedProgram (lines + c.toList.count '\n' + 1) cs)) :=
  inOrder_append ..

/-- Running the declarations of all texts at once comes to what running the texts comes to. -/
theorem sums_stackedProgram (h : ∀ c ∈ texts, (read c).reports = []) (lines : Nat)
    (s s' : Session) (hclean : s.log.hadFault = false) (m : Machine) (hm : m.scopes = [s.globals]) :
    Sums s texts lines m.printed.toList (s.feed rounds texts)
      (s'.conclude (execute rounds (stackedProgram lines texts) m)) := by
  induction texts generalizing lines s m with
  | nil =>
    refine ⟨(List.append_nil _).symm, ?_, rfl, fun _ => rfl, fun k o hk => by simp [feed] at hk⟩
    show m.scopes.headD {} = s.globals
    rw [hm]
    rfl
  | cons c cs ih =>
    have hrun : s.run rounds false c =
        s.conclude (execute rounds (read c).program { scopes := [s.globals] }) :=
      (run_of_quiet hclean (h c List.mem_cons_self)).trans (perform_eq_conclude s rounds _)
    have hmachine : Machine.Relates Eq m.printed.toList 1 { scopes := [s.globals] } m :=
      ⟨hm ▸ .cons rfl .nil, (List.append_nil _).symm⟩
    have hresults := results_execute (ρ := .down lines) keeps_eq rounds (read c).program hmachine
    have hrelates := relates_conclude s s' hresults
    rw [← hrun] at hrelates
    rw [execute_stackedProgram_cons]
    generalize execute rounds (read c).program { scopes := [s.globals] } = r at hrun hresults
    generalize hr' : execute rounds ((read c).program.map (Stmt.relabel (.down lines))) m = r'
      at hresults hrelates
    cases hresults with
    | @ok _ m₁ m₁' h₁ =>
      have hscopes : m₁'.scopes = [m₁.scopes.headD {}] := h₁.scopes.eq_singleton
      have hrest := ih (fun c hc => h c (List.mem_cons_of_mem _ hc))
        (lines + c.toList.count '\n' + 1) (s.conclude (.ok () m₁)).session hclean m₁' hscopes
      rw [h₁.printed] at hrest
      rw [bind_of_ok hr', feed_cons_of_quiet c cs (by rw [hrun]; exact ⟨rfl, rfl⟩), hrun]
      exact hrest.cons rfl rfl
    | @error halt m₁ m₁' h₁ =>
      have hloud := conclude_error_not_quiet s halt m₁
      rw [← hrun] at hloud
      rw [bind_of_error hr', feed_cons_of_not_quiet c cs hloud]
      exact sums_singleton hrelates (hrun ▸ exists_failure_of_conclude_error s halt m₁)

/-- At most all texts run. -/
theorem length_feed_le (rounds : Nat) (s : Session) (texts : List String) :
    (s.feed rounds texts).length ≤ texts.length := by
  induction texts generalizing s with
  | nil => exact Nat.le_refl 0
  | cons text texts ih =>
    by_cases h : (s.run rounds false text).reports = [] ∧ (s.run rounds false text).halt? = none
    · rw [feed_cons_of_quiet text texts h]
      exact Nat.succ_le_succ (ih _)
    · rw [feed_cons_of_not_quiet text texts h]
      exact Nat.succ_le_succ (Nat.zero_le _)

/-- Texts that are read without a report, joined by line breaks, print and leave in a clean session
what they print and leave one after the other, up to the first that fails.  What that one reports is
reported as many lines further down as there are line breaks above it. -/
theorem run_intercalate (rounds : Nat) (s : Session) (texts : List String)
    (hclean : s.log.hadFault = false) (h : ∀ text ∈ texts, (read text).reports = []) :
    let outs := s.feed rounds texts
    let out := s.run rounds false ("\n".intercalate texts)
    out.printed = outs.flatMap Outcome.printed ∧
      out.session.globals = (s.after outs).globals ∧
      out.halt? = outs.getLast?.bind Outcome.halt? ∧
      ((∀ o ∈ outs, o.reports = []) → out.reports = []) ∧
      ∀ k o, outs[k]? = some o → o.reports ≠ [] →
        k + 1 = outs.length ∧
          "\n".intercalate texts = above texts k ++ "\n".intercalate (texts.drop k) ∧
          ∃ failure, o.reports = [.ofFailure failure] ∧
            out.reports =
              [.ofFailure (failure.relabel (.down ((above texts k).toList.count '\n')))] := by
  intro outs out
  obtain ⟨hprogram, hquiet⟩ := read_intercalate h
  have hout : out =
      s.conclude (execute rounds (stackedProgram 0 texts) { scopes := [s.globals] }) := by
    rw [← perform_eq_conclude, ← hprogram]
    exact run_of_quiet hclean hquiet
  have hsums : Sums s texts 0 [] outs out := by
    rw [hout]
    exact sums_stackedProgram h 0 s s hclean { scopes := [s.globals] } rfl
  refine ⟨hsums.printed, hsums.globals, hsums.halt?, hsums.quiet, fun k o hk hne => ?_⟩
  obtain ⟨hlast, failure, ho, hreports⟩ := hsums.reports k o hk hne
  have hlength : k < texts.length := by
    have hle : outs.length ≤ texts.length := length_feed_le rounds s texts
    omega
  refine ⟨hlast, intercalate_eq_above_append hlength, failure, ho, ?_⟩
  rw [hreports, Nat.zero_add]

/-- The second of three texts fails on its first line, which is the third line of all. -/
theorem run_intercalate_undefined :
    let texts := ["print \"a\";\nvar a;", "print a; print b;", "print a;"]
    let out := Session.run 1 false {} ("\n".intercalate texts)
    out.printed = ["a", "nil"] ∧
      out.reports = [.ofFailure (.undefined ⟨.identifier, "b", .nil, 3⟩)] := by
  intro texts out
  obtain ⟨hprinted, -, -, -, hreports⟩ := run_intercalate 1 {} texts rfl (by decide +kernel)
  have hfed : (Session.feed 1 {} texts)[1]?.map Outcome.reports =
      some [.ofFailure (.undefined ⟨.identifier, "b", .nil, 1⟩)] := by decide +kernel
  obtain ⟨o, ho, hfailed⟩ := Option.map_eq_some_iff.1 hfed
  have hloud : o.reports ≠ [] := by
    rw [hfailed]
    exact List.cons_ne_nil _ _
  obtain ⟨-, -, failure, hfailure, hout⟩ := hreports 1 o ho hloud
  have habove : (above texts 1).toList.count '\n' = 2 := by decide +kernel
  obtain rfl : Failure.undefined ⟨.identifier, "b", .nil, 1⟩ = failure := by
    rw [hfailed] at hfailure
    exact Report.ofFailure.inj (List.cons.inj hfailure).1
  refine ⟨hprinted.trans (by decide +kernel), ?_⟩
  rw [hout, habove]
  rfl

end Session

end Lox
