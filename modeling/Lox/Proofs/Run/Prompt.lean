import Lox.Prompt
import Lox.Proofs.Run.Feed
import Lox.Proofs.Run.History
import Lox.Proofs.Run.Safety

/-!
# Lines at the prompt

Between two lines a session is ready: nothing in its log stands in the way of a program.  So a line
with a fault is reported and is gone without a trace, and without such lines a session does the same
(`Prompt.outcomes_without_faulty_lines`).  A line that fails leaves what it has done up to there, in
the globals alone, and the next line goes on with that.
-/

namespace Lox

open Computing Execution

/-! ## Where a program stops -/

/-- A program that halts has come to a statement that halts. -/
theorem Execution.exists_halting {run : Stmt → Execution Unit} {ss : List Stmt} {m m' : Machine}
    {halt : Halt} (h : inOrder run ss m = .error halt m') :
    ∃ done stmt rest m₁, ss = done ++ stmt :: rest ∧ inOrder run done m = .ok () m₁ ∧
      run stmt m₁ = .error halt m' := by
  induction ss generalizing m with
  | nil => cases h
  | cons s ss ih =>
    unfold inOrder at h
    rcases bind_eq_error.1 h with h | ⟨_, m₁, hs, h⟩
    · exact ⟨[], s, ss, m, rfl, rfl, h⟩
    · obtain ⟨done, stmt, rest, m₂, rfl, hdone, hstmt⟩ := ih h
      refine ⟨s :: done, stmt, rest, m₂, rfl, ?_, hstmt⟩
      unfold inOrder
      rw [bind_of_ok hs]
      exact hdone

/-- Related results leave related states. -/
theorem Results.endState {σ σ' α : Type} {ρ : Relabeling} {S : σ → σ' → Prop}
    {r : EStateM.Result Halt σ α} {r' : EStateM.Result Halt σ' α} (h : Results ρ S r r') :
    S (endState r) (endState r') := by
  cases h with
  | ok h => exact h
  | error h => exact h

/-- However a program ends, it leaves no scope but the globals. -/
theorem scopes_endState_execute (rounds : Nat) (program : List Stmt) (globals : Bindings) :
    (endState (execute rounds program { scopes := [globals] })).scopes =
      [(endState (execute rounds program { scopes := [globals] })).scopes.headD {}] := by
  have hm : Machine.Relates Eq [] 1 { scopes := [globals] } { scopes := [globals] } :=
    ⟨.cons rfl .nil, rfl⟩
  have hresults := results_execute (ρ := .none) keeps_eq rounds program hm
  rw [Stmt.relabel_none_eq_id, List.map_id] at hresults
  exact hresults.endState.scopes.eq_singleton

/-- The program comes to a statement that halts with the failure, and goes no further.  What was
printed up to there is printed, and the globals are as they were left there. -/
def Session.FailsIn (rounds : Nat) (s : Session) (program : List Stmt) (failure : Failure)
    (out : Outcome) : Prop :=
  ∃ done stmt rest m m' halt, program = done ++ stmt :: rest ∧
    execute rounds done { scopes := [s.globals] } = .ok () m ∧
    stmt.execute rounds nestingLimit m = .error halt m' ∧ halt.failure? = some failure ∧
    out.printed = m'.printed.toList ∧ m'.scopes = [out.session.globals]

/-- A program that reports a failure fails in one of its statements. -/
theorem Session.failsIn_perform {rounds : Nat} {s : Session} {program : List Stmt}
    {failure : Failure} (h : .ofFailure failure ∈ (s.perform rounds program).reports) :
    s.FailsIn rounds program failure (s.perform rounds program) := by
  have hscopes := scopes_endState_execute rounds program s.globals
  rw [perform_eq_conclude] at h ⊢
  cases hr : execute rounds program { scopes := [s.globals] } with
  | ok u m =>
    rw [hr] at h
    exact absurd h List.not_mem_nil
  | error halt m' =>
    rw [hr] at h hscopes
    obtain ⟨done, stmt, rest, m, hprogram, hdone, hstmt⟩ := exists_halting hr
    have hfailure : halt.failure? = some failure := by
      cases halt <;> simp [conclude, settle, Halt.failure?] at h ⊢ <;> exact h.symm
    refine ⟨done, stmt, rest, m, m', halt, hprogram, hdone, hstmt, hfailure, ?_, ?_⟩
    · simp [conclude, settle, hfailure]
    · rw [show m'.scopes = _ from hscopes]
      simp [conclude, settle, hfailure, report, endState]

namespace Prompt

open Session

variable {rounds : Nat} {s : Session} {line : String} {rest lines : List String}
  {out : Outcome} {outs outs' : List Outcome}

/-! ## Single lines -/

/-- Between two lines the log is as it is after a reset, and the values are plain. -/
structure Ready (s : Session) : Prop where
  reset : s.reset = s
  plain : s.globals.Plain

theorem ready_empty : Ready {} := ⟨rfl, Bindings.plain_empty⟩

theorem Ready.hadFault (h : Ready s) : s.log.hadFault = false :=
  congrArg (fun s : Session => s.log.hadFault) h.reset.symm

/-- A line with a fault is reported, and that is all. -/
theorem enter_of_faulty (hs : Ready s) (h : (read line).reports ≠ []) (rounds : Nat) :
    enter rounds false s line = { session := s, reports := (read line).reports } := by
  have hall : ∀ r ∈ (read line).reports, r.isFault = true := fun _ hr => isFault_of_mem_read hr
  obtain ⟨r, more, hr⟩ := List.exists_cons_of_ne_nil h
  have hfault : (s.report (read line).reports).log.hadFault = true := by
    have hr' : r.isFault = true := hall r (hr ▸ List.mem_cons_self)
    simp [report, Log.add, hr, hr']
  have hrun : s.run rounds false line =
      { session := s.report (read line).reports, reports := (read line).reports } :=
    runReading_of_hadFault hfault
  have hno : (read line).reports.any (!·.isFault) = false := by
    simpa using hall
  have hreset : (s.report (read line).reports).reset = s.reset := by
    simp [report, Session.reset, Log.add, Log.reset, hno]
  unfold enter
  rw [hrun]
  show Outcome.mk _ _ _ _ = _
  rw [hreset, hs.reset]

/-- A line without a fault is performed. -/
theorem enter_of_quiet (hs : Ready s) (h : (read line).reports = []) (rounds : Nat) :
    enter rounds false s line =
      if (s.perform rounds (read line).program).halt?.isSome then
        s.perform rounds (read line).program
      else { s.perform rounds (read line).program with
        session := (s.perform rounds (read line).program).session.reset } := by
  unfold enter
  rw [run_of_quiet hs.hadFault h]

/-- A line without a fault prints, reports and leaves what its program does. -/
theorem enter_like_perform (hs : Ready s) (h : (read line).reports = []) (rounds : Nat) :
    (enter rounds false s line).printed = (s.perform rounds (read line).program).printed ∧
      (enter rounds false s line).reports = (s.perform rounds (read line).program).reports ∧
      (enter rounds false s line).halt? = (s.perform rounds (read line).program).halt? ∧
      (enter rounds false s line).session.globals =
        (s.perform rounds (read line).program).session.globals := by
  rw [enter_of_quiet hs h]
  split <;> exact ⟨rfl, rfl, rfl, rfl⟩

theorem wellFormedAll_read (source : String) : Stmt.WellFormedAll (read source).program := by
  obtain ⟨program, hp, hw⟩ := exists_parse_scan source
  have hread : (read source).program = program := congrArg (·.getD []) hp
  rwa [hread]

/-- A line runs forever, or the session is ready for the next one. -/
theorem ready_enter (hs : Ready s) (rounds : Nat) (line : String) :
    (enter rounds false s line).halt? = some .unfinished ∨
      (enter rounds false s line).halt? = none ∧ Ready (enter rounds false s line).session := by
  by_cases h : (read line).reports = []
  · have hexpected := expected_perform (wellFormedAll_read line) hs.plain rounds
    obtain ⟨-, -, hhalt, hglobals⟩ := enter_like_perform hs h rounds
    rcases hexpected.halt with hn | hu
    · refine Or.inr ⟨hhalt.trans hn, ?_, hglobals ▸ hexpected.globals⟩
      rw [enter_of_quiet hs h, hn]
      rfl
    · exact Or.inl (hhalt.trans hu)
  · rw [enter_of_faulty hs h]
    exact Or.inr ⟨rfl, hs⟩

/-- What is so of a line and its outcome.  If it fails, it has no fault, and its program has done what
comes before the failure and nothing behind it. -/
structure Turn (rounds : Nat) (s : Session) (line : String) (out : Outcome) : Prop where
  entered : out = enter rounds false s line
  fails : ∀ failure, .ofFailure failure ∈ out.reports →
    (read line).reports = [] ∧ s.FailsIn rounds (read line).program failure out

theorem turn_enter (hs : Ready s) (rounds : Nat) (line : String) :
    Turn rounds s line (enter rounds false s line) := by
  refine ⟨rfl, fun failure hf => ?_⟩
  by_cases h : (read line).reports = []
  · obtain ⟨hprinted, hreports, -, hglobals⟩ := enter_like_perform hs h rounds
    refine ⟨h, ?_⟩
    rw [hreports] at hf
    unfold FailsIn
    rw [hprinted, hglobals]
    exact failsIn_perform hf
  · rw [enter_of_faulty hs h] at hf
    exact absurd (isFault_of_mem_read hf) Bool.false_ne_true

/-! ## Lines one after the other -/

theorem outcomes_cons (hline : leaves line = false)
    (h : (enter rounds false s line).halt? = none) :
    (outcomes rounds false s (line :: rest)).1 =
      enter rounds false s line ::
        (outcomes rounds false (enter rounds false s line).session rest).1 := by
  simp [outcomes, hline, h]

theorem outcomes_cons_of_halt {halt : Halt} (hline : leaves line = false)
    (h : (enter rounds false s line).halt? = some halt) :
    (outcomes rounds false s (line :: rest)).1 = [enter rounds false s line] := by
  simp [outcomes, hline, h]

theorem after_cons : s.after (out :: outs) = out.session.after outs := by
  unfold after
  rw [List.getLast?_cons]
  cases outs.getLast? <;> rfl

/-- The lines up to the first that ends the session. -/
def entered (lines : List String) : List String := lines.takeWhile fun line => !leaves line

/-- Each outcome is that of its line, in the session that the lines before it leave. -/
theorem turn_of_getElem? (hs : Ready s) (k : Nat)
    (h : (outcomes rounds false s lines).1[k]? = some out) :
    ∃ line, (entered lines)[k]? = some line ∧
      Turn rounds (s.after ((outcomes rounds false s lines).1.take k)) line out := by
  induction lines generalizing s k with
  | nil => cases h
  | cons line rest ih =>
    cases hline : leaves line with
    | true =>
      rw [outcomes_of_leaves hline] at h
      cases h
    | false =>
      have hentered : entered (line :: rest) = line :: entered rest := by simp [entered, hline]
      rw [hentered]
      rcases ready_enter hs rounds line with hhalt | ⟨hhalt, hready⟩
      · rw [outcomes_cons_of_halt hline hhalt] at h ⊢
        cases k with
        | zero =>
          obtain rfl := Option.some.inj h
          exact ⟨line, rfl, turn_enter hs rounds line⟩
        | succ k => cases h
      · rw [outcomes_cons hline hhalt] at h ⊢
        cases k with
        | zero =>
          obtain rfl := Option.some.inj h
          exact ⟨line, rfl, turn_enter hs rounds line⟩
        | succ k =>
          rw [List.take_succ_cons, after_cons]
          exact ih hready k h

/-- Every line gets its turn, unless one before it runs forever. -/
theorem length_outcomes (hs : Ready s) (rounds : Nat) (lines : List String) :
    (outcomes rounds false s lines).1.length = (entered lines).length ∨
      ∃ out ∈ (outcomes rounds false s lines).1.getLast?, out.halt? = some .unfinished := by
  induction lines generalizing s with
  | nil => exact Or.inl rfl
  | cons line rest ih =>
    cases hline : leaves line with
    | true =>
      rw [outcomes_of_leaves hline]
      exact Or.inl (by simp [entered, hline])
    | false =>
      have hentered : entered (line :: rest) = line :: entered rest := by simp [entered, hline]
      rw [hentered]
      rcases ready_enter hs rounds line with hhalt | ⟨hhalt, hready⟩
      · rw [outcomes_cons_of_halt hline hhalt]
        exact Or.inr ⟨_, rfl, hhalt⟩
      · rw [outcomes_cons hline hhalt]
        rcases ih hready with hlength | ⟨out, hout, hu⟩
        · exact Or.inl (congrArg (· + 1) hlength)
        · refine Or.inr ⟨out, ?_, hu⟩
          rw [List.getLast?_cons, Option.mem_def.1 hout]
          rfl

/-! ## Without the faulty lines -/

/-- Two rows of outcomes come to the same: they print the same, report the same failures, halt alike,
and leave the same session. -/
structure SameEffects (s : Session) (outs outs' : List Outcome) : Prop where
  printed : outs.flatMap Outcome.printed = outs'.flatMap Outcome.printed
  failures : (outs.flatMap Outcome.reports).filter (!·.isFault) = outs'.flatMap Outcome.reports
  halts : outs.filterMap Outcome.halt? = outs'.filterMap Outcome.halt?
  session : s.after outs = s.after outs'

theorem sameEffects_nil : SameEffects s [] [] := ⟨rfl, rfl, rfl, rfl⟩

/-- A line with a fault makes no difference. -/
theorem SameEffects.skip {reports : List Report} (hreports : ∀ r ∈ reports, r.isFault = true)
    (h : SameEffects s outs outs') : SameEffects s ({ session := s, reports } :: outs) outs' where
  printed := h.printed
  failures := by
    have hnone : reports.filter (!·.isFault) = [] := by simpa using hreports
    rw [List.flatMap_cons, List.filter_append, h.failures]
    exact congrArg (· ++ _) hnone
  halts := h.halts
  session := after_cons.trans h.session

/-- Any other line makes the same difference. -/
theorem SameEffects.cons (hreports : ∀ r ∈ out.reports, r.isFault = false)
    (h : SameEffects out.session outs outs') : SameEffects s (out :: outs) (out :: outs') where
  printed := by rw [List.flatMap_cons, List.flatMap_cons, h.printed]
  failures := by
    have hall : out.reports.filter (!·.isFault) = out.reports := by simpa using hreports
    rw [List.flatMap_cons, List.flatMap_cons, List.filter_append, h.failures, hall]
  halts := by rw [List.filterMap_cons, List.filterMap_cons, h.halts]
  session := by rw [after_cons, after_cons, h.session]

/-- The lines that have no fault, up to the first that ends the session. -/
def faultless (lines : List String) : List String :=
  (entered lines).filter fun line => (read line).reports.isEmpty

theorem isFault_enter (hs : Ready s) (h : (read line).reports = []) (rounds : Nat) :
    ∀ r ∈ (enter rounds false s line).reports, r.isFault = false := by
  obtain ⟨-, hreports, -, -⟩ := enter_like_perform hs h rounds
  rw [hreports]
  rcases reports_perform rounds s (read line).program with hr | ⟨failure, hr⟩ <;> simp [hr]

/-- A session that is ready does the same without the faulty lines and those that come too late. -/
theorem sameEffects_faultless (hs : Ready s) (rounds : Nat) (lines : List String) :
    SameEffects s (outcomes rounds false s lines).1
      (outcomes rounds false s (faultless lines)).1 := by
  induction lines generalizing s with
  | nil => exact sameEffects_nil
  | cons line rest ih =>
    cases hline : leaves line with
    | true =>
      have hnone : faultless (line :: rest) = [] := by simp [faultless, entered, hline]
      rw [outcomes_of_leaves hline, hnone]
      exact sameEffects_nil
    | false =>
      by_cases hquiet : (read line).reports = []
      · have hcons : faultless (line :: rest) = line :: faultless rest := by
          simp [faultless, entered, hline, hquiet]
        have hreports := isFault_enter hs hquiet rounds
        rw [hcons]
        rcases ready_enter hs rounds line with hhalt | ⟨hhalt, hready⟩
        · rw [outcomes_cons_of_halt hline hhalt, outcomes_cons_of_halt hline hhalt]
          exact sameEffects_nil.cons hreports
        · rw [outcomes_cons hline hhalt, outcomes_cons hline hhalt]
          exact (ih hready).cons hreports
      · have hskip : faultless (line :: rest) = faultless rest := by
          simp [faultless, entered, hline, hquiet]
        have henter := enter_of_faulty hs hquiet rounds
        rw [hskip, outcomes_cons hline (by rw [henter]), henter]
        exact (ih hs).skip fun _ hr => isFault_of_mem_read hr

/-- A bad line at the prompt has no effect on the rest of the session.  Without the lines that have a
fault, and without all lines from the first that ends the session on, the same is printed, the same
failures are reported, and the same globals are left.  Each line runs in what the lines before it
leave; one that fails stops only itself and leaves what it has done up to there; and every line gets
its turn unless one before it runs forever. -/
theorem outcomes_without_faulty_lines (rounds : Nat) (lines : List String) :
    let outs := (outcomes rounds false {} lines).1
    SameEffects {} outs (outcomes rounds false {} (faultless lines)).1 ∧
      (∀ k out, outs[k]? = some out → ∃ line, (entered lines)[k]? = some line ∧
        Turn rounds (Session.after {} (outs.take k)) line out) ∧
      (outs.length = (entered lines).length ∨
        ∃ out ∈ outs.getLast?, out.halt? = some .unfinished) :=
  ⟨sameEffects_faultless ready_empty rounds lines,
    fun k _ h => turn_of_getElem? ready_empty k h,
    length_outcomes ready_empty rounds lines⟩

end Prompt

end Lox
