import Lox.Proofs.Grammar.Blame
import Lox.Proofs.Run.Relabel

/-!
# The history of a session

Texts, programs and questions come to a session in any order, with resets between them, and all
report to one log.  After any of them the log holds just what has been reported since the last reset,
and its flags say just that there was a fault since then and that there ever was a failure
(`Log.records_foldl`).  So a text runs if and only if neither what is in the log nor the text itself
has a fault (`Session.gates_run`), whatever came before (`Session.history_exact`).
-/

namespace Lox

/-! ## Logs and what happens to them -/

namespace Log

/-- What can happen to a log. -/
inductive Entry
  | report (r : Report)
  | reset

/-- The log after it has happened. -/
def enter (log : Log) : Entry → Log
  | .report r => log.add [r]
  | .reset => log.reset

/-- The log says what has happened: it holds all reports since the last reset or the start, in order,
and knows whether a fault is among them, and whether there was a failure at any time. -/
structure Records (log : Log) (entries : List Entry) : Prop where
  reports : ∃ before, entries = before ++ log.reports.map .report ∧
    ∀ last ∈ before.getLast?, last = .reset
  hadFault : log.hadFault = true ↔ ∃ r ∈ log.reports, r.isFault = true
  hadFailure : log.hadFailure = true ↔ ∃ r, .report r ∈ entries ∧ r.isFault = false

variable {log : Log} {entries : List Entry}

theorem records_nil : ({} : Log).Records [] where
  reports := ⟨[], rfl, by simp⟩
  hadFault := by simp
  hadFailure := by simp

theorem Records.report (h : log.Records entries) (r : Report) :
    (log.enter (.report r)).Records (entries ++ [.report r]) where
  reports := by
    obtain ⟨before, hentries, hlast⟩ := h.reports
    exact ⟨before, by simp [enter, add, hentries], hlast⟩
  hadFault := by simp [enter, add, h.hadFault, or_and_right, exists_or]
  hadFailure := by simp [enter, add, h.hadFailure, or_and_right, exists_or]

theorem Records.reset (h : log.Records entries) : (log.enter .reset).Records (entries ++ [.reset]) where
  reports := ⟨entries ++ [.reset], by simp [enter], by simp⟩
  hadFault := by simp [enter]
  hadFailure := by simp [enter, h.hadFailure]

theorem Records.foldl (h : log.Records entries) (more : List Entry) :
    (more.foldl enter log).Records (entries ++ more) := by
  induction more generalizing log entries with
  | nil => simpa using h
  | cons entry more ih =>
    rw [List.append_cons]
    cases entry with
    | report r => exact ih (h.report r)
    | reset => exact ih h.reset

/-- Whatever happens to a log from its start on, it says so. -/
theorem records_foldl (entries : List Entry) : (entries.foldl enter {}).Records entries :=
  records_nil.foldl entries

/-- Reports are added one by one. -/
theorem add_eq_foldl (log : Log) (reports : List Report) :
    log.add reports = (reports.map Entry.report).foldl enter log := by
  induction reports generalizing log with
  | nil => exact add_nil log
  | cons r reports ih =>
    rw [List.map_cons, List.foldl_cons, ← ih]
    exact (add_add log [r] reports).symm

end Log

namespace Session

variable {s : Session} {rounds : Nat}

/-! ## What a step adds to the log -/

/-- The reports that an outcome shows are those it adds to the log. -/
def Logs (s : Session) (out : Outcome) : Prop := out.session.log = s.log.add out.reports

theorem logs_settle (s : Session) (globals : Bindings) (printed : List String) (halt? : Option Halt) :
    s.Logs (s.settle globals printed halt?) := by
  have hquiet : s.log = s.log.add [] := (Log.add_nil _).symm
  unfold Logs settle
  cases halt? with
  | none => exact hquiet
  | some halt => cases halt <;> first | rfl | exact hquiet

/-- A computation reports one failure, if anything. -/
theorem reports_settle (s : Session) (globals : Bindings) (printed : List String)
    (halt? : Option Halt) :
    (s.settle globals printed halt?).reports = [] ∨
      ∃ failure, (s.settle globals printed halt?).reports = [.ofFailure failure] := by
  unfold settle
  cases halt? with
  | none => exact Or.inl rfl
  | some halt => cases halt <;> first | exact Or.inl rfl | exact Or.inr ⟨_, rfl⟩

/-- A program is performed by a computation that is settled. -/
theorem exists_perform_eq_settle (rounds : Nat) (s : Session) (program : List Stmt) :
    ∃ globals printed halt?, s.perform rounds program = s.settle globals printed halt? := by
  unfold perform
  split <;> exact ⟨_, _, _, rfl⟩

theorem logs_perform (rounds : Nat) (s : Session) (program : List Stmt) :
    s.Logs (s.perform rounds program) := by
  obtain ⟨globals, printed, halt?, h⟩ := exists_perform_eq_settle rounds s program
  rw [h]
  exact logs_settle ..

theorem reports_perform (rounds : Nat) (s : Session) (program : List Stmt) :
    (s.perform rounds program).reports = [] ∨
      ∃ failure, (s.perform rounds program).reports = [.ofFailure failure] := by
  obtain ⟨globals, printed, halt?, h⟩ := exists_perform_eq_settle rounds s program
  rw [h]
  exact reports_settle ..

theorem logs_evaluate (s : Session) (e : Expr) : s.Logs (s.evaluate e).1 := by
  unfold evaluate
  split
  · split <;> exact logs_settle ..
  · exact logs_settle ..

theorem logs_runReading (rounds : Nat) (s : Session) (r : Reading) :
    s.Logs (s.runReading rounds r) := by
  cases h : (s.report r.reports).log.hadFault with
  | true =>
    rw [runReading_of_hadFault h]
    rfl
  | false =>
    rw [runReading_of_not_hadFault h]
    exact (logs_perform rounds (s.report r.reports) r.program).trans (Log.add_add ..)

/-- The lines that show what a text is before it runs. -/
def dumped (debug : Bool) (source : String) : List String :=
  if debug then (dump (read source)).1 else []

/-- A text that can be shown, if that is asked for, runs behind what shows it. -/
theorem run_eq_or (rounds : Nat) (debug : Bool) (s : Session) (source : String) :
    s.run rounds debug source = { s.runReading rounds (read source) with
        printed := dumped debug source ++ (s.runReading rounds (read source)).printed } ∨
      (debug = true ∧ (dump (read source)).2 = false) ∧
        s.run rounds debug source =
          { session := s.report (read source).reports, printed := dumped debug source,
            reports := (read source).reports, halt? := some .tooDeep } := by
  cases debug with
  | false => exact Or.inl rfl
  | true =>
    cases hwhole : (dump (read source)).2 with
    | true => exact Or.inl (if_pos hwhole)
    | false => exact Or.inr ⟨⟨rfl, rfl⟩, if_neg (Bool.eq_false_iff.1 hwhole)⟩

theorem logs_run (rounds : Nat) (debug : Bool) (s : Session) (source : String) :
    s.Logs (s.run rounds debug source) := by
  rcases run_eq_or rounds debug s source with h | ⟨-, h⟩
  · rw [h]
    exact logs_runReading rounds s (read source)
  · rw [h]
    rfl

/-! ## Faults stop a text -/

/-- Scanning and reading a text reports nothing but faults. -/
theorem isFault_of_mem_read {source : String} {r : Report} (h : r ∈ (read source).reports) :
    r.isFault = true := by
  rcases List.mem_append.1 h with h | h
  · obtain ⟨line, fault, rfl⟩ := exists_eq_ofFault_of_mem_reportsFrom h
    rfl
  · exact isFault_of_mem_parse h

/-- There is a fault among the reports in the log or in the text. -/
def Blocked (s : Session) (source : String) : Prop :=
  ∃ r ∈ s.log.reports ++ (read source).reports, r.isFault = true

/-- How a text runs.  With a fault in the log or the text, its faults are reported, and nothing else
is done but to show it if that is asked for.  Without one its program is performed, which reports at
most one failure, unless the text is to be shown and cannot be. -/
structure Gates (rounds : Nat) (debug : Bool) (s : Session) (source : String) (out : Outcome) :
    Prop where
  faults : ∀ r ∈ (read source).reports, r.isFault = true
  blocked : s.Blocked source → out.printed = dumped debug source ∧
    out.session.globals = s.globals ∧ out.reports = (read source).reports
  quiet : ¬ s.Blocked source → (read source).reports = [] ∧
    (out.reports = [] ∨ ∃ failure, out.reports = [.ofFailure failure])
  runs : ¬ s.Blocked source →
    out = { s.perform rounds (read source).program with
        printed := dumped debug source ++ (s.perform rounds (read source).program).printed } ∨
      (debug = true ∧ (dump (read source)).2 = false) ∧
        out = { session := s, printed := dumped debug source, halt? := some .tooDeep }

section Gates

variable {entries : List Log.Entry} {source : String}

/-- The flag of a log that says what has happened tells whether there is a fault. -/
theorem hadFault_report_iff (h : s.log.Records entries) (source : String) :
    (s.report (read source).reports).log.hadFault = true ↔ s.Blocked source := by
  show (_ || _) = true ↔ _
  rw [Bool.or_eq_true, h.hadFault, List.any_eq_true]
  simp only [Blocked, List.mem_append, or_and_right, exists_or]

theorem reports_read_of_not_blocked (h : ¬ s.Blocked source) : (read source).reports = [] := by
  refine List.eq_nil_iff_forall_not_mem.2 fun r hr => h ⟨r, ?_, isFault_of_mem_read hr⟩
  exact List.mem_append_right _ hr

/-- With a fault in the log or the text nothing runs. -/
theorem runReading_of_blocked (h : s.log.Records entries) (hb : s.Blocked source) (rounds : Nat) :
    s.runReading rounds (read source) =
      { session := s.report (read source).reports, reports := (read source).reports } :=
  runReading_of_hadFault ((hadFault_report_iff h source).2 hb)

/-- Without one the program is performed in the session as it is. -/
theorem runReading_of_not_blocked (h : s.log.Records entries) (hb : ¬ s.Blocked source)
    (rounds : Nat) : s.runReading rounds (read source) = s.perform rounds (read source).program := by
  have hflag : (s.report (read source).reports).log.hadFault = false :=
    Bool.eq_false_iff.2 fun hf => hb ((hadFault_report_iff h source).1 hf)
  have hquiet := reports_read_of_not_blocked hb
  have hs : s.report (read source).reports = s := by rw [hquiet, report, Log.add_nil]
  rw [runReading_of_not_hadFault hflag, hs, hquiet]
  rfl

/-- If the log says what has happened, a text runs just if there is no fault. -/
theorem gates_run (h : s.log.Records entries) (rounds : Nat) (debug : Bool) (source : String) :
    s.Gates rounds debug source (s.run rounds debug source) where
  faults _ hr := isFault_of_mem_read hr
  blocked hb := by
    rcases run_eq_or rounds debug s source with hrun | ⟨-, hrun⟩
    · rw [hrun, runReading_of_blocked h hb]
      exact ⟨List.append_nil _, rfl, rfl⟩
    · rw [hrun]
      exact ⟨rfl, rfl, rfl⟩
  quiet hb := by
    have hquiet := reports_read_of_not_blocked hb
    refine ⟨hquiet, ?_⟩
    rcases run_eq_or rounds debug s source with hrun | ⟨-, hrun⟩
    · rw [hrun, runReading_of_not_blocked h hb]
      exact reports_perform rounds s _
    · rw [hrun]
      exact Or.inl hquiet
  runs hb := by
    rcases run_eq_or rounds debug s source with hrun | ⟨hshown, hrun⟩
    · rw [hrun, runReading_of_not_blocked h hb]
      exact Or.inl rfl
    · have hquiet := reports_read_of_not_blocked hb
      have hs : s.report (read source).reports = s := by rw [hquiet, report, Log.add_nil]
      rw [hrun, hs, hquiet]
      exact Or.inr ⟨hshown, rfl⟩

end Gates

/-! ## Histories -/

/-- What can be done with a session. -/
inductive Step
  | text (debug : Bool) (source : String)
  | program (program : List Stmt)
  | value (e : Expr)
  | reset

/-- Takes a step. -/
def take (rounds : Nat) (s : Session) : Step → Outcome
  | .text debug source => s.run rounds debug source
  | .program program => s.perform rounds program
  | .value e => (s.evaluate e).1
  | .reset => { session := s.reset }

/-- What a step with this outcome does to the log. -/
def Step.entries (out : Outcome) : Step → List Log.Entry
  | .reset => [.reset]
  | .text .. | .program _ | .value _ => out.reports.map .report

/-- What steps taken one after the other do to the log, and the session they leave. -/
def history (rounds : Nat) : Session → List Step → List Log.Entry × Session
  | s, [] => ([], s)
  | s, step :: steps =>
    let out := s.take rounds step
    let (entries, last) := history rounds out.session steps
    (step.entries out ++ entries, last)

/-- A step does to the log what it shows. -/
theorem log_take (rounds : Nat) (s : Session) (step : Step) :
    (s.take rounds step).session.log =
      (step.entries (s.take rounds step)).foldl Log.enter s.log := by
  cases step with
  | text debug source => exact (logs_run rounds debug s source).trans (Log.add_eq_foldl ..)
  | program program => exact (logs_perform rounds s program).trans (Log.add_eq_foldl ..)
  | value e => exact (logs_evaluate s e).trans (Log.add_eq_foldl ..)
  | reset => rfl

theorem log_history (rounds : Nat) (s : Session) (steps : List Step) :
    (history rounds s steps).2.log = (history rounds s steps).1.foldl Log.enter s.log := by
  induction steps generalizing s with
  | nil => rfl
  | cons step steps ih =>
    rw [history, List.foldl_append, ← log_take]
    exact ih _

/-- At every moment of a session, during a step and between two of them, its log says just what has
happened so far.  So whether a text runs next depends on the faults since the last reset and on its
own faults, and on nothing else. -/
theorem history_exact (rounds : Nat) (steps : List Step) :
    let entries := (history rounds {} steps).1
    let s := (history rounds {} steps).2
    s.log = entries.foldl Log.enter {} ∧
      (∀ k, ((entries.take k).foldl Log.enter {}).Records (entries.take k)) ∧
      ∀ debug source, s.Gates rounds debug source (s.run rounds debug source) := by
  intro entries s
  have hlog : s.log = entries.foldl Log.enter {} := log_history rounds {} steps
  have hrecords : s.log.Records entries := hlog ▸ Log.records_foldl entries
  exact ⟨hlog, fun k => Log.records_foldl _, fun debug source => gates_run hrecords rounds debug source⟩

end Session

end Lox
