import Lox.Proofs.Grammar.OpenBlock
import Lox.Proofs.Run.Prompt

/-!
# What a script writes

The exit status of a script and the texts on its two channels agree (`Script.accounts_run`).  A text
with a fault does not run: its faults are written, those of its tokens before those of its tree.  A
program that fails has written all it printed up to the failure, and the failure is written alone.
No text brings a script to an end without a status.

A fault that is found on the last level of nesting is listed and not written.  Then the next fault is
written, which is the limit on nesting at the same token.
-/

namespace Lox

open Computing Execution

/-! ## What is printed -/

/-- The lines that are printed in a trace. -/
def emitted (events : List Event) : List String :=
  events.filterMap fun
    | .emit v => v.text?
    | _ => none

theorem printed_apply (m : Machine) (event : Event) :
    (m.apply event).printed.toList = m.printed.toList ++ emitted [event] := by
  cases event with
  | emit v => cases h : v.text? <;> simp [Machine.apply, emitted, h]
  | _ => exact (List.append_nil _).symm

/-- Playing back a trace prints its lines. -/
theorem Replays.printed_eq {m m' : Machine} {events : List Event} (h : Replays m events m') :
    m'.printed.toList = m.printed.toList ++ emitted events := by
  induction h with
  | nil => exact (List.append_nil _).symm
  | @cons m event events m' _ _ ih =>
    have hcons : emitted (event :: events) = emitted [event] ++ emitted events :=
      List.filterMap_append (l := [event])
    rw [ih, printed_apply, hcons, List.append_assoc]

/-! ## Texts on a channel -/

/-- The text is these lines, each with a line feed behind it. -/
def Text.Shows (text : String) (lines : List String) : Prop :=
  text.toList = lines.flatMap fun line => line.toList ++ ['\n']

theorem Text.shows_printLines (lines : List String) : Shows (printLines lines) lines := by
  unfold Shows printLines
  induction lines with
  | nil => rfl
  | cons line lines ih =>
    rw [List.map_cons, String.join_cons, String.toList_append, String.toList_append, ih,
      List.flatMap_cons]
    rfl

/-- The message that a report shows.  One that is not written shows none. -/
def Report.message? : Report → Option String
  | unwritten .. => none
  | r => some r.text

theorem Report.filterMap_message? (reports : List Report) :
    reports.filterMap message? = (reports.filter isWritten).map text := by
  induction reports with
  | nil => rfl
  | cons r reports ih =>
    cases r with
    | unwritten => exact ih
    | ofFault | ofFailure => exact congrArg (List.cons _) ih

theorem Text.shows_reportLines (reports : List Report) :
    Shows (reportLines reports) (reports.filterMap Report.message?) := by
  rw [Report.filterMap_message?]
  exact shows_printLines _

namespace Script

/-! ## How a script ends -/

/-- The machine that a script starts with. -/
def start : Machine := { scopes := [{}] }

/-- The declarations read from a text. -/
def program (text : String) : List Stmt := (parse (scan text).tokens).program?.getD []

/-- The faults of a text: first those found while it is scanned, then those found while its tokens
are read. -/
def faults (text : String) : List Report :=
  (scan text).reports ++ (parse (scan text).tokens).reports

/-- The program of a text comes to a failure. -/
def Fails (rounds : Nat) (text : String) (failure : Failure) : Prop :=
  ∃ halt m, execute rounds (program text) start = .error halt m ∧ halt.failure? = some failure

/-- The lines that the program of a text prints, up to where it ends. -/
def lines (rounds : Nat) (text : String) : List String :=
  emitted (trace rounds (program text) start)

/-- The transcript accounts for what came of a text: it had faults, or its program failed, or all
went well. -/
structure Accounts (rounds : Nat) (text : String) (t : Transcript) : Prop where
  status : t.exit = .ok 65 ∨ t.exit = .ok 70 ∨ t.exit = .ok 0
  faulty_iff : t.exit = .ok 65 ↔ faults text ≠ []
  /-- The faults found while the tokens are read are written, but for those on the last level. -/
  faulty : faults text ≠ [] → t.stdout = "" ∧
    Text.Shows t.stderr ((scan text).reports.map Report.text ++
      (parse (scan text).tokens).reports.filterMap Report.message?)
  /-- Where a fault is not written, the next one is, and blames the same token for the limit. -/
  doubled : ∀ i line place fault,
    (parse (scan text).tokens).reports[i]? = some (.unwritten line place fault) →
      (parse (scan text).tokens).reports[i + 1]? = some (.ofFault line place .tooDeep)
  /-- Within the limit on nesting all faults are written. -/
  allWritten : faults text ≠ [] → (parse (scan text).tokens).WithinNesting →
    Text.Shows t.stderr ((scan text).reports.map Report.text ++
      (parse (scan text).tokens).reports.map Report.text)
  failed_iff : t.exit = .ok 70 ↔ faults text = [] ∧ ∃ failure, Fails rounds text failure
  failed : faults text = [] → ∀ failure, Fails rounds text failure →
    Text.Shows t.stdout (lines rounds text) ∧
      Text.Shows t.stderr [(Report.ofFailure failure).text] ∧
      ({} : Session).FailsIn rounds (program text) failure (Session.run rounds false {} text)
  success_iff : t.exit = .ok 0 ↔
    faults text = [] ∧ ∃ m, execute rounds (program text) start = .ok () m
  success : t.exit = .ok 0 → Text.Shows t.stdout (lines rounds text) ∧ t.stderr = ""

variable {rounds : Nat} {text : String}

/-- What is printed is what the trace of the program prints. -/
theorem printed_execute (rounds : Nat) (text : String) :
    (endState (execute rounds (program text) start)).printed.toList = lines rounds text := by
  rw [(replays_execute rounds (program text) start).printed_eq]
  exact List.nil_append _

/-- A script is unfinished just if its session is. -/
theorem exit_eq_unfinished_iff :
    (run rounds false text).exit = .error .unfinished ↔
      (Session.run rounds false {} text).halt? = some .unfinished := by
  unfold run
  dsimp only
  cases (Session.run rounds false {} text).halt? with
  | none => simp
  | some halt => simp

/-! ### Texts with faults -/

theorem run_of_faulty (h : faults text ≠ []) (rounds : Nat) :
    run rounds false text = ⟨.ok 65, "", reportLines (faults text)⟩ := by
  obtain ⟨r, hr⟩ := List.exists_mem_of_ne_nil _ h
  have hfault : (Session.report {} (faults text)).log.hadFault = true :=
    List.any_eq_true.2 ⟨r, hr, Session.isFault_of_mem_read hr⟩
  have hrun : Session.run rounds false {} text =
      { session := Session.report {} (faults text), reports := faults text } :=
    Session.runReading_of_hadFault hfault
  unfold run
  rw [hrun]
  simp only [exitOf, hfault, if_true]
  rfl

/-- Every fault found while the text is scanned is written. -/
theorem filterMap_message?_faults (text : String) :
    (faults text).filterMap Report.message? = (scan text).reports.map Report.text ++
      (parse (scan text).tokens).reports.filterMap Report.message? := by
  rw [faults, List.filterMap_append, ← List.filterMap_eq_map]
  refine congrArg (· ++ _) (List.filterMap_congr fun r hr => ?_)
  obtain ⟨line, fault, rfl⟩ := exists_eq_ofFault_of_mem_reportsFrom hr
  rfl

/-- A fault that is not written is followed by one that is. -/
theorem doubled_faults (text : String) (i : Nat) (line : Int) (place : Place) (fault : Fault)
    (hi : (parse (scan text).tokens).reports[i]? = some (.unwritten line place fault)) :
    (parse (scan text).tokens).reports[i + 1]? = some (.ofFault line place .tooDeep) :=
  getElem?_succ_of_unwritten (exists_eof_tokensFrom 1 _) hi

theorem accounts_of_faulty (h : faults text ≠ []) (rounds : Nat) :
    Accounts rounds text (run rounds false text) := by
  have hshows := Text.shows_reportLines (faults text)
  rw [filterMap_message?_faults] at hshows
  rw [run_of_faulty h]
  exact {
    status := Or.inl rfl
    faulty_iff := iff_of_true rfl h
    faulty := fun _ => ⟨rfl, hshows⟩
    doubled := doubled_faults text
    allWritten := fun _ hn => by
      have hend : ∃ t ∈ (scan text).tokens, t.kind = .eof := exists_eof_tokensFrom 1 _
      rwa [Report.filterMap_message?, List.filter_eq_self.2 fun r hr =>
        isWritten_of_withinNesting hend hn hr] at hshows
    failed_iff := iff_of_false (by simp) fun hf => h hf.1
    failed := fun hf => absurd hf h
    success_iff := iff_of_false (by simp) fun hf => h hf.1
    success := fun hs => by simp at hs }

/-! ### Texts without faults -/

/-- The program of a text without faults is performed. -/
theorem run_eq_perform (h : faults text = []) (rounds : Nat) :
    Session.run rounds false {} text = Session.perform rounds {} (program text) :=
  Session.run_of_quiet rfl h

theorem accounts_of_ok (h : faults text = []) {m : Machine}
    (hm : execute rounds (program text) start = .ok () m) :
    Accounts rounds text (run rounds false text) := by
  have hlines := printed_execute rounds text
  rw [hm] at hlines
  have hout : Session.perform rounds {} (program text) = Session.conclude {} (.ok () m) :=
    congrArg (Session.conclude {}) hm
  have hrun : run rounds false text = ⟨.ok 0, Text.printLines (lines rounds text), ""⟩ := by
    unfold run
    rw [run_eq_perform h, hout, ← hlines]
    rfl
  have hfails : ∀ failure, ¬ Fails rounds text failure := by
    rintro failure ⟨halt, m', he, -⟩
    rw [hm] at he
    cases he
  rw [hrun]
  exact {
    status := Or.inr (Or.inr rfl)
    faulty_iff := iff_of_false (by simp) (by simp [h])
    faulty := fun hne => absurd h hne
    doubled := doubled_faults text
    allWritten := fun hne => absurd h hne
    failed_iff := iff_of_false (by simp) fun hf => hf.2.elim hfails
    failed := fun _ failure hf => absurd hf (hfails failure)
    success_iff := iff_of_true rfl ⟨h, m, hm⟩
    success := fun _ => ⟨Text.shows_printLines _, rfl⟩ }

theorem accounts_of_failure (h : faults text = []) {halt : Halt} {m : Machine} {failure : Failure}
    (hm : execute rounds (program text) start = .error halt m)
    (hf : halt.failure? = some failure) : Accounts rounds text (run rounds false text) := by
  have hlines := printed_execute rounds text
  rw [hm] at hlines
  have hconclude : Session.conclude {} (.error halt m) =
      { session := Session.report { globals := m.scopes.headD {} } [.ofFailure failure]
        printed := m.printed.toList, reports := [.ofFailure failure] } := by
    simp only [Session.conclude, Session.settle, hf]
  have hout : Session.perform rounds {} (program text) = _ :=
    (congrArg (Session.conclude {}) hm).trans hconclude
  have hrun : run rounds false text =
      ⟨.ok 70, Text.printLines (lines rounds text), reportLines [.ofFailure failure]⟩ := by
    unfold run
    rw [run_eq_perform h, hout, ← hlines]
    rfl
  have hsame : ∀ failure', Fails rounds text failure' → failure' = failure := by
    rintro failure' ⟨halt', m', he, hf'⟩
    rw [hm] at he
    obtain ⟨rfl, rfl⟩ := EStateM.Result.error.inj he
    exact Option.some.inj (hf'.symm.trans hf)
  have hin : Session.FailsIn rounds {} (program text) failure
      (Session.run rounds false {} text) := by
    rw [run_eq_perform h]
    exact Session.failsIn_perform (hout ▸ List.mem_singleton_self _)
  rw [hrun]
  exact {
    status := Or.inr (Or.inl rfl)
    faulty_iff := iff_of_false (by simp) (by simp [h])
    faulty := fun hne => absurd h hne
    doubled := doubled_faults text
    allWritten := fun hne => absurd h hne
    failed_iff := iff_of_true rfl ⟨h, failure, halt, m, hm, hf⟩
    failed := fun _ failure' hf' => by
      obtain rfl := hsame failure' hf'
      exact ⟨Text.shows_printLines _, Text.shows_reportLines _, hin⟩
    success_iff := iff_of_false (by simp) (by simp [hm])
    success := fun hs => by simp at hs }

/-- A halt that is not reported is a loop that is not finished, since no misfit is ever met. -/
theorem eq_unfinished_of_failure? {halt : Halt} {m : Machine}
    (hm : execute rounds (program text) start = .error halt m) (hf : halt.failure? = none) :
    halt = .unfinished := by
  have hsafe := safe_execute (Prompt.wellFormedAll_read text) rounds
  have hstart : start.Plain := .cons Bindings.plain_empty Chain.plain_nil
  have hexpected := hsafe.halt start hstart halt m hm
  cases halt with
  | unfinished => rfl
  | failure | tooDeep => cases hf
  | _ => exact hexpected.elim

/-- A script is not finished in its rounds, or its transcript accounts for what came of it. -/
theorem unfinished_or_accounts (rounds : Nat) (text : String) :
    (run rounds false text).exit = .error .unfinished ∨
      Accounts rounds text (run rounds false text) := by
  by_cases h : faults text = []
  · cases hm : execute rounds (program text) start with
    | ok u m => exact Or.inr (accounts_of_ok h hm)
    | error halt m =>
      cases hf : halt.failure? with
      | some failure => exact Or.inr (accounts_of_failure h hm hf)
      | none =>
        obtain rfl := eq_unfinished_of_failure? hm hf
        have hout : Session.perform rounds {} (program text) =
            Session.conclude {} (.error .unfinished m) :=
          congrArg (Session.conclude {}) hm
        rw [exit_eq_unfinished_iff, run_eq_perform h, hout]
        exact Or.inl rfl
  · exact Or.inr (accounts_of_faulty h rounds)

/-- A script runs forever, or from some number of rounds on it writes the same. -/
theorem run_settles (text : String) :
    (∀ rounds, (run rounds false text).exit = .error .unfinished) ∨
      ∃ enough, ∀ rounds, enough ≤ rounds → run rounds false text = run enough false text ∧
        (run enough false text).exit ≠ .error .unfinished := by
  by_cases h : faults text = []
  · simp only [ne_eq, exit_eq_unfinished_iff, run_eq_perform h]
    rcases Session.perform_settles {} (program text) with hforever | ⟨enough, hsettles⟩
    · exact Or.inl hforever
    · refine Or.inr ⟨enough, fun rounds hr => ⟨?_, (hsettles rounds hr).2⟩⟩
      unfold run
      rw [run_eq_perform h, run_eq_perform h, (hsettles rounds hr).1]
  · refine Or.inr ⟨0, fun rounds _ => ?_⟩
    rw [run_of_faulty h, run_of_faulty h]
    exact ⟨rfl, by simp⟩

/-- For every text, the exit status of a script and what it writes agree.  The status is 65 just if
scanning or reading reports a fault; then nothing is printed, and the faults are written, those of
scanning first, but for those found on the last level of nesting.  Otherwise it is 70 just if the
program comes to a failure; then this failure is written, and printed is what the program has printed
before it.  Otherwise it is 0, and no report is written.  Unless the program runs forever, there is
one of these three, with any sufficient number of rounds. -/
theorem accounts_run (text : String) :
    (∀ rounds, (run rounds false text).exit = .error .unfinished ∨
      Accounts rounds text (run rounds false text)) ∧
    ((∀ rounds, (run rounds false text).exit = .error .unfinished) ∨
      ∃ enough, ∀ rounds, enough ≤ rounds →
        run rounds false text = run enough false text ∧
          Accounts enough text (run enough false text)) := by
  refine ⟨fun rounds => unfinished_or_accounts rounds text, ?_⟩
  rcases run_settles text with h | ⟨enough, h⟩
  · exact Or.inl h
  · refine Or.inr ⟨enough, fun rounds hr => ⟨(h rounds hr).1, ?_⟩⟩
    exact (unfinished_or_accounts enough text).resolve_left (h rounds hr).2

end Script

end Lox
