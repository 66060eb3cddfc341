import Lox.Grammar.Statement
import Lox.Proofs.Computation

/-!
# Results of the steps

When a step of a rule ends well and when it stops, and in which place it leaves the reading.  The
proofs about rules open the steps by these statements and by nothing else.
-/

namespace Lox.Grammar

open Computing

variable {α : Type} {s s' : Reading} {t : Token} {r : List Token} {kinds : List Kind} {stop : Stop}

/-! ## Single tokens -/

theorem peek_eq_ok : peek s = .ok t s' ↔ s = s' ∧ ∃ r, s.ahead = t :: r := by
  unfold peek
  cases h : s.ahead with
  | nil => simp
  | cons u r => simp [eq_comm, and_comm]

theorem peek_eq_error : peek s = .error stop s' ↔ stop = .ranOut ∧ s' = s ∧ s.ahead = [] := by
  unfold peek
  cases h : s.ahead with
  | nil => simp [eq_comm]
  | cons u r => simp

/-- A token that is read is of one of the kinds and no end. -/
theorem accept_eq_some :
    accept kinds s = .ok (some t) s' ↔
      s.ahead = t :: s'.ahead ∧ s'.reports = s.reports ∧ t.kind ≠ .eof ∧ t.kind ∈ kinds := by
  constructor
  · intro h
    cases hs : s.ahead with
    | nil => simp [accept, hs] at h
    | cons u r =>
      by_cases heof : u.kind = .eof
      · rw [accept_of_eof hs heof] at h
        cases h
      by_cases hmem : u.kind ∈ kinds
      · rw [accept_of_mem hs heof hmem] at h
        obtain ⟨hu, rfl⟩ := EStateM.Result.ok.inj h
        obtain rfl := Option.some.inj hu
        exact ⟨rfl, rfl, heof, hmem⟩
      · rw [accept_of_not_mem hs hmem] at h
        cases h
  · rintro ⟨hs, hr, heof, hmem⟩
    rw [accept_of_mem hs heof hmem, ← hr]

theorem accept_of_kind {kind : Kind} {reports : List Report} (h : t.kind = kind)
    (heof : kind ≠ .eof) : accept [kind] ⟨t :: r, reports⟩ = .ok (some t) ⟨r, reports⟩ :=
  accept_of_mem rfl (h ▸ heof) (List.mem_singleton.2 h)

theorem accept_of_ne {kind : Kind} {reports : List Report} (h : t.kind ≠ kind) :
    accept [kind] ⟨t :: r, reports⟩ = .ok none ⟨t :: r, reports⟩ :=
  accept_of_not_mem rfl fun hm => h (List.mem_singleton.1 hm)

/-- Any other token stays ahead. -/
theorem accept_eq_none :
    accept kinds s = .ok none s' ↔
      s = s' ∧ ∃ t r, s.ahead = t :: r ∧ (t.kind = .eof ∨ t.kind ∉ kinds) := by
  constructor
  · intro h
    cases hs : s.ahead with
    | nil => simp [accept, hs] at h
    | cons u r =>
      by_cases heof : u.kind = .eof
      · rw [accept_of_eof hs heof] at h
        exact ⟨(EStateM.Result.ok.inj h).2, u, r, rfl, Or.inl heof⟩
      by_cases hmem : u.kind ∈ kinds
      · rw [accept_of_mem hs heof hmem] at h
        cases h
      · rw [accept_of_not_mem hs hmem] at h
        exact ⟨(EStateM.Result.ok.inj h).2, u, r, rfl, Or.inr hmem⟩
  · rintro ⟨rfl, t, r, hs, heof | hmem⟩
    · exact accept_of_eof hs heof
    · exact accept_of_not_mem hs hmem

theorem accept_eq_error :
    accept kinds s = .error stop s' ↔ stop = .ranOut ∧ s' = s ∧ s.ahead = [] := by
  unfold accept
  cases h : s.ahead with
  | nil => simp [eq_comm]
  | cons u r => simp only [reduceCtorEq, and_false, iff_false]; split <;> simp

theorem isNext_eq_ok {b : Bool} :
    isNext kinds s = .ok b s' ↔
      s = s' ∧ ∃ t r, s.ahead = t :: r ∧ b = (t.kind ≠ .eof && kinds.contains t.kind) := by
  unfold isNext
  cases h : s.ahead with
  | nil => simp
  | cons u r => simp [eq_comm, and_comm]

theorem isNext_eq_error :
    isNext kinds s = .error stop s' ↔ stop = .ranOut ∧ s' = s ∧ s.ahead = [] := by
  unfold isNext
  cases h : s.ahead with
  | nil => simp [eq_comm]
  | cons u r => simp

theorem skip_eq_ok {u : Unit} :
    skip s = .ok u s' ↔ ∃ t, s.ahead = t :: s'.ahead ∧ s'.reports = s.reports := by
  obtain ⟨ahead', reports'⟩ := s'
  unfold skip
  cases h : s.ahead with
  | nil => simp
  | cons t r =>
    simp only [EStateM.Result.ok.injEq, true_and, Reading.mk.injEq, List.cons.injEq]
    constructor
    · rintro ⟨rfl, rfl⟩
      exact ⟨t, ⟨rfl, rfl⟩, rfl⟩
    · rintro ⟨_, ⟨rfl, rfl⟩, rfl⟩
      exact ⟨rfl, rfl⟩

theorem skip_eq_error : skip s = .error stop s' ↔ stop = .ranOut ∧ s' = s ∧ s.ahead = [] := by
  unfold skip
  cases h : s.ahead with
  | nil => simp [eq_comm]
  | cons u r => simp

theorem report_eq_ok {u : Unit} {n : Nat} {fault : Fault} :
    report n t fault s = .ok u s' ↔
      n ≠ 0 ∧ s' = { s with reports := s.reports ++ [.atToken t fault] } := by
  cases n with
  | zero => simp [report]
  | succ n => simp [report, eq_comm]

/-- On the last level the report is listed, and not written. -/
theorem report_eq_error {n : Nat} {fault : Fault} :
    report n t fault s = .error stop s' ↔
      n = 0 ∧ stop = .tooDeep ∧ s' = { s with reports := s.reports ++ [.unwrittenAt t fault] } := by
  cases n with
  | zero => simp [report, eq_comm]
  | succ n => simp [report]

/-- A rule that ends well has had a level of its own. -/
theorem ne_zero_of_readTier {n : Nat} {tier : Tier} {e : Expr} (h : readTier n tier s = .ok e s') :
    n ≠ 0 := by
  rintro rfl
  exact throw_ne_ok h

section Fail

variable {n : Nat} {fault : Fault} {a : α}

theorem fail_ne_ok : (fail n fault : Rule α) s ≠ .ok a s' := by
  intro h
  unfold fail at h
  obtain ⟨t, s₁, -, h⟩ := bind_eq_ok.1 h
  obtain ⟨u, s₂, -, h⟩ := bind_eq_ok.1 h
  exact throw_ne_ok h

/-- The rule reports at the next token if there is one, and stops at the fault, or at the limit on
nesting if the report is not written. -/
theorem fail_eq_error :
    (fail n fault : Rule α) s = .error stop s' ↔
      (stop = .ranOut ∧ s' = s ∧ s.ahead = []) ∨
        ∃ t r, s.ahead = t :: r ∧
          ((n ≠ 0 ∧ stop = .fault fault ∧
              s' = { s with reports := s.reports ++ [.atToken t fault] }) ∨
            (n = 0 ∧ stop = .tooDeep ∧
              s' = { s with reports := s.reports ++ [.unwrittenAt t fault] })) := by
  unfold fail
  cases h : s.ahead with
  | nil =>
    rw [bind_of_error (peek_eq_error.2 ⟨rfl, rfl, h⟩)]
    simp [eq_comm]
  | cons t r =>
    rw [bind_of_ok (peek_of_ahead h), bind_eq_error, report_eq_error]
    simp only [report_eq_ok, throw_eq_error]
    grind

theorem fail_zero_of_ahead (h : s.ahead = t :: r) : (fail 0 fault : Rule α) s =
    .error .tooDeep { s with reports := s.reports ++ [.unwrittenAt t fault] } :=
  fail_eq_error.2 (Or.inr ⟨t, r, h, Or.inr ⟨rfl, rfl, rfl⟩⟩)

theorem fail_succ_of_ahead (h : s.ahead = t :: r) : (fail (n + 1) fault : Rule α) s =
    .error (.fault fault) { s with reports := s.reports ++ [.atToken t fault] } :=
  fail_eq_error.2 (Or.inr ⟨t, r, h, Or.inl ⟨Nat.succ_ne_zero n, rfl, rfl⟩⟩)

theorem failBelow_ne_ok : (failBelow n fault : Rule α) s ≠ .ok a s' := by
  cases n with
  | zero => exact throw_ne_ok
  | succ n => exact fail_ne_ok

/-- One level further down the last level is reached earlier. -/
theorem failBelow_eq_error :
    (failBelow n fault : Rule α) s = .error stop s' ↔
      (n = 0 ∧ stop = .tooDeep ∧ s' = s) ∨
        ∃ m, n = m + 1 ∧ (fail m fault : Rule α) s = .error stop s' := by
  cases n with
  | zero => simp [failBelow, throw_eq_error, eq_comm]
  | succ n => simp [failBelow]

/-- No report takes a token. -/
theorem ahead_endState_report : (endState (report n t fault s)).ahead = s.ahead := by
  cases n <;> rfl

theorem ahead_endState_fail : (endState ((fail n fault : Rule α) s)).ahead = s.ahead := by
  cases h : s.ahead with
  | nil =>
    unfold fail
    rw [bind_of_error (peek_eq_error.2 ⟨rfl, rfl, h⟩)]
    exact h
  | cons t r =>
    cases n with
    | zero => rw [fail_zero_of_ahead h]; exact h
    | succ n => rw [fail_succ_of_ahead h]; exact h

theorem ahead_endState_failBelow :
    (endState ((failBelow n fault : Rule α) s)).ahead = s.ahead := by
  cases n with
  | zero => rfl
  | succ n => exact ahead_endState_fail

end Fail

theorem consume_eq_ok {n : Nat} {kind : Kind} {fault : Fault} (hk : kind ≠ .eof) :
    consume n kind fault s = .ok t s' ↔
      s.ahead = t :: s'.ahead ∧ s'.reports = s.reports ∧ t.kind = kind := by
  unfold consume
  rw [bind_eq_ok]
  constructor
  · rintro ⟨o, s₁, ho, h⟩
    cases o with
    | none => exact absurd h failBelow_ne_ok
    | some u =>
      obtain ⟨rfl, rfl⟩ := pure_eq_ok.1 h
      obtain ⟨h1, h2, -, h4⟩ := accept_eq_some.1 ho
      exact ⟨h1, h2, List.mem_singleton.1 h4⟩
  · rintro ⟨h1, h2, rfl⟩
    exact ⟨some t, s', accept_eq_some.2 ⟨h1, h2, hk, List.mem_singleton_self _⟩, rfl⟩

/-- An expected token is read if it is next. -/
theorem expect_eq_ok {n : Nat} {e : Expectation} :
    expect n e s = .ok t s' ↔ s.ahead = t :: s'.ahead ∧ s'.reports = s.reports ∧ t.kind = e.kind :=
  consume_eq_ok e.kind_ne_eof

theorem expect_of_ahead {n : Nat} {e : Expectation} (h : s.ahead = t :: r) (hk : t.kind = e.kind) :
    expect n e s = .ok t { s with ahead := r } :=
  expect_eq_ok.2 ⟨h, rfl, hk⟩

/-- A rule that expects a token stops at another one: at the fault, or at the limit on nesting if
that cannot be written. -/
theorem expect_eq_error {n : Nat} {e : Expectation} (h : expect n e s = .error stop s') :
    stop = .ranOut ∨ ∃ t r, s.ahead = t :: r ∧ t.kind ≠ e.kind ∧
      ((1 < n ∧ stop = .fault (.missing e) ∧
          s' = { s with reports := s.reports ++ [.atToken t (.missing e)] }) ∨
        (n ≤ 1 ∧ stop = .tooDeep ∧
          (s' = s ∨ s' = { s with reports := s.reports ++ [.unwrittenAt t (.missing e)] }))) := by
  unfold expect consume at h
  rcases bind_eq_error.1 h with h | ⟨o, s₁, ho, h⟩
  · exact Or.inl (accept_eq_error.1 h).1
  cases o with
  | some t => exact absurd h pure_ne_error
  | none =>
    obtain ⟨rfl, t, r, hs, hk⟩ := accept_eq_none.1 ho
    have hne : t.kind ≠ e.kind := by
      rcases hk with heof | hk
      · exact fun hkind => e.kind_ne_eof (hkind ▸ heof)
      · simpa using hk
    rcases failBelow_eq_error.1 h with ⟨rfl, rfl, rfl⟩ | ⟨m, rfl, h⟩
    · exact Or.inr ⟨t, r, hs, hne, Or.inr ⟨Nat.zero_le 1, rfl, Or.inl rfl⟩⟩
    rcases fail_eq_error.1 h with ⟨hstop, -, -⟩ | ⟨u, r', hs', hrest⟩
    · exact Or.inl hstop
    obtain ⟨rfl, -⟩ := List.cons.inj (hs.symm.trans hs')
    rcases hrest with ⟨hm, hstop, hs'⟩ | ⟨rfl, hstop, hs'⟩
    · exact Or.inr ⟨t, r, hs, hne, Or.inl ⟨by omega, hstop, hs'⟩⟩
    · exact Or.inr ⟨t, r, hs, hne, Or.inr ⟨Nat.le_refl 1, hstop, Or.inr hs'⟩⟩

theorem get_eq_ok {here : Reading} : (get : Rule Reading) s = .ok here s' ↔ s = here ∧ s = s' := by
  show EStateM.Result.ok s s = _ ↔ _
  simp

/-! ## Recovery -/

theorem synchronize_eq_ok {u : Unit} :
    synchronize s = .ok u s' ↔
      afterFault s.ahead ≠ [] ∧ s' = { s with ahead := afterFault s.ahead } := by
  cases h : afterFault s.ahead with
  | nil => simp [synchronize, h]
  | cons t r => simp [synchronize, h, eq_comm]

theorem synchronize_eq_error :
    synchronize s = .error stop s' ↔
      stop = .ranOut ∧ afterFault s.ahead = [] ∧ s' = { s with ahead := [] } := by
  cases h : afterFault s.ahead with
  | nil => simp [synchronize, h, eq_comm]
  | cons t r => simp [synchronize, h]

/-- What is reported of a stop in front of a token, besides what has been reported before. -/
def Stop.reportAt (t : Token) : Stop → List Report
  | .tooDeep => [.atToken t .tooDeep]
  | .fault _ | .ranOut => []

section Recover

variable {n : Nat} {rule : Rule Stmt} {stmt : Stmt} {fault : Fault} {o : Option Stmt}

/-- Behind a fault, reading goes on at the next boundary. -/
theorem resume_eq_ok :
    (do synchronize; return none : Rule (Option Stmt)) s = .ok o s' ↔
      afterFault s.ahead ≠ [] ∧ o = none ∧ s' = { s with ahead := afterFault s.ahead } := by
  rw [bind_eq_ok]
  constructor
  · rintro ⟨_, s₁, hsync, h⟩
    obtain ⟨hne, rfl⟩ := synchronize_eq_ok.1 hsync
    obtain ⟨rfl, rfl⟩ := pure_eq_ok.1 h
    exact ⟨hne, rfl, rfl⟩
  · rintro ⟨hne, rfl, rfl⟩
    exact ⟨(), _, synchronize_eq_ok.2 ⟨hne, rfl⟩, rfl⟩

theorem resume_eq_error
    (h : (do synchronize; return none : Rule (Option Stmt)) s = .error stop s') :
    stop = .ranOut := by
  rcases bind_eq_error.1 h with h | ⟨_, _, -, h⟩
  · exact (synchronize_eq_error.1 h).1
  · exact absurd h pure_ne_error

theorem recover_of_ok (h : rule s = .ok stmt s') : recover n rule s = .ok (some stmt) s' := by
  simp [recover, h]

theorem recover_of_ranOut (h : rule s = .error .ranOut s') :
    recover n rule s = .error .ranOut s' := by
  simp [recover, h]

theorem recover_of_fault (h : rule s = .error (.fault fault) s') :
    recover n rule s = (do synchronize; return none : Rule (Option Stmt)) s' := by
  simp [recover, h]

theorem recover_of_tooDeep (h : rule s = .error .tooDeep s') :
    recover n rule s =
      (do report n (← peek) .tooDeep; synchronize; return none : Rule (Option Stmt)) s' := by
  simp [recover, h]

/-- After a stop there is no declaration, and reading goes on at the next boundary, if there is a
level to write on. -/
theorem recover_of_error (hr : rule s = .error stop s') (hstop : stop ≠ .ranOut)
    (hn : stop = .tooDeep → n ≠ 0) (hs : s'.ahead = t :: r) (hne : afterFault s'.ahead ≠ []) :
    recover n rule s = .ok none ⟨afterFault s'.ahead, s'.reports ++ stop.reportAt t⟩ := by
  cases stop with
  | ranOut => exact absurd rfl hstop
  | fault fault =>
    rw [recover_of_fault hr, Stop.reportAt, List.append_nil]
    exact resume_eq_ok.2 ⟨hne, rfl, rfl⟩
  | tooDeep =>
    rw [recover_of_tooDeep hr, bind_of_ok (peek_of_ahead hs),
      bind_of_ok (a := ()) (report_eq_ok.2 ⟨hn rfl, rfl⟩)]
    exact resume_eq_ok.2 ⟨hne, rfl, rfl⟩

/-- Recovery ends with what the rule reads, or without a declaration behind a stop. -/
theorem recover_eq_ok (h : recover n rule s = .ok o s') :
    (∃ stmt, o = some stmt ∧ rule s = .ok stmt s') ∨
      o = none ∧ ∃ stop s₁ t r, rule s = .error stop s₁ ∧ stop ≠ .ranOut ∧
        (stop = .tooDeep → n ≠ 0) ∧ s₁.ahead = t :: r ∧
        s' = ⟨afterFault s₁.ahead, s₁.reports ++ stop.reportAt t⟩ := by
  cases hr : rule s with
  | ok stmt s₁ =>
    rw [recover_of_ok hr] at h
    obtain ⟨rfl, rfl⟩ := EStateM.Result.ok.inj h
    exact Or.inl ⟨stmt, rfl, rfl⟩
  | error stop s₁ =>
    right
    cases stop with
    | ranOut =>
      rw [recover_of_ranOut hr] at h
      cases h
    | fault fault =>
      rw [recover_of_fault hr] at h
      obtain ⟨hne, rfl, rfl⟩ := resume_eq_ok.1 h
      obtain ⟨t, r, hs⟩ : ∃ t r, s₁.ahead = t :: r :=
        List.exists_cons_of_ne_nil fun hnil => hne (by rw [hnil]; rfl)
      exact ⟨rfl, _, s₁, t, r, rfl, by simp, by simp, hs, by simp [Stop.reportAt]⟩
    | tooDeep =>
      rw [recover_of_tooDeep hr] at h
      obtain ⟨t, s₂, hpeek, h⟩ := bind_eq_ok.1 h
      obtain ⟨rfl, r, hs⟩ := peek_eq_ok.1 hpeek
      obtain ⟨_, s₃, hreport, h⟩ := bind_eq_ok.1 h
      obtain ⟨hn, rfl⟩ := report_eq_ok.1 hreport
      obtain ⟨-, rfl, rfl⟩ := resume_eq_ok.1 h
      exact ⟨rfl, _, s₁, t, r, rfl, by simp, fun _ => hn, hs, rfl⟩

/-- Recovery lets a rule stop only for want of tokens, or of a level to write on. -/
theorem recover_eq_error (h : recover n rule s = .error stop s') :
    stop = .ranOut ∨ (n = 0 ∧ stop = .tooDeep) := by
  cases hr : rule s with
  | ok stmt s₁ =>
    rw [recover_of_ok hr] at h
    cases h
  | error stop' s₁ =>
    cases stop' with
    | fault f =>
      rw [recover_of_fault hr] at h
      exact Or.inl (resume_eq_error h)
    | ranOut =>
      rw [recover_of_ranOut hr] at h
      exact Or.inl (EStateM.Result.error.inj h).1.symm
    | tooDeep =>
      rw [recover_of_tooDeep hr] at h
      rcases bind_eq_error.1 h with h | ⟨t, s₂, -, h⟩
      · exact Or.inl (peek_eq_error.1 h).1
      rcases bind_eq_error.1 h with h | ⟨u, s₃, -, h⟩
      · obtain ⟨hn, hstop, -⟩ := report_eq_error.1 h
        exact Or.inr ⟨hn, hstop⟩
      · exact Or.inl (resume_eq_error h)

end Recover

end Lox.Grammar
