import Mathlib.Data.List.Perm.Subperm
import Lox.Proofs.Grammar.Step

/-!
# Which tokens rules blame

A rule blames a token in two ways.  It stops at the next token, or it goes on, and blames an `=`
that it has read before.  In both cases the token stands where no other rule blames one: what lies
in front of the next token is read and done with, and an `=` belongs to one assignment.  `Passage`
says this of the way from one reading to a later one: the tokens blamed are tokens that are read
on the way, each blamed once, or the end in front of which the way ends.

A blame that is not written does not count: reading stops with it at the limit on nesting
(`Reading.Sinks`), and the token is blamed again further up.  All this is shown here of the rules
that hold no statements (`fair_readTier`, `fair_readInitializer`).
-/

namespace Lox

/-- Every fault but a bad target stops the rule that finds it. -/
def Fault.unwinds (fault : Fault) : Bool := fault ≠ .badTarget

end Lox

namespace Lox.Grammar

open Computing
open scoped List

variable {α β : Type} {s s' s'' : Reading} {t : Token} {r w w' : List Token} {kinds : List Kind}
  {fault : Fault}

/-! ## Blames -/

/-- A token that is blamed, and what for, and whether the report is written. -/
structure Blame where
  token : Token
  fault : Fault
  written : Bool

namespace Blame

/-- The report of a blame. -/
def report (b : Blame) : Report :=
  if b.written then .atToken b.token b.fault else .unwrittenAt b.token b.fault

/-- Is the end blamed? -/
def atEnd (b : Blame) : Bool := b.token.kind = .eof

end Blame

variable {b : Blame} {bs bs' : List Blame}

/-- The tokens that are blamed in writing, without the end. -/
def early (bs : List Blame) : List Token :=
  (bs.filter fun b => b.written && !b.atEnd).map Blame.token

/-- The tokens at which a rule stops in writing, without the end. -/
def unwound (bs : List Blame) : List Token :=
  (bs.filter fun b => b.written && (!b.atEnd && b.fault.unwinds)).map Blame.token

/-- What the end is blamed for in writing. -/
def late (bs : List Blame) : List Fault :=
  (bs.filter fun b => b.written && b.atEnd).map Blame.fault

@[simp] theorem early_append (bs bs' : List Blame) : early (bs ++ bs') = early bs ++ early bs' := by
  simp [early]

@[simp] theorem unwound_append (bs bs' : List Blame) :
    unwound (bs ++ bs') = unwound bs ++ unwound bs' := by
  simp [unwound]

@[simp] theorem late_append (bs bs' : List Blame) : late (bs ++ bs') = late bs ++ late bs' := by
  simp [late]

theorem blames_of_eof (ht : t.kind = .eof) (fault : Fault) :
    early [⟨t, fault, true⟩] = [] ∧ unwound [⟨t, fault, true⟩] = [] ∧
      late [⟨t, fault, true⟩] = [fault] := by
  simp [early, unwound, late, Blame.atEnd, ht]

theorem blames_of_ne_eof (ht : t.kind ≠ .eof) (fault : Fault) :
    early [⟨t, fault, true⟩] = [t] ∧ unwound [⟨t, fault, true⟩] <+ [t] ∧
      late [⟨t, fault, true⟩] = [] := by
  by_cases hfault : fault = .badTarget <;>
    simp [early, unwound, late, Blame.atEnd, Fault.unwinds, ht, hfault]

theorem unwound_badTarget (t : Token) : unwound [⟨t, .badTarget, true⟩] = [] := by
  simp [unwound, Fault.unwinds]

/-! ## Blames that are not written -/

/-- Each blame that is not written is repeated right behind: the token is nested too deep, and that
is written. -/
def Repeated : List Blame → Prop
  | [] => True
  | b :: bs => (b.written = false → ∃ bs', bs = ⟨b.token, .tooDeep, true⟩ :: bs') ∧ Repeated bs

namespace Repeated

theorem singleton (t : Token) (fault : Fault) : Repeated [⟨t, fault, true⟩] := by
  simp [Repeated]

theorem append (h : Repeated bs) (h' : Repeated bs') : Repeated (bs ++ bs') := by
  induction bs with
  | nil => exact h'
  | cons b bs ih =>
    refine ⟨fun hb => ?_, ih h.2⟩
    obtain ⟨rest, rfl⟩ := h.1 hb
    exact ⟨rest ++ bs', rfl⟩

/-- The blame behind one that is not written. -/
theorem getElem?_succ {i : Nat} (h : Repeated bs) (hi : bs[i]? = some b)
    (hlost : b.written = false) : bs[i + 1]? = some ⟨b.token, .tooDeep, true⟩ := by
  induction bs generalizing i with
  | nil => cases hi
  | cons c bs ih =>
    cases i with
    | zero =>
      obtain rfl := Option.some.inj hi
      obtain ⟨rest, rfl⟩ := h.1 hlost
      rfl
    | succ i => exact ih h.2 hi

/-- A token that is blamed is blamed in writing. -/
theorem exists_written (h : Repeated bs) (hb : b ∈ bs) :
    ∃ b' ∈ bs, b'.written = true ∧ b'.token = b.token := by
  induction bs with
  | nil => exact absurd hb List.not_mem_nil
  | cons c bs ih =>
    rcases List.mem_cons.1 hb with rfl | hb
    · cases hwritten : b.written with
      | true => exact ⟨b, List.mem_cons_self, hwritten, rfl⟩
      | false =>
        obtain ⟨rest, rfl⟩ := h.1 hwritten
        exact ⟨_, List.mem_cons_of_mem _ List.mem_cons_self, rfl, rfl⟩
    · obtain ⟨b', hb', hrest⟩ := ih h.2 hb
      exact ⟨b', List.mem_cons_of_mem _ hb', hrest⟩

/-- A token in front of the end that is blamed is blamed in writing. -/
theorem token_mem_early (h : Repeated bs) (hb : b ∈ bs) (hend : ¬b.atEnd = true) :
    b.token ∈ early bs := by
  obtain ⟨b', hb', hwritten, htoken⟩ := h.exists_written hb
  have hend' : ¬b'.atEnd = true := by rwa [Blame.atEnd, htoken]
  exact htoken ▸ List.mem_map_of_mem (List.mem_filter.2 ⟨hb', by simp [hwritten, hend']⟩)

theorem atEnd_of_late_eq_nil (h : Repeated bs) (hlate : late bs = []) (hb : b ∈ bs) :
    ¬b.atEnd = true := by
  intro hend
  obtain ⟨b', hb', hwritten, htoken⟩ := h.exists_written hb
  have hend' : b'.atEnd = true := by rwa [Blame.atEnd, htoken]
  have hmem : b'.fault ∈ late bs :=
    List.mem_map_of_mem (List.mem_filter.2 ⟨hb', by simp [hwritten, hend']⟩)
  rw [hlate] at hmem
  exact absurd hmem List.not_mem_nil

end Repeated

/-- The token is blamed once in writing.  If that is for nesting too deep, there may be a blame
before it that is not written. -/
inductive Blamed (t : Token) : Fault → List Blame → Prop
  | once (fault : Fault) : Blamed t fault [⟨t, fault, true⟩]
  | again (fault : Fault) : Blamed t .tooDeep [⟨t, fault, false⟩, ⟨t, .tooDeep, true⟩]

namespace Blamed

variable (h : Blamed t fault bs)

include h

theorem early_eq : early bs = early [⟨t, fault, true⟩] := by cases h <;> rfl

theorem unwound_eq : unwound bs = unwound [⟨t, fault, true⟩] := by cases h <;> rfl

theorem late_eq : late bs = late [⟨t, fault, true⟩] := by cases h <;> rfl

theorem repeated : Repeated bs := by
  cases h with
  | once => exact .singleton t _
  | again fault => exact ⟨fun _ => ⟨[], rfl⟩, .singleton t _⟩

theorem token_eq (hb : b ∈ bs) : b.token = t := by
  cases h <;> simp only [List.mem_cons, List.not_mem_nil, or_false] at hb
  · rw [hb]
  · rcases hb with rfl | rfl <;> rfl

end Blamed

/-! ## Passages -/

/-- On the way from one reading to a later one these tokens are read, and these are blamed: of those
that are read each at most once in writing, and those at which a rule stops in their order; and
behind them the end, if it is next. -/
structure Passage (s : Reading) (w : List Token) (bs : List Blame) (s' : Reading) : Prop where
  ahead : s.ahead = w ++ s'.ahead
  noEnd : ∀ t ∈ w, t.kind ≠ .eof
  reports : s'.reports = s.reports ++ bs.map Blame.report
  once : early bs <+~ w
  inOrder : unwound bs <+ w
  atEnd : ∀ b ∈ bs, b.atEnd = true → s'.ahead.head? = some b.token
  endLast : bs.Pairwise fun b b' => b.atEnd = true → b'.atEnd = true
  repeated : Repeated bs

namespace Passage

theorem refl (s : Reading) : Passage s [] [] s where
  ahead := rfl
  noEnd := by simp
  reports := by simp
  once := .refl _
  inOrder := .refl _
  atEnd := by simp
  endLast := .nil
  repeated := trivial

/-- Where the end is next, no token is read any more. -/
theorem eq_nil_of_head? (h : Passage s w bs s') (hhead : s.ahead.head? = some t)
    (ht : t.kind = .eof) : w = [] := by
  cases w with
  | nil => rfl
  | cons u w =>
    rw [h.ahead] at hhead
    obtain rfl : u = t := Option.some.inj hhead
    exact absurd ht (h.noEnd u List.mem_cons_self)

theorem atEnd_of_eq_nil (h : Passage s [] bs s') (hb : b ∈ bs) : b.atEnd = true := by
  refine Classical.byContradiction fun hend => ?_
  have hmem := h.repeated.token_mem_early hb hend
  rw [List.subperm_nil.1 h.once] at hmem
  exact absurd hmem List.not_mem_nil

theorem trans (h : Passage s w bs s') (h' : Passage s' w' bs' s'') :
    Passage s (w ++ w') (bs ++ bs') s'' where
  ahead := by rw [h.ahead, h'.ahead, List.append_assoc]
  noEnd := List.forall_mem_append.2 ⟨h.noEnd, h'.noEnd⟩
  reports := by rw [h'.reports, h.reports, List.map_append, List.append_assoc]
  once := by
    rw [early_append]
    exact h.once.append h'.once
  inOrder := by
    rw [unwound_append]
    exact h.inOrder.append h'.inOrder
  atEnd b hb hend := by
    rcases List.mem_append.1 hb with hb | hb
    · have hhead := h.atEnd b hb hend
      have hnil := h'.eq_nil_of_head? hhead (of_decide_eq_true hend)
      rw [h'.ahead, hnil] at hhead
      exact hhead
    · exact h'.atEnd b hb hend
  endLast := by
    refine List.pairwise_append.2 ⟨h.endLast, h'.endLast, fun b hb b' hb' hend => ?_⟩
    have hnil := h'.eq_nil_of_head? (h.atEnd b hb hend) (of_decide_eq_true hend)
    exact (hnil ▸ h').atEnd_of_eq_nil hb'
  repeated := h.repeated.append h'.repeated

/-- A token is read. -/
theorem read (h : s.ahead = t :: s'.ahead) (ht : t.kind ≠ .eof) (hr : s'.reports = s.reports) :
    Passage s [t] [] s' where
  ahead := h
  noEnd := by simpa using ht
  reports := by simp [hr]
  once := List.nil_subperm
  inOrder := List.nil_sublist _
  atEnd := by simp
  endLast := .nil
  repeated := trivial

/-- A token is read, and blamed for a bad target behind what follows it. -/
theorem blame_read (h : Passage s w bs s') (hlate : late bs = [])
    (hahead : s''.ahead = t :: s.ahead) (ht : t.kind ≠ .eof) (hr : s.reports = s''.reports) :
    Passage s'' (t :: w) (bs ++ [⟨t, .badTarget, true⟩])
      { s' with reports := s'.reports ++ [.atToken t .badTarget] } where
  ahead := by rw [hahead, h.ahead, List.cons_append]
  noEnd := List.forall_mem_cons.2 ⟨ht, h.noEnd⟩
  reports := by simp [h.reports, hr, Blame.report]
  once := by
    rw [early_append, (blames_of_ne_eof ht _).1]
    exact List.perm_append_comm.subperm.trans ((List.subperm_cons t).2 h.once)
  inOrder := by
    rw [unwound_append, unwound_badTarget, List.append_nil]
    exact h.inOrder.cons t
  atEnd b hb hend := by
    rcases List.mem_append.1 hb with hb | hb
    · exact h.atEnd b hb hend
    · obtain rfl := List.mem_singleton.1 hb
      exact absurd (of_decide_eq_true hend) ht
  endLast := by
    refine List.pairwise_append.2 ⟨h.endLast, List.pairwise_singleton _ _, ?_⟩
    exact fun b hb _ _ hend => absurd hend (h.repeated.atEnd_of_late_eq_nil hlate hb)
  repeated := h.repeated.append (.singleton t _)

end Passage

/-- A way on which the end is not blamed. -/
def Reading.Passes (s s' : Reading) : Prop := ∃ w bs, Passage s w bs s' ∧ late bs = []

namespace Reading.Passes

theorem refl (s : Reading) : s.Passes s := ⟨[], [], .refl s, rfl⟩

theorem trans (h : s.Passes s') (h' : s'.Passes s'') : s.Passes s'' := by
  obtain ⟨w, bs, hw, hbs⟩ := h
  obtain ⟨w', bs', hw', hbs'⟩ := h'
  exact ⟨_, _, hw.trans hw', by rw [late_append, hbs, hbs', List.append_nil]⟩

theorem read (h : s.ahead = t :: s'.ahead) (ht : t.kind ≠ .eof) (hr : s'.reports = s.reports) :
    s.Passes s' :=
  ⟨[t], [], .read h ht hr, rfl⟩

theorem blame_read (h : s.Passes s') (hahead : s''.ahead = t :: s.ahead) (ht : t.kind ≠ .eof)
    (hr : s.reports = s''.reports) :
    s''.Passes { s' with reports := s'.reports ++ [.atToken t .badTarget] } := by
  obtain ⟨w, bs, hw, hbs⟩ := h
  exact ⟨_, _, hw.blame_read hbs hahead ht hr, by simp [hbs, (blames_of_ne_eof ht _).2.2]⟩

end Reading.Passes

/-- A way to where the limit on nesting is met.  The last thing on it may be a blame of the next
token that is not written. -/
def Reading.Sinks (s s' : Reading) : Prop :=
  s.Passes s' ∨ ∃ s₁ t r fault, s.Passes s₁ ∧ s₁.ahead = t :: r ∧
    s' = { s₁ with reports := s₁.reports ++ [.unwrittenAt t fault] }

theorem Reading.Sinks.of_passes (h : s.Passes s') (h' : s'.Sinks s'') : s.Sinks s'' := by
  rcases h' with h' | ⟨s₁, t, r, fault, h', hs⟩
  · exact Or.inl (h.trans h')
  · exact Or.inr ⟨s₁, t, r, fault, h.trans h', hs⟩

/-! ## Fair rules -/

/-- From here the rule does not blame the end, unless it stops there; and where it stops at a fault,
it blames the next token. -/
structure FairAt (rule : Rule α) (s : Reading) : Prop where
  ok : ∀ {a s'}, rule s = .ok a s' → s.Passes s'
  tooDeep : ∀ {s'}, rule s = .error .tooDeep s' → s.Sinks s'
  fault : ∀ {fault s'}, rule s = .error (.fault fault) s' → fault ≠ .missing .endOfBlock ∧
    ∃ s₁ t r, s.Passes s₁ ∧ s₁.ahead = t :: r ∧
      s' = { s₁ with reports := s₁.reports ++ [.atToken t fault] }

/-- The rule is fair from every place. -/
def Fair (rule : Rule α) : Prop := ∀ s, FairAt rule s

/-- A step that ends well or finds no token. -/
theorem fairAt_of_step {rule : Rule α} (ok : ∀ {a s'}, rule s = .ok a s' → s.Passes s')
    (error : ∀ {stop s'}, rule s = .error stop s' → stop = .ranOut) : FairAt rule s where
  ok := ok
  tooDeep h := by cases error h
  fault h := by cases error h

theorem fair_pure (a : α) : Fair (pure a : Rule α) := fun s => fairAt_of_step
  (fun h => (pure_eq_ok.1 h).2 ▸ .refl s) (fun h => absurd h pure_ne_error)

theorem fair_tooDeep : Fair (throw .tooDeep : Rule α) := fun s => {
  ok := fun h => absurd h throw_ne_ok
  tooDeep := fun h => Or.inl ((throw_eq_error.1 h).2 ▸ .refl s)
  fault := fun h => by cases (throw_eq_error.1 h).1 }

theorem fair_ranOut : Fair (throw .ranOut : Rule α) := fun _ => fairAt_of_step
  (fun h => absurd h throw_ne_ok) (fun h => (throw_eq_error.1 h).1.symm)

theorem FairAt.bind {rule : Rule α} {next : α → Rule β} (h : FairAt rule s)
    (hn : ∀ a s', rule s = .ok a s' → FairAt (next a) s') : FairAt (rule >>= next) s where
  ok hb := by
    obtain ⟨a, s', ha, hb⟩ := bind_eq_ok.1 hb
    exact (h.ok ha).trans ((hn a s' ha).ok hb)
  tooDeep hb := by
    rcases bind_eq_error.1 hb with ha | ⟨a, s', ha, hb⟩
    · exact h.tooDeep ha
    · exact .of_passes (h.ok ha) ((hn a s' ha).tooDeep hb)
  fault hb := by
    rcases bind_eq_error.1 hb with ha | ⟨a, s', ha, hb⟩
    · exact h.fault ha
    · obtain ⟨hfault, s₁, t, r, hs, hrest⟩ := (hn a s' ha).fault hb
      exact ⟨hfault, s₁, t, r, (h.ok ha).trans hs, hrest⟩

theorem Fair.bind {rule : Rule α} {next : α → Rule β} (h : Fair rule) (hn : ∀ a, Fair (next a)) :
    Fair (rule >>= next) :=
  fun s => (h s).bind fun a s' _ => hn a s'

theorem Fair.map {rule : Rule α} (h : Fair rule) (g : α → β) : Fair (g <$> rule) :=
  h.bind fun a => fair_pure (g a)

theorem fair_get : Fair (get : Rule Reading) := fun s => fairAt_of_step
  (fun h => (get_eq_ok.1 h).2 ▸ .refl s) (fun h => by cases h)

theorem fair_peek : Fair peek := fun s => fairAt_of_step
  (fun h => (peek_eq_ok.1 h).1 ▸ .refl s) (fun h => (peek_eq_error.1 h).1)

theorem fair_isNext : Fair (isNext kinds) := fun s => fairAt_of_step
  (fun h => (isNext_eq_ok.1 h).1 ▸ .refl s) (fun h => (isNext_eq_error.1 h).1)

theorem fair_accept : Fair (accept kinds) := by
  refine fun s => fairAt_of_step (fun {o s'} h => ?_) (fun h => (accept_eq_error.1 h).1)
  cases o with
  | none => exact (accept_eq_none.1 h).1 ▸ .refl s
  | some t =>
    obtain ⟨hs, hr, ht, -⟩ := accept_eq_some.1 h
    exact .read hs ht hr

theorem fairAt_skip (h : s.ahead = t :: r) (ht : t.kind ≠ .eof) : FairAt skip s := by
  refine fairAt_of_step (fun hs => ?_) (fun hs => (skip_eq_error.1 hs).1)
  obtain ⟨t', hs, hr⟩ := skip_eq_ok.1 hs
  obtain ⟨rfl, -⟩ := List.cons.inj (h.symm.trans hs)
  exact .read hs ht hr

section Fail

variable {n : Nat}

theorem fair_fail (hfault : fault ≠ .missing .endOfBlock) : Fair (fail n fault : Rule α) := fun s => {
  ok := fun h => absurd h fail_ne_ok
  tooDeep := fun h => by
    rcases fail_eq_error.1 h with ⟨h, -, -⟩ | ⟨t, r, hs, ⟨-, h, -⟩ | ⟨-, -, rfl⟩⟩
    · cases h
    · cases h
    · exact Or.inr ⟨s, t, r, fault, .refl s, hs, rfl⟩
  fault := fun h => by
    rcases fail_eq_error.1 h with ⟨hstop, -, -⟩ | ⟨t, r, hs, ⟨-, hstop, rfl⟩ | ⟨-, hstop, -⟩⟩
    · cases hstop
    · obtain rfl := Stop.fault.inj hstop
      exact ⟨hfault, s, t, r, .refl s, hs, rfl⟩
    · cases hstop }

/-- A rule that expects anything but the brace that ends a block. -/
theorem fair_expect {e : Expectation} (he : e ≠ .endOfBlock) : Fair (expect n e) := by
  refine fair_accept.bind fun o => ?_
  cases o with
  | none =>
    cases n with
    | zero => exact fair_tooDeep
    | succ n => exact fair_fail fun h => he (Fault.missing.inj h)
  | some t => exact fair_pure t

end Fail

/-! ## Expressions -/

theorem fair_chain {operators : List Kind} {join : Expr → Token → Expr → Expr}
    {operand : Rule Expr} (h : Fair operand) (bound : List Token) (left : Expr) :
    Fair (chain operators join operand bound left) := by
  induction bound generalizing left with
  | nil => exact fair_ranOut
  | cons _ bound ih =>
    refine fair_accept.bind fun o => ?_
    cases o with
    | none => exact fair_pure left
    | some operator => exact h.bind fun right => ih _

theorem fair_leftJoined {operators : List Kind} {join : Expr → Token → Expr → Expr}
    {operand : Rule Expr} (h : Fair operand) : Fair (leftJoined operators join operand) :=
  h.bind fun first => fair_get.bind fun _ => fair_chain h _ first

/-- What an assignment comes to when its value is read: it blames the `=` unless the target is a
name. -/
def assigned (levels : Nat) (target : Expr) (equal : Token) (value : Expr) : Rule Expr :=
  match target with
  | .reference name => return .assign name value
  | _ => do
    report levels equal .badTarget
    return target

theorem assigned_ne_error {n : Nat} (hn : n ≠ 0) {target value : Expr} {equal : Token}
    {stop : Stop} : assigned n target equal value s ≠ .error stop s' := by
  unfold assigned
  intro h
  split at h
  · exact pure_ne_error h
  · rcases bind_eq_error.1 h with h | ⟨_, _, -, h⟩
    · exact hn (report_eq_error.1 h).1
    · exact pure_ne_error h

/-- All that is blamed in the value stands behind the `=`. -/
theorem passes_assigned {n : Nat} {target value e : Expr} {equal : Token}
    (h : assigned n target equal value s' = .ok e s'') (hvalue : s.Passes s')
    {s₀ : Reading} (hread : accept [.equal] s₀ = .ok (some equal) s) : s₀.Passes s'' := by
  obtain ⟨hs, hr, ht, -⟩ := accept_eq_some.1 hread
  unfold assigned at h
  split at h
  · obtain ⟨-, rfl⟩ := pure_eq_ok.1 h
    exact (Reading.Passes.read hs ht hr).trans hvalue
  · obtain ⟨_, s₁, hreport, h⟩ := bind_eq_ok.1 h
    obtain ⟨-, rfl⟩ := report_eq_ok.1 hreport
    obtain ⟨-, rfl⟩ := pure_eq_ok.1 h
    exact hvalue.blame_read hs ht hr

theorem readTier_assignment (n : Nat) : readTier (n + 1) .assignment = (do
    let target ← readTier n .or
    match ← accept [.equal] with
    | none => return target
    | some equal => assigned n target equal (← readTier n .assignment)) := by
  rw [readTier]
  rfl

theorem fair_assignment {n : Nat} (htarget : Fair (readTier n .or))
    (hvalue : Fair (readTier n .assignment)) : Fair (readTier (n + 1) .assignment) := by
  rw [readTier_assignment]
  refine htarget.bind fun target s => ?_
  constructor
  · intro e s'' h
    obtain ⟨o, s₁, ho, h⟩ := bind_eq_ok.1 h
    cases o with
    | none => exact ((fair_accept s).ok ho).trans ((fair_pure target s₁).ok h)
    | some equal =>
      obtain ⟨value, s₂, hv, h⟩ := bind_eq_ok.1 h
      exact passes_assigned h ((hvalue s₁).ok hv) ho
  · intro s'' h
    rcases bind_eq_error.1 h with h | ⟨o, s₁, ho, h⟩
    · exact (fair_accept s).tooDeep h
    cases o with
    | none => exact absurd h pure_ne_error
    | some equal =>
      rcases bind_eq_error.1 h with h | ⟨value, s₂, hv, h⟩
      · exact .of_passes ((fair_accept s).ok ho) ((hvalue s₁).tooDeep h)
      · exact absurd h (assigned_ne_error (ne_zero_of_readTier hv))
  · intro fault s'' h
    rcases bind_eq_error.1 h with h | ⟨o, s₁, ho, h⟩
    · exact (fair_accept s).fault h
    cases o with
    | none => exact absurd h pure_ne_error
    | some equal =>
      rcases bind_eq_error.1 h with h | ⟨value, s₂, hv, h⟩
      · obtain ⟨hfault, s₂, t, r, hs, hrest⟩ := (hvalue s₁).fault h
        exact ⟨hfault, s₂, t, r, ((fair_accept s).ok ho).trans hs, hrest⟩
      · exact absurd h (assigned_ne_error (ne_zero_of_readTier hv))

/-- Rules for expressions are fair at every depth. -/
theorem fair_readTier (n : Nat) (tier : Tier) : Fair (readTier n tier) := by
  induction n generalizing tier with
  | zero => exact fair_tooDeep
  | succ n ih =>
    cases tier with
    | expression => exact ih .assignment
    | assignment => exact fair_assignment (ih .or) (ih .assignment)
    | or => exact fair_leftJoined (ih .and)
    | and => exact fair_leftJoined (ih .equality)
    | equality => exact fair_leftJoined (ih .comparison)
    | comparison => exact fair_leftJoined (ih .term)
    | term => exact fair_leftJoined (ih .factor)
    | factor => exact fair_leftJoined (ih .unary)
    | unary =>
      unfold readTier
      refine fair_accept.bind fun o => ?_
      cases o with
      | none => exact ih .primary
      | some operator => exact (ih .unary).bind fun e => fair_pure _
    | primary =>
      unfold readTier
      intro s
      refine (fair_peek s).bind fun t s' ht => ?_
      obtain ⟨rfl, r, hs⟩ := peek_eq_ok.1 ht
      -- every branch that drops the token knows its kind
      split
      iterate 6
        next hk => exact (fairAt_skip hs (by simp [hk])).bind fun _ s' _ => fair_pure _ s'
      next hk =>
        refine (fairAt_skip hs (by simp [hk])).bind fun _ s' _ => ?_
        exact (ih .expression).bind (fun inner => (fair_expect (by decide)).bind fun _ =>
          fair_pure _) s'
      next => exact fair_fail (by simp) _

theorem fair_readExpression (n : Nat) : Fair (readExpression n) := fair_readTier n .expression

/-! ## Statements without statements inside -/

theorem fair_readVariable (n : Nat) : Fair (readVariable n) := by
  cases n with
  | zero => exact fair_tooDeep
  | succ n =>
    unfold readVariable
    refine (fair_expect (by decide)).bind fun name => fair_accept.bind fun o => ?_
    cases o with
    | none =>
      exact (fair_pure _).bind fun _ => (fair_expect (by decide)).bind fun _ => fair_pure _
    | some equal =>
      exact ((fair_readExpression n).map some).bind fun _ =>
        (fair_expect (by decide)).bind fun _ => fair_pure _

theorem fair_readPrint (n : Nat) : Fair (readPrint n) := by
  cases n with
  | zero => exact fair_tooDeep
  | succ n =>
    exact (fair_readExpression n).bind fun e => (fair_expect (by decide)).bind fun _ => fair_pure _

theorem fair_readEffect (n : Nat) : Fair (readEffect n) := by
  cases n with
  | zero => exact fair_tooDeep
  | succ n =>
    exact (fair_readExpression n).bind fun e => (fair_expect (by decide)).bind fun _ => fair_pure _

theorem fair_readInitializer (n : Nat) : Fair (readInitializer n) := by
  unfold readInitializer
  refine fair_accept.bind fun o => ?_
  split
  · exact fair_pure none
  · refine fair_accept.bind fun o => ?_
    split
    · exact (fair_readVariable n).map some
    · exact (fair_readEffect n).map some

theorem fair_readOptional (closing : Kind) (n : Nat) : Fair (readOptional closing n) := by
  unfold readOptional
  refine fair_isNext.bind fun b => ?_
  split
  · exact fair_pure none
  · exact (fair_readExpression n).map some

end Lox.Grammar
