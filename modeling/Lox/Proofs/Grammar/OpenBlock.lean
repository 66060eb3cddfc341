import Lox.Proofs.Grammar.Watch

/-!
# The end is blamed for open blocks

A rule for statements that is watched either goes on without a blame of the end and without a
note, or it stops at a fault (`Watch.Stops`).  If it stops at the end, then for the closing brace
of a block that is open there, or for something else in the innermost of them; a declaration
recovers from that and finds the end still next, so the block around it stops there as well.  What
comes of it is said of sequences (`gather_recovers`), of blocks (`fairAt_block_body`) and of the
program (`readProgram_recovers`).
-/

namespace Lox.Grammar

open Computing
open scoped List

variable {α β : Type} {t : Token} {r w w' : List Token} {bs bs' : List Blame} {fault : Fault}

/-! ## What the end is blamed for -/

/-- The end is blamed for at most one other fault, and then because it is not the closing brace of
these blocks. -/
def Lacks (bs : List Blame) (braces : List Token) : Prop :=
  ∃ other : Option Fault, other ≠ some (.missing .endOfBlock) ∧
    late bs = other.toList ++ braces.map fun _ => .missing .endOfBlock

theorem lacks_nil (h : late bs = []) : Lacks bs [] := ⟨none, by simp, by simp [h]⟩

theorem late_eq_nil_or_singleton (t : Token) (fault : Fault) :
    late [⟨t, fault, true⟩] = [] ∨ late [⟨t, fault, true⟩] = [fault] := by
  by_cases ht : t.kind = .eof
  · exact Or.inr (blames_of_eof ht fault).2.2
  · exact Or.inl (blames_of_ne_eof ht fault).2.2

/-- The first blame of the end. -/
theorem lacks_fault (h : late bs = []) (hfault : fault ≠ .missing .endOfBlock)
    (hblame : Blamed t fault bs') : Lacks (bs ++ bs') [] := by
  rw [Lacks, late_append, hblame.late_eq, ← late_append]
  rcases late_eq_nil_or_singleton t fault with hlate | hlate
  · exact lacks_nil (by rw [late_append, h, hlate, List.append_nil])
  · exact ⟨some fault, by simpa using hfault, by simp [h, hlate]⟩

/-- One more closing brace is missing. -/
theorem Lacks.concat {braces : List Token} (h : Lacks bs braces) (ht : t.kind = .eof)
    (brace : Token) : Lacks (bs ++ [⟨t, .missing .endOfBlock, true⟩]) (braces ++ [brace]) := by
  obtain ⟨other, hother, hlate⟩ := h
  refine ⟨other, hother, ?_⟩
  rw [late_append, hlate, (blames_of_eof ht _).2.2, List.map_append, List.append_assoc]
  rfl

theorem Lacks.of_quiet {braces : List Token} (hquiet : late bs = []) (h : Lacks bs' braces) :
    Lacks (bs ++ bs') braces := by
  unfold Lacks
  rw [late_append, hquiet, List.nil_append]
  exact h

/-- If the end is not blamed, no closing brace is missing. -/
theorem Lacks.eq_nil {braces : List Token} (h : Lacks bs braces) (hlate : late bs = []) :
    braces = [] := by
  obtain ⟨other, -, hother⟩ := h
  rw [hlate] at hother
  exact List.map_eq_nil_iff.1 (List.append_eq_nil_iff.1 hother.symm).2

/-! ## Ways of watched readings -/

variable {s s' s'' : Watch} {outer braces : List Token}

/-- A way on which the end is not blamed, and nothing is noted. -/
structure Watch.Passes (s s' : Watch) : Prop where
  reading : s.reading.Passes s'.reading
  openAtEnd : s'.openAtEnd = s.openAtEnd
  unclosed : s'.unclosed = s.unclosed

/-- A way to where the limit on nesting is met, on which nothing is noted. -/
structure Watch.Sinks (s s' : Watch) : Prop where
  reading : s.reading.Sinks s'.reading
  openAtEnd : s'.openAtEnd = s.openAtEnd
  unclosed : s'.unclosed = s.unclosed

/-- These blocks are noted, as open at the end and as reported. -/
structure Watch.Notes (s : Watch) (braces : List Token) (s' : Watch) : Prop where
  openAtEnd : s'.openAtEnd = s.openAtEnd ++ braces
  unclosed : s'.unclosed = s.unclosed ++ braces

/-- These are opening braces of blocks that are read on the way, the last one first. -/
def Nested (braces w : List Token) : Prop := braces.reverse <+ w.filter (·.kind = .leftBrace)

/-- A way on which all faults are recovered from: the end is blamed for the blocks that are noted,
and the inner ones of them are noted before the outer ones. -/
def Watch.Recovers (s s' : Watch) : Prop :=
  ∃ w bs braces, Passage s.reading w bs s'.reading ∧ Lacks bs braces ∧ Nested braces w ∧
    s.Notes braces s'

/-- A way that stops at a fault.  The blocks noted are on the way, and besides them these outer
ones. -/
def Watch.Stops (outer : List Token) (fault : Fault) (s s' : Watch) : Prop :=
  ∃ s₁ w bs bs' braces t r, Passage s.reading w bs s₁ ∧ s₁.ahead = t :: r ∧ Blamed t fault bs' ∧
    s'.reading = { s₁ with reports := s₁.reports ++ bs'.map Blame.report } ∧
    Lacks (bs ++ bs') (braces ++ outer) ∧ Nested braces w ∧ s.Notes (braces ++ outer) s'

theorem nested_nil (w : List Token) : Nested [] w := List.nil_sublist _

theorem Nested.append_right (h : Nested braces w) (w' : List Token) : Nested braces (w ++ w') := by
  unfold Nested
  rw [List.filter_append]
  exact h.trans (List.sublist_append_left _ _)

theorem Nested.append_left (h : Nested braces w) (w' : List Token) : Nested braces (w' ++ w) := by
  unfold Nested
  rw [List.filter_append]
  exact h.trans (List.sublist_append_right _ _)

/-- The block around these. -/
theorem Nested.concat (h : Nested braces w) (ht : t.kind = .leftBrace) :
    Nested (braces ++ [t]) (t :: w) := by
  unfold Nested
  rw [List.reverse_concat, List.filter_cons_of_pos (by simpa using ht)]
  exact List.cons_sublist_cons.2 h

namespace Watch

theorem Passes.refl (s : Watch) : s.Passes s := ⟨.refl _, rfl, rfl⟩

theorem Passes.trans (h : s.Passes s') (h' : s'.Passes s'') : s.Passes s'' :=
  ⟨h.reading.trans h'.reading, h'.openAtEnd.trans h.openAtEnd, h'.unclosed.trans h.unclosed⟩

theorem Passes.sinks (h : s.Passes s') : s.Sinks s' := ⟨Or.inl h.reading, h.openAtEnd, h.unclosed⟩

theorem Sinks.of_passes (h : s.Passes s') (h' : s'.Sinks s'') : s.Sinks s'' :=
  ⟨.of_passes h.reading h'.reading, h'.openAtEnd.trans h.openAtEnd, h'.unclosed.trans h.unclosed⟩

theorem Notes.of_passes (h : s.Passes s') (h' : s'.Notes braces s'') : s.Notes braces s'' :=
  ⟨h.openAtEnd ▸ h'.openAtEnd, h.unclosed ▸ h'.unclosed⟩

theorem Passes.recovers (h : s.Passes s') : s.Recovers s' := by
  obtain ⟨⟨w, bs, hw, hbs⟩, hopen, hunclosed⟩ := h
  exact ⟨w, bs, [], hw, lacks_nil hbs, nested_nil w, by simp [hopen], by simp [hunclosed]⟩

theorem Recovers.of_passes (h : s.Passes s') (h' : s'.Recovers s'') : s.Recovers s'' := by
  obtain ⟨w', bs', braces, hw', hlacks, hnested, hnotes⟩ := h'
  have hn := hnotes.of_passes h
  obtain ⟨⟨w, bs, hw, hbs⟩, -, -⟩ := h
  exact ⟨_, _, braces, hw.trans hw', .of_quiet hbs hlacks, hnested.append_left w, hn⟩

theorem Stops.of_passes (h : s.Passes s') (h' : s'.Stops outer fault s'') :
    s.Stops outer fault s'' := by
  obtain ⟨s₁, w', bs', bs'', braces, t, r, hw', hahead, hblame, hs, hlacks, hnested, hnotes⟩ := h'
  have hn := hnotes.of_passes h
  obtain ⟨⟨w, bs, hw, hbs⟩, -, -⟩ := h
  refine ⟨s₁, w ++ w', bs ++ bs', bs'', braces, t, r, hw.trans hw', hahead, hblame, hs, ?_,
    hnested.append_left w, hn⟩
  rw [List.append_assoc]
  exact .of_quiet hbs hlacks

/-- Where all faults are recovered from, the end was not blamed, or it is next. -/
theorem Recovers.passes_or_atEnd (h : s.Recovers s') :
    s.Passes s' ∨ s'.reading.isAtEnd = true := by
  obtain ⟨w, bs, braces, hw, hlacks, -, hopen, hunclosed⟩ := h
  by_cases hlate : late bs = []
  · obtain rfl := hlacks.eq_nil hlate
    rw [List.append_nil] at hopen hunclosed
    exact Or.inl ⟨⟨w, bs, hw, hlate⟩, hopen, hunclosed⟩
  · obtain ⟨fault, hfault⟩ := List.exists_mem_of_ne_nil _ hlate
    obtain ⟨b, hb, -⟩ := List.mem_map.1 hfault
    obtain ⟨hb, hend⟩ := List.mem_filter.1 hb
    right
    obtain ⟨-, hend⟩ := (Bool.and_eq_true _ _).mp hend
    rw [Reading.isAtEnd, hw.atEnd b hb hend]
    exact hend

/-- A block is entered: its brace is read, and it is one of the blocks on the way. -/
theorem Stops.enter (h : s'.Stops [t] fault s'') (hs : s.reading.ahead = t :: s'.reading.ahead)
    (ht : t.kind = .leftBrace) (hr : s'.reading.reports = s.reading.reports)
    (hnone : s.Notes [] s') : s.Stops [] fault s'' := by
  obtain ⟨s₁, w, bs, bs', braces, u, r, hw, hahead, hblame, hs₁, hlacks, hnested, hnotes⟩ := h
  obtain ⟨hopen, hunclosed⟩ := hnotes
  rw [hnone.openAtEnd, List.append_nil] at hopen
  rw [hnone.unclosed, List.append_nil] at hunclosed
  rw [← List.append_nil (braces ++ [t])] at hlacks hopen hunclosed
  have hread : Passage s.reading [t] [] s'.reading := .read hs (by simp [ht]) hr
  exact ⟨s₁, t :: w, bs, bs', braces ++ [t], u, r, hread.trans hw, hahead, hblame, hs₁, hlacks,
    hnested.concat ht, hopen, hunclosed⟩

end Watch

/-! ## Resuming behind a fault -/

/-- Reading goes on behind a token that is blamed, unless that is the end. -/
theorem exists_passage_resume {s : Reading} (hs : s.ahead = t :: r) (hblame : Blamed t fault bs) :
    ∃ w, Passage s w bs ⟨afterFault s.ahead, s.reports ++ bs.map Blame.report⟩ := by
  have hlast : bs.Pairwise fun b b' => b.atEnd = true → b'.atEnd = true := by
    refine List.pairwise_iff_forall_sublist.2 fun {b b'} hsub hend => ?_
    rwa [Blame.atEnd, hblame.token_eq (hsub.subset (by simp)),
      ← hblame.token_eq (hsub.subset List.mem_cons_self)]
  by_cases ht : t.kind = .eof
  · obtain ⟨hearly, hunwound, -⟩ := blames_of_eof ht fault
    have hafter : afterFault s.ahead = s.ahead := by simp [hs, afterFault, ht]
    refine ⟨[], hafter.symm, by simp, rfl, ?_, ?_, ?_, hlast, hblame.repeated⟩
    · rw [hblame.early_eq, hearly]
    · rw [hblame.unwound_eq, hunwound]
    · intro b hb _
      rw [hblame.token_eq hb, hafter, hs]
      rfl
  · obtain ⟨hearly, hunwound, -⟩ := blames_of_ne_eof ht fault
    obtain ⟨w, hw, hne⟩ := exists_append_dropToBoundary t r
    have hafter : afterFault s.ahead = dropToBoundary t r := by simp [hs, afterFault, ht]
    refine ⟨t :: w, ?_, List.forall_mem_cons.2 ⟨ht, hne⟩, rfl, ?_, ?_, ?_, hlast,
      hblame.repeated⟩
    · show s.ahead = t :: w ++ afterFault s.ahead
      rw [hafter, hs, List.cons_append, ← hw]
    · rw [hblame.early_eq, hearly]
      exact ((List.nil_sublist w).cons_cons t).subperm
    · rw [hblame.unwound_eq]
      exact hunwound.trans ((List.nil_sublist w).cons_cons t)
    · intro b hb hend
      have hkind : b.token.kind = .eof := of_decide_eq_true hend
      rw [hblame.token_eq hb] at hkind
      exact absurd hkind ht

/-- Recovery from a fault. -/
theorem Watch.Stops.recovers (h : s.Stops [] fault s') : s.Recovers
    { s' with reading := { s'.reading with ahead := afterFault s'.reading.ahead } } := by
  obtain ⟨s₁, w, bs, bs', braces, t, r, hw, hahead, hblame, hs₁, hlacks, hnested, hnotes⟩ := h
  obtain ⟨w', hw'⟩ := exists_passage_resume hahead hblame
  rw [List.append_nil] at hlacks hnotes
  refine ⟨w ++ w', _, braces, ?_, hlacks, hnested.append_right w', hnotes.openAtEnd,
    hnotes.unclosed⟩
  rw [hs₁]
  exact hw.trans hw'

/-- The next token is blamed for a fault. -/
theorem Watch.Passes.stops (h : s.Passes s') (hs : s'.reading.ahead = t :: r)
    (hfault : fault ≠ .missing .endOfBlock) (hblame : Blamed t fault bs) : s.Stops [] fault
    { s' with reading := { s'.reading with
        reports := s'.reading.reports ++ bs.map Blame.report } } := by
  obtain ⟨⟨w, bs', hw, hbs'⟩, hopen, hunclosed⟩ := h
  exact ⟨s'.reading, w, bs', bs, [], t, r, hw, hs, hblame, rfl, lacks_fault hbs' hfault hblame,
    nested_nil w, by simp [hopen], by simp [hunclosed]⟩

/-- Nesting too deep is a fault at the next token, also where a blame of that token has not been
written. -/
theorem Watch.Sinks.stops (h : s.Sinks s') (hs : s'.reading.ahead = t :: r) :
    s.Stops [] .tooDeep
      { s' with reading := { s'.reading with
          reports := s'.reading.reports ++ [.atToken t .tooDeep] } } := by
  obtain ⟨hreading, hopen, hunclosed⟩ := h
  rcases hreading with hpass | ⟨s₁, u, r', fault, hpass, hs₁, hs'⟩
  · exact Passes.stops ⟨hpass, hopen, hunclosed⟩ hs (by simp) (.once .tooDeep)
  · rw [hs', hs₁] at hs
    obtain ⟨rfl, -⟩ := List.cons.inj hs
    have hmid : s.Passes { s' with reading := s₁ } := ⟨hpass, hopen, hunclosed⟩
    rw [hs', List.append_assoc]
    exact hmid.stops hs₁ (by simp) (.again fault)

namespace Watched

variable {rule : Rule α} {x : WatchedRule α} {next : α → WatchedRule β} {a : α} {n : Nat}
  {stop : Stop} {brace : Token}

/-! ## Fair watched rules -/

/-- From here the watched rule notes no block and does not blame the end, unless it stops at a
fault. -/
structure FairAt (outer : List Token) (x : WatchedRule α) (s : Watch) : Prop where
  ok : ∀ {a s'}, x s = .ok a s' → s.Passes s'
  tooDeep : ∀ {s'}, x s = .error .tooDeep s' → s.Sinks s'
  fault : ∀ {fault s'}, x s = .error (.fault fault) s' → s.Stops outer fault s'

/-- The watched rule is fair from every place. -/
def Fair (x : WatchedRule α) : Prop := ∀ s, FairAt [] x s

theorem lift_eq_ok : lift rule s = .ok a s' ↔
    ∃ reading, rule s.reading = .ok a reading ∧ s' = { s with reading } := by
  unfold lift
  cases rule s.reading with
  | ok b reading => simp [eq_comm]
  | error stop reading => simp

theorem lift_eq_error : lift rule s = .error stop s' ↔
    ∃ reading, rule s.reading = .error stop reading ∧ s' = { s with reading } := by
  unfold lift
  cases rule s.reading with
  | ok b reading => simp
  | error stop reading => simp [eq_comm]

theorem lift_peek_eq_ok : lift peek s = .ok t s' ↔ s = s' ∧ ∃ r, s.reading.ahead = t :: r := by
  rw [lift_eq_ok]
  constructor
  · rintro ⟨reading, hpeek, rfl⟩
    obtain ⟨rfl, hs⟩ := peek_eq_ok.1 hpeek
    exact ⟨rfl, hs⟩
  · rintro ⟨rfl, r, hs⟩
    exact ⟨_, peek_of_ahead hs, rfl⟩

theorem lift_peek_eq_error (h : lift peek s = .error stop s') : stop = .ranOut := by
  obtain ⟨reading, hpeek, -⟩ := lift_eq_error.1 h
  exact (peek_eq_error.1 hpeek).1

theorem fairAt_lift (h : Grammar.FairAt rule s.reading) : FairAt [] (lift rule) s where
  ok hx := by
    obtain ⟨reading, hr, rfl⟩ := lift_eq_ok.1 hx
    exact ⟨h.ok hr, rfl, rfl⟩
  tooDeep hx := by
    obtain ⟨reading, hr, rfl⟩ := lift_eq_error.1 hx
    exact ⟨h.tooDeep hr, rfl, rfl⟩
  fault hx := by
    obtain ⟨reading, hr, rfl⟩ := lift_eq_error.1 hx
    obtain ⟨hfault, s₁, t, r, hs, hahead, rfl⟩ := h.fault hr
    have hpass : s.Passes { s with reading := s₁ } := ⟨hs, rfl, rfl⟩
    exact hpass.stops hahead hfault (.once _)

theorem fair_lift (h : Grammar.Fair rule) : Fair (lift rule) := fun s => fairAt_lift (h s.reading)

theorem fair_pure (a : α) : Fair (pure a : WatchedRule α) := fun s => {
  ok := fun h => (pure_eq_ok.1 h).2 ▸ .refl s
  tooDeep := fun h => absurd h pure_ne_error
  fault := fun h => absurd h pure_ne_error }

theorem fairAt_tooDeep (outer : List Token) (s : Watch) :
    FairAt outer (throw .tooDeep : WatchedRule α) s where
  ok h := absurd h throw_ne_ok
  tooDeep h := (throw_eq_error.1 h).2 ▸ (Watch.Passes.refl s).sinks
  fault h := by cases (throw_eq_error.1 h).1

theorem FairAt.of_eq {y : WatchedRule α} (hxy : x s = y s) (h : FairAt outer y s) :
    FairAt outer x s where
  ok hx := h.ok (hxy.symm.trans hx)
  tooDeep hx := h.tooDeep (hxy.symm.trans hx)
  fault hx := h.fault (hxy.symm.trans hx)

theorem FairAt.bind (h : FairAt outer x s)
    (hn : ∀ a s', x s = .ok a s' → FairAt outer (next a) s') : FairAt outer (x >>= next) s where
  ok hb := by
    obtain ⟨a, s', ha, hb⟩ := bind_eq_ok.1 hb
    exact (h.ok ha).trans ((hn a s' ha).ok hb)
  tooDeep hb := by
    rcases bind_eq_error.1 hb with ha | ⟨a, s', ha, hb⟩
    · exact h.tooDeep ha
    · exact .of_passes (h.ok ha) ((hn a s' ha).tooDeep hb)
  fault hb := by
    rcases bind_eq_error.1 hb with ha | ⟨a, s', ha, hb⟩
    · exact h.fault ha
    · exact ((hn a s' ha).fault hb).of_passes (h.ok ha)

theorem Fair.bind (h : Fair x) (hn : ∀ a, Fair (next a)) : Fair (x >>= next) :=
  fun s => (h s).bind fun a s' _ => hn a s'

/-- A block in a statement: its opening brace is read, and then the block. -/
theorem fairAt_block (hs : s.reading.ahead = t :: r) (ht : t.kind = .leftBrace)
    (h : ∀ s, FairAt [t] x s) (g : α → β) : FairAt [] (lift skip >>= fun _ => g <$> x) s := by
  have hskip : lift skip s = .ok () { s with reading := { s.reading with ahead := r } } :=
    lift_eq_ok.2 ⟨_, skip_of_ahead hs, rfl⟩
  have hread := (fairAt_lift (fairAt_skip hs (by simp [ht]))).ok hskip
  have hx := h { s with reading := { s.reading with ahead := r } }
  constructor
  · intro b s'' hb
    rw [bind_of_ok hskip] at hb
    obtain ⟨a, ha, -⟩ := (map_eq_ok g).1 hb
    exact hread.trans (hx.ok ha)
  · intro s'' hb
    rw [bind_of_ok hskip, map_apply] at hb
    rcases bind_eq_error.1 hb with ha | ⟨a, s₁, -, hb⟩
    · exact .of_passes hread (hx.tooDeep ha)
    · exact absurd hb pure_ne_error
  · intro fault s'' hb
    rw [bind_of_ok hskip, map_apply] at hb
    rcases bind_eq_error.1 hb with ha | ⟨a, s₁, -, hb⟩
    · exact (hx.fault ha).enter hs ht rfl ⟨by simp, by simp⟩
    · exact absurd hb pure_ne_error

/-! ## Sequences of declarations -/

/-- Faults are recovered from, and the limit on nesting may be met. -/
structure Recovering (item : WatchedRule (Option Stmt)) : Prop where
  ok : ∀ {s o s'}, item s = .ok o s' → s.Recovers s'
  tooDeep : ∀ {s s'}, item s = .error .tooDeep s' → s.Sinks s'
  fault : ∀ {s fault s'}, item s ≠ .error (.fault fault) s'

section Recover

variable {x : WatchedRule Stmt} {o : Option Stmt}

theorem recover_recovers (hx : Fair x) (h : recover n x s = .ok o s') : s.Recovers s' := by
  unfold recover at h
  cases hr : x s with
  | ok stmt s₁ =>
    rw [hr] at h
    obtain ⟨-, rfl⟩ := EStateM.Result.ok.inj h
    exact ((hx s).ok hr).recovers
  | error stop s₁ =>
    rw [hr] at h
    cases stop with
    | ranOut => cases h
    | fault fault =>
      obtain ⟨reading, hresume, rfl⟩ := lift_eq_ok.1 h
      obtain ⟨-, -, rfl⟩ := resume_eq_ok.1 hresume
      exact ((hx s).fault hr).recovers
    | tooDeep =>
      obtain ⟨reading, hresume, rfl⟩ := lift_eq_ok.1 h
      obtain ⟨t, s₂, hpeek, hresume⟩ := bind_eq_ok.1 hresume
      obtain ⟨rfl, r, hs⟩ := peek_eq_ok.1 hpeek
      obtain ⟨_, s₃, hreport, hresume⟩ := bind_eq_ok.1 hresume
      obtain ⟨-, rfl⟩ := report_eq_ok.1 hreport
      obtain ⟨-, -, rfl⟩ := resume_eq_ok.1 hresume
      exact (((hx s).tooDeep hr).stops hs).recovers

/-- Recovery meets the limit on nesting where it cannot write that it was met. -/
theorem recover_sinks (hx : ∀ {s'}, x s = .error .tooDeep s' → s.Passes s')
    (h : recover n x s = .error .tooDeep s') : s.Sinks s' := by
  unfold recover at h
  cases hr : x s with
  | ok stmt s₁ =>
    rw [hr] at h
    cases h
  | error stop s₁ =>
    rw [hr] at h
    cases stop with
    | ranOut => cases h
    | fault fault =>
      obtain ⟨reading, hresume, -⟩ := lift_eq_error.1 h
      cases resume_eq_error hresume
    | tooDeep =>
      obtain ⟨reading, hresume, rfl⟩ := lift_eq_error.1 h
      rcases bind_eq_error.1 hresume with hpeek | ⟨t, s₂, hpeek, hresume⟩
      · cases (peek_eq_error.1 hpeek).1
      obtain ⟨rfl, r, hs⟩ := peek_eq_ok.1 hpeek
      rcases bind_eq_error.1 hresume with hreport | ⟨_, s₃, -, hresume⟩
      · obtain ⟨-, -, rfl⟩ := report_eq_error.1 hreport
        obtain ⟨hpass, hopen, hunclosed⟩ := hx hr
        exact ⟨Or.inr ⟨s₁.reading, t, r, .tooDeep, hpass, hs, rfl⟩, hopen, hunclosed⟩
      · cases resume_eq_error hresume

end Recover

section Gather

variable {closes : Kind → Bool} {item : WatchedRule (Option Stmt)} {ss : List Stmt}

/-- At the end nothing more is gathered. -/
theorem gather_of_isAtEnd (hc : closes .eof = true) (hs : s.reading.isAtEnd = true) (u : Token)
    (bound : List Token) : gather closes item (u :: bound) s = .ok [] s := by
  obtain ⟨t, hhead, ht⟩ := (Option.any_eq_true _ _).1 hs
  obtain ⟨r, hr⟩ := List.head?_eq_some_iff.1 hhead
  have hpeek : lift peek s = .ok t s := lift_peek_eq_ok.2 ⟨rfl, r, hr⟩
  have hk : t.kind = .eof := of_decide_eq_true ht
  rw [gather, bind_of_ok hpeek, hk, if_pos hc]
  rfl

theorem gather_recovers (hc : closes .eof = true) (hitem : Recovering item) (bound : List Token)
    (h : gather closes item bound s = .ok ss s') : s.Recovers s' := by
  induction bound generalizing s ss with
  | nil => exact absurd h throw_ne_ok
  | cons u bound ih =>
    unfold gather at h
    obtain ⟨t, s₁, ht, h⟩ := bind_eq_ok.1 h
    obtain ⟨rfl, -⟩ := lift_peek_eq_ok.1 ht
    split at h
    · obtain ⟨-, rfl⟩ := pure_eq_ok.1 h
      exact (Watch.Passes.refl s).recovers
    · obtain ⟨o, s₂, ho, h⟩ := bind_eq_ok.1 h
      obtain ⟨stmts, s₃, hrest, h⟩ := bind_eq_ok.1 h
      obtain ⟨-, rfl⟩ := pure_eq_ok.1 h
      have hfirst := hitem.ok ho
      rcases hfirst.passes_or_atEnd with hpass | hend
      · exact (ih hrest).of_passes hpass
      · cases bound with
        | nil => exact absurd hrest throw_ne_ok
        | cons v bound =>
          rw [gather_of_isAtEnd hc hend] at hrest
          obtain ⟨-, rfl⟩ := EStateM.Result.ok.inj hrest
          exact hfirst

/-- The limit on nesting is met in a declaration behind others. -/
theorem gather_sinks (hc : closes .eof = true) (hitem : Recovering item) (bound : List Token)
    (h : gather closes item bound s = .error .tooDeep s') : s.Sinks s' := by
  induction bound generalizing s with
  | nil => cases (throw_eq_error.1 h).1
  | cons u bound ih =>
    unfold gather at h
    rcases bind_eq_error.1 h with h | ⟨t, s₁, ht, h⟩
    · cases lift_peek_eq_error h
    obtain ⟨rfl, r, hs⟩ := lift_peek_eq_ok.1 ht
    split at h
    · exact absurd h pure_ne_error
    rcases bind_eq_error.1 h with h | ⟨o, s₂, ho, h⟩
    · exact hitem.tooDeep h
    rcases bind_eq_error.1 h with h | ⟨stmts, s₃, -, h⟩
    · rcases (hitem.ok ho).passes_or_atEnd with hpass | hend
      · exact .of_passes hpass (ih h)
      · cases bound with
        | nil => cases (throw_eq_error.1 h).1
        | cons v bound =>
          rw [gather_of_isAtEnd hc hend] at h
          cases h
    · exact absurd h pure_ne_error

/-- Where no declaration can be read, none is gathered. -/
theorem eq_of_gather (hitem : ∀ {s o s'}, item s ≠ .ok o s') (bound : List Token)
    (h : gather closes item bound s = .ok ss s') : s' = s := by
  cases bound with
  | nil => exact absurd h throw_ne_ok
  | cons u bound =>
    unfold gather at h
    obtain ⟨t, s₁, ht, h⟩ := bind_eq_ok.1 h
    obtain ⟨rfl, -⟩ := lift_peek_eq_ok.1 ht
    split at h
    · exact (pure_eq_ok.1 h).2.symm
    · obtain ⟨o, s₂, ho, -⟩ := bind_eq_ok.1 h
      exact absurd ho hitem

theorem gather_ne_fault (hitem : Recovering item) (bound : List Token) :
    gather closes item bound s ≠ .error (.fault fault) s' := by
  intro h
  induction bound generalizing s with
  | nil => cases (throw_eq_error.1 h).1
  | cons u bound ih =>
    unfold gather at h
    rcases bind_eq_error.1 h with h | ⟨t, s₁, -, h⟩
    · cases lift_peek_eq_error h
    split at h
    · exact absurd h pure_ne_error
    rcases bind_eq_error.1 h with h | ⟨o, s₂, -, h⟩
    · exact hitem.fault h
    rcases bind_eq_error.1 h with h | ⟨stmts, s₃, -, h⟩
    · exact ih h
    · exact absurd h pure_ne_error

end Gather

/-! ## Blocks -/

theorem inBlock_eq_ok (h : inBlock brace x s = .ok a s') : x s = .ok a s' := by
  unfold inBlock at h
  cases hx : x s with
  | ok b s₁ =>
    rw [hx] at h
    exact h
  | error stop s₁ =>
    rw [hx] at h
    cases stop <;> cases h

theorem inBlock_eq_tooDeep (h : inBlock brace x s = .error .tooDeep s') :
    x s = .error .tooDeep s' := by
  unfold inBlock at h
  cases hx : x s with
  | ok b s₁ =>
    rw [hx] at h
    cases h
  | error stop s₁ =>
    rw [hx] at h
    cases stop with
    | fault fault => cases h
    | tooDeep | ranOut => exact h

theorem inBlock_eq_fault (h : inBlock brace x s = .error (.fault fault) s') :
    ∃ s₁, x s = .error (.fault fault) s₁ ∧
      s' = if s₁.reading.isAtEnd then { s₁ with openAtEnd := s₁.openAtEnd ++ [brace] } else s₁ := by
  unfold inBlock at h
  cases hx : x s with
  | ok b s₁ =>
    rw [hx] at h
    cases h
  | error stop s₁ =>
    rw [hx] at h
    cases stop with
    | fault fault' =>
      obtain ⟨hstop, rfl⟩ := EStateM.Result.error.inj h
      exact ⟨s₁, by rw [hstop], rfl⟩
    | tooDeep | ranOut => cases h

theorem closeBlock_eq_ok (h : closeBlock n brace s = .ok t s') :
    s.Passes s' ∧ s.reading.isAtEnd = false := by
  unfold closeBlock at h
  cases hx : expect n .endOfBlock s.reading with
  | ok u reading =>
    rw [hx] at h
    obtain ⟨-, rfl⟩ := EStateM.Result.ok.inj h
    obtain ⟨hs, hr, hk⟩ := expect_eq_ok.1 hx
    have hu : u.kind ≠ .eof := hk ▸ Expectation.kind_ne_eof _
    exact ⟨⟨.read hs hu hr, rfl, rfl⟩, by simpa [Reading.isAtEnd, hs] using hu⟩
  | error stop reading =>
    rw [hx] at h
    cases stop <;> cases h

/-- If the closing brace of a block is missing, that is reported at the next token, and noted. -/
theorem closeBlock_eq_fault (h : closeBlock n brace s = .error (.fault fault) s') :
    fault = .missing .endOfBlock ∧ ∃ t r, s.reading.ahead = t :: r ∧ t.kind ≠ .rightBrace ∧
      s' = { s with
        reading := { s.reading with
          reports := s.reading.reports ++ [.atToken t (.missing .endOfBlock)] }
        unclosed := s.unclosed ++ [brace] } := by
  unfold closeBlock at h
  cases hx : expect n .endOfBlock s.reading with
  | ok u reading =>
    rw [hx] at h
    cases h
  | error stop reading =>
    rw [hx] at h
    rcases expect_eq_error hx with rfl | ⟨t, r, hs, hk, ⟨-, rfl, rfl⟩ | ⟨-, rfl, -⟩⟩
    · cases h
    · obtain ⟨hfault, rfl⟩ := EStateM.Result.error.inj h
      exact ⟨(Stop.fault.inj hfault).symm, t, r, hs, hk, rfl⟩
    · cases h

/-- On the last levels that cannot be written. -/
theorem closeBlock_eq_tooDeep (h : closeBlock n brace s = .error .tooDeep s') :
    n ≤ 1 ∧ s.Sinks s' := by
  unfold closeBlock at h
  cases hx : expect n .endOfBlock s.reading with
  | ok u reading =>
    rw [hx] at h
    cases h
  | error stop reading =>
    rw [hx] at h
    rcases expect_eq_error hx with rfl | ⟨t, r, hs, hk, ⟨-, rfl, -⟩ | ⟨hn, rfl, hreading⟩⟩
    · cases h
    · cases h
    · obtain ⟨-, rfl⟩ := EStateM.Result.error.inj h
      refine ⟨hn, ?_, rfl, rfl⟩
      rcases hreading with rfl | rfl
      · exact Or.inl (.refl _)
      · exact Or.inr ⟨s.reading, t, r, _, .refl _, hs, rfl⟩

/-- From here a block either ends with its closing brace, or it is open at the end, and reports
that.  On the last levels it holds no declarations. -/
theorem fairAt_block_body {item : WatchedRule (Option Stmt)} (hitem : Recovering item)
    (hlast : n ≤ 1 → ∀ {s o s'}, item s ≠ .ok o s')
    (hnext : ∀ {ss s'}, gather closesBlock item s.reading.ahead s = .ok ss s' →
      ∃ t r, s'.reading.ahead = t :: r ∧ closesBlock t.kind = true) :
    FairAt [brace] (inBlock brace do
      let body ← gather closesBlock item s.reading.ahead
      let _ ← closeBlock n brace
      return body) s where
  ok h := by
    obtain ⟨body, s₁, hbody, h⟩ := bind_eq_ok.1 (inBlock_eq_ok h)
    obtain ⟨t, s₂, hclose, h⟩ := bind_eq_ok.1 h
    obtain ⟨-, rfl⟩ := pure_eq_ok.1 h
    obtain ⟨hread, hend⟩ := closeBlock_eq_ok hclose
    rcases (gather_recovers rfl hitem _ hbody).passes_or_atEnd with hpass | hend'
    · exact hpass.trans hread
    · rw [hend] at hend'
      cases hend'
  tooDeep h := by
    rcases bind_eq_error.1 (inBlock_eq_tooDeep h) with h | ⟨body, s₂, hbody, h⟩
    · exact gather_sinks rfl hitem _ h
    rcases bind_eq_error.1 h with h | ⟨t, s₃, -, h⟩
    · obtain ⟨hn, hsinks⟩ := closeBlock_eq_tooDeep h
      obtain rfl := eq_of_gather (hlast hn) _ hbody
      exact hsinks
    · exact absurd h pure_ne_error
  fault h := by
    obtain ⟨s₁, hrule, rfl⟩ := inBlock_eq_fault h
    rcases bind_eq_error.1 hrule with h | ⟨body, s₂, hbody, h⟩
    · exact absurd h (gather_ne_fault hitem _)
    rcases bind_eq_error.1 h with h | ⟨t, s₃, -, h⟩
    · obtain ⟨rfl, t, r, hs, hk, hs₁⟩ := closeBlock_eq_fault h
      obtain ⟨u, r', hs', hclosing⟩ := hnext hbody
      obtain ⟨rfl, -⟩ := List.cons.inj (hs.symm.trans hs')
      have ht : t.kind = .eof := by simpa [closesBlock, hk] using hclosing
      have hend : s₁.reading.isAtEnd = true := by simp [Reading.isAtEnd, hs₁, hs, ht]
      obtain ⟨w, bs, braces, hw, hlacks, hnested, hopen, hunclosed⟩ :=
        gather_recovers rfl hitem _ hbody
      rw [if_pos hend, hs₁]
      exact ⟨s₂.reading, w, bs, _, braces, t, r, hw, hs, .once _, rfl, hlacks.concat ht brace,
        hnested, by simp [hopen], by simp [hunclosed]⟩
    · exact absurd h pure_ne_error

/-! ## Statements -/

/-- What is kept at one depth: the rules for statements are fair, and declarations recover. -/
structure FairStatements (n : Nat) : Prop where
  declaration : Recovering (readDeclaration n)
  statement : Fair (readStatement n)
  conditional : Fair (readIf n)
  whileLoop : Fair (readWhile n)
  forLoop : Fair (readFor n)
  block : ∀ brace s, FairAt [brace] (readBlock brace n) s

namespace FairStatements

theorem zero : FairStatements 0 where
  declaration := {
    ok := fun h => absurd h throw_ne_ok
    tooDeep := fun h => (throw_eq_error.1 h).2 ▸ (Watch.Passes.refl _).sinks
    fault := fun h => by cases (throw_eq_error.1 h).1 }
  statement := fairAt_tooDeep []
  conditional := fairAt_tooDeep []
  whileLoop := fairAt_tooDeep []
  forLoop := fairAt_tooDeep []
  block brace := fairAt_tooDeep [brace]

variable (ih : FairStatements n)

include ih

theorem readDeclaration_succ : Recovering (readDeclaration (n + 1)) where
  ok h := by
    refine recover_recovers ((fair_lift fair_accept).bind fun word => ?_) h
    cases word with
    | none => exact ih.statement
    | some word => exact fair_lift (fair_readVariable n)
  tooDeep {s s'} h := by
    cases n with
    | zero =>
      -- without a level the rule stops behind the word, before it reports anything
      refine recover_sinks (fun {s'} h => ?_) h
      rcases bind_eq_error.1 h with h | ⟨o, s₁, ho, h⟩
      · obtain ⟨reading, hreading, -⟩ := lift_eq_error.1 h
        cases (accept_eq_error.1 hreading).1
      · have hs' : s' = s₁ := by
          cases o with
          | none => exact (throw_eq_error.1 h).2.symm
          | some word =>
            obtain ⟨reading, hreading, rfl⟩ := lift_eq_error.1 h
            obtain rfl := (throw_eq_error.1 hreading).2
            rfl
        exact hs' ▸ (fair_lift fair_accept s).ok ho
    | succ n =>
      rcases recover_eq_error ((FollowsStatements.all (n + 2)).declaration.of_error h) with
        hstop | ⟨hn, -⟩
      · cases hstop
      · exact absurd hn (Nat.succ_ne_zero n)
  fault {s fault s'} h := by
    rcases recover_eq_error ((FollowsStatements.all (n + 1)).declaration.of_error h) with
      hstop | ⟨-, hstop⟩ <;> cases hstop

theorem readStatement_succ : Fair (readStatement (n + 1)) := by
  unfold readStatement
  intro s
  refine (fair_lift fair_peek s).bind fun t s' ht => ?_
  obtain ⟨rfl, r, hs⟩ := lift_peek_eq_ok.1 ht
  split
  next hk =>
    exact (fairAt_lift (fairAt_skip hs (by simp [hk]))).bind fun _ s' _ =>
      fair_lift (fair_readPrint n) s'
  next hk =>
    exact (fairAt_lift (fairAt_skip hs (by simp [hk]))).bind fun _ s' _ => ih.conditional s'
  next hk =>
    exact (fairAt_lift (fairAt_skip hs (by simp [hk]))).bind fun _ s' _ => ih.whileLoop s'
  next hk =>
    exact (fairAt_lift (fairAt_skip hs (by simp [hk]))).bind fun _ s' _ => ih.forLoop s'
  next hk => exact fairAt_block hs hk (ih.block t) Stmt.block
  next => exact fair_lift (fair_readEffect n) s

theorem readIf_succ : Fair (readIf (n + 1)) := by
  refine (fair_lift (fair_expect (by decide))).bind fun _ =>
    (fair_lift (fair_readExpression n)).bind fun condition =>
    (fair_lift (fair_expect (by decide))).bind fun _ => ih.statement.bind fun thenBranch =>
    (fair_lift fair_accept).bind fun o => ?_
  cases o with
  | none => exact fair_pure _
  | some word => exact ih.statement.bind fun _ => fair_pure _

theorem readWhile_succ : Fair (readWhile (n + 1)) :=
  (fair_lift (fair_expect (by decide))).bind fun _ =>
    (fair_lift (fair_readExpression n)).bind fun _ =>
    (fair_lift (fair_expect (by decide))).bind fun _ => ih.statement.bind fun _ => fair_pure _

theorem readFor_succ : Fair (readFor (n + 1)) :=
  (fair_lift (fair_expect (by decide))).bind fun _ =>
    (fair_lift (fair_readInitializer n)).bind fun _ =>
    (fair_lift (fair_readOptional _ n)).bind fun _ =>
    (fair_lift (fair_expect (by decide))).bind fun _ =>
    (fair_lift (fair_readOptional _ n)).bind fun _ =>
    (fair_lift (fair_expect (by decide))).bind fun _ => ih.statement.bind fun _ => fair_pure _

theorem readBlock_succ (brace : Token) (s : Watch) :
    FairAt [brace] (readBlock brace (n + 1)) s := by
  have hbody : FairAt [brace] (inBlock brace do
      let body ← gather closesBlock (readDeclaration n) s.reading.ahead
      let _ ← closeBlock n brace
      return body) s := by
    refine fairAt_block_body ih.declaration
      (fun hn {s o s'} h => readDeclaration_ne_ok hn
        ((FollowsStatements.all n).declaration.of_ok h)) fun {ss s'} h => ?_
    have hgather := (follows_gather (FollowsStatements.all n).declaration _).of_ok h
    exact closes_of_gather _ _ hgather
  exact .of_eq (by rfl) hbody

omit ih in
theorem all (n : Nat) : FairStatements n := by
  induction n with
  | zero => exact zero
  | succ n ih =>
    exact {
      declaration := ih.readDeclaration_succ
      statement := ih.readStatement_succ
      conditional := ih.readIf_succ
      whileLoop := ih.readWhile_succ
      forLoop := ih.readFor_succ
      block := ih.readBlock_succ }

end FairStatements

/-- Reading a program recovers from all faults. -/
theorem readProgram_recovers {ss : List Stmt} (h : readProgram n s = .ok ss s') : s.Recovers s' :=
  gather_recovers (by simp) (FairStatements.all n).declaration _ h

end Watched

end Lox.Grammar

namespace Lox

open Grammar

variable {ts : List Token}

/-! ## Reports that are not written -/

/-- What is reported while tokens are read is blames, and those that are not written are repeated. -/
theorem exists_blames_parse (h : ∃ t ∈ ts, t.kind = .eof) :
    ∃ bs : List Blame, (parse ts).reports = bs.map Blame.report ∧ Repeated bs := by
  obtain ⟨program, reading, hread⟩ := exists_readProgram_eq_ok h
  obtain ⟨s, hrun, rfl⟩ := (Watched.follows_readProgram nestingLimit).exists_ok
    (s := ⟨⟨ts, []⟩, [], []⟩) hread
  obtain ⟨w, bs, braces, hw, -⟩ := Watched.readProgram_recovers hrun
  exact ⟨bs, by rw [parse_eq h hread, hw.reports, List.nil_append], hw.repeated⟩

/-- Behind a report that is not written, the same token is reported in writing to be nested too
deep. -/
theorem getElem?_succ_of_unwritten (h : ∃ t ∈ ts, t.kind = .eof) {i : Nat} {line : Int}
    {place : Place} {fault : Fault}
    (hi : (parse ts).reports[i]? = some (.unwritten line place fault)) :
    (parse ts).reports[i + 1]? = some (.ofFault line place .tooDeep) := by
  obtain ⟨bs, hbs, hrepeated⟩ := exists_blames_parse h
  rw [hbs, List.getElem?_map] at hi ⊢
  obtain ⟨⟨t, fault', written⟩, hb, hreport⟩ := Option.map_eq_some_iff.1 hi
  cases written with
  | true => cases hreport
  | false =>
    obtain ⟨rfl, rfl, -⟩ := Report.unwritten.inj hreport
    rw [hrepeated.getElem?_succ hb rfl]
    rfl

/-- Within the limit on nesting every report is written. -/
theorem isWritten_of_withinNesting (h : ∃ t ∈ ts, t.kind = .eof)
    (hn : (parse ts).WithinNesting) {r : Report} (hr : r ∈ (parse ts).reports) :
    r.isWritten = true := by
  obtain ⟨bs, hbs, hrepeated⟩ := exists_blames_parse h
  rw [hbs] at hr
  obtain ⟨⟨t, fault, written⟩, hb, rfl⟩ := List.mem_map.1 hr
  cases written with
  | true => rfl
  | false =>
    obtain ⟨i, hi, hget⟩ := List.getElem_of_mem hb
    have hnext := hrepeated.getElem?_succ ((List.getElem?_eq_getElem hi).trans (by rw [hget])) rfl
    refine absurd ?_ (hn t)
    rw [hbs]
    exact List.mem_map_of_mem (List.mem_of_getElem? hnext)

end Lox
