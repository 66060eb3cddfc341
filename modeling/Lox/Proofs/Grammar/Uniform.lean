import Lox.Proofs.Grammar.Complete
import Lox.Proofs.Relabel

/-!
# Rules look at the kinds and the values of tokens

A rule does the same on tokens with other texts and on other lines, whatever tokens are behind those
it gets to, and whatever was reported before (`Uniform`).  So reading commutes with a relabeling of
the tokens (`parse_relabel`), and what stands behind the end does not matter (`parse_append_eof`).

The two runs that are compared have readings of their own in common, which are put in two frames.
They go side by side as long as the first is still on tokens of its own.
-/

namespace Lox

/-- What is read of relabeled tokens. -/
def Parse.relabel (ρ : Relabeling) (p : Parse) : Parse :=
  ⟨p.program?.map (List.map (Stmt.relabel ρ)), p.reports.map (Report.relabel ρ)⟩

theorem Token.value?_relabel (ρ : Relabeling) (t : Token) : (t.relabel ρ).value? = t.value? := rfl

end Lox

namespace Lox.Grammar

open Computing

variable {α β γ δ : Type} {ρ : Relabeling} {s s' : Reading}

/-! ## Frames -/

/-- What there is besides a reading of its own: tokens behind it, and reports made before it. -/
structure Frame where
  behind : List Token
  before : List Report

namespace Reading

/-- The reading in a frame. -/
def within (s : Reading) (f : Frame) : Reading := ⟨s.ahead ++ f.behind, f.before ++ s.reports⟩

/-- The reading with its tokens relabeled. -/
def relabel (ρ : Relabeling) (s : Reading) : Reading :=
  ⟨s.ahead.map (Token.relabel ρ), s.reports.map (Report.relabel ρ)⟩

@[simp] theorem ahead_within (s : Reading) (f : Frame) :
    (s.within f).ahead = s.ahead ++ f.behind := rfl
@[simp] theorem reports_within (s : Reading) (f : Frame) :
    (s.within f).reports = f.before ++ s.reports := rfl
@[simp] theorem ahead_relabel (s : Reading) :
    (s.relabel ρ).ahead = s.ahead.map (Token.relabel ρ) := rfl
@[simp] theorem reports_relabel (s : Reading) :
    (s.relabel ρ).reports = s.reports.map (Report.relabel ρ) := rfl

@[simp] theorem relabel_none (s : Reading) : s.relabel .none = s := by
  simp [relabel, Token.relabel_none_eq_id, Report.relabel_none_eq_id]

theorem within_injective {f : Frame} (h : s.within f = s'.within f) : s = s' := by
  obtain ⟨ha, hr⟩ := Reading.mk.inj h
  cases s
  cases s'
  cases List.append_cancel_right ha
  cases List.append_cancel_left hr
  rfl

/-- A report of its own, added in a frame. -/
theorem within_report (s : Reading) (f : Frame) (r : Report) :
    ({ s.within f with reports := (s.within f).reports ++ [r] } : Reading) =
      ({ s with reports := s.reports ++ [r] } : Reading).within f := by
  simp [within]

theorem relabel_report (s : Reading) (r : Report) :
    ({ s.relabel ρ with reports := (s.relabel ρ).reports ++ [r.relabel ρ] } : Reading) =
      ({ s with reports := s.reports ++ [r] } : Reading).relabel ρ := by
  simp [relabel]

end Reading

/-! ## Results side by side -/

/-- The results are of one kind, with values that correspond by `g`, and lead to a common reading in
the two frames; or the first is past its own tokens. -/
inductive Agrees (ρ : Relabeling) (f f' : Frame) (g : α → β) :
    EStateM.Result Stop Reading α → EStateM.Result Stop Reading β → Prop
  | ok {a} {s : Reading} :
      Agrees ρ f f' g (.ok a (s.within f)) (.ok (g a) ((s.relabel ρ).within f'))
  | error {stop} {s : Reading} :
      Agrees ρ f f' g (.error stop (s.within f)) (.error stop ((s.relabel ρ).within f'))
  | past {r r'} (h : (endState r).ahead <:+ f.behind) : Agrees ρ f f' g r r'

section Agrees

variable {f f' : Frame} {g : α → β} {k : γ → δ}

theorem Agrees.ok_cases {a : α} {r' : EStateM.Result Stop Reading β}
    (h : Agrees ρ f f' g (.ok a s) r') :
    (∃ s₁ : Reading, s = s₁.within f ∧ r' = .ok (g a) ((s₁.relabel ρ).within f')) ∨
      s.ahead <:+ f.behind := by
  generalize hr : (EStateM.Result.ok a s : EStateM.Result Stop Reading α) = r at h
  cases h with
  | ok =>
    obtain ⟨rfl, rfl⟩ := EStateM.Result.ok.inj hr
    exact Or.inl ⟨_, rfl, rfl⟩
  | error => cases hr
  | past h =>
    subst hr
    exact Or.inr h

theorem Agrees.error_cases {stop : Stop} {r' : EStateM.Result Stop Reading β}
    (h : Agrees ρ f f' g (.error stop s) r') :
    (∃ s₁ : Reading, s = s₁.within f ∧ r' = .error stop ((s₁.relabel ρ).within f')) ∨
      s.ahead <:+ f.behind := by
  generalize hr : (EStateM.Result.error stop s : EStateM.Result Stop Reading α) = r at h
  cases h with
  | ok => cases hr
  | error =>
    obtain ⟨rfl, rfl⟩ := EStateM.Result.error.inj hr
    exact Or.inl ⟨_, rfl, rfl⟩
  | past h =>
    subst hr
    exact Or.inr h

/-- With an end among its own tokens a rule is never past them. -/
theorem OrderlyAt.not_past {rule : Rule α} (ho : OrderlyAt rule (s.within f)) (hs : s.HasEnd) :
    ¬ (endState (rule (s.within f))).ahead <:+ f.behind := by
  rintro ⟨v, hv⟩
  obtain ⟨w, hw, hne⟩ := ho.leads.ahead
  obtain ⟨t, ht, hk⟩ := hs
  rw [Reading.ahead_within, ← hv, ← List.append_assoc, List.append_cancel_right_eq] at hw
  exact hne t (hw ▸ List.mem_append_left v ht) hk

/-- With no tokens of its own a rule is past them from the start. -/
theorem agrees_of_nil {rule : Rule α} {r : EStateM.Result Stop Reading β} (hs : s.ahead = [])
    (ho : OrderlyAt rule (s.within f)) : Agrees ρ f f' g (rule (s.within f)) r := by
  have h := ho.leads.suffix
  rw [Reading.ahead_within, hs, List.nil_append] at h
  exact .past h

/-- Composed rules agree if their parts do. -/
theorem Agrees.bind {x : Rule α} {x' : Rule β} {next : α → Rule γ} {next' : β → Rule δ}
    (hx : Agrees ρ f f' g (x s) (x' s'))
    (ho : ∀ a s₁, x s = .ok a s₁ → OrderlyAt (next a) s₁)
    (hn : ∀ a (s₁ : Reading), x s = .ok a (s₁.within f) →
      x' s' = .ok (g a) ((s₁.relabel ρ).within f') →
      Agrees ρ f f' k (next a (s₁.within f)) (next' (g a) ((s₁.relabel ρ).within f'))) :
    Agrees ρ f f' k ((x >>= next) s) ((x' >>= next') s') := by
  generalize hr : x s = r at hx
  generalize hr' : x' s' = r' at hx
  cases hx with
  | ok =>
    rw [bind_of_ok hr, bind_of_ok hr']
    exact hn _ _ hr hr'
  | error =>
    rw [bind_of_error hr, bind_of_error hr']
    exact .error
  | past h =>
    -- what follows goes further forward, so it is past its own tokens too
    cases r with
    | ok a s₁ =>
      refine .past ?_
      rw [bind_of_ok hr]
      exact (ho a s₁ hr).leads.suffix.trans h
    | error stop s₁ =>
      refine .past ?_
      rw [bind_of_error hr]
      exact h

end Agrees

/-! ## Uniform rules -/

/-- The rules go forward, and agree on a common reading in any two frames. -/
structure Uniform (ρ : Relabeling) (g : α → β) (rule : Rule α) (rule' : Rule β) : Prop where
  orderly : Orderly rule
  agrees : ∀ (f f' : Frame) (s : Reading),
    Agrees ρ f f' g (rule (s.within f)) (rule' ((s.relabel ρ).within f'))

section Steps

variable {g : α → β} {k : γ → δ} {kinds : List Kind}

theorem Uniform.bind {x : Rule α} {x' : Rule β} {next : α → Rule γ} {next' : β → Rule δ}
    (hx : Uniform ρ g x x') (hn : ∀ a, Uniform ρ k (next a) (next' (g a))) :
    Uniform ρ k (x >>= next) (x' >>= next') where
  orderly := hx.orderly.bind fun a => (hn a).orderly
  agrees f f' s :=
    (hx.agrees f f' s).bind (fun a s₁ _ => (hn a).orderly s₁) fun a s₁ _ _ => (hn a).agrees f f' s₁

theorem uniform_pure (a : α) : Uniform ρ g (pure a) (pure (g a)) where
  orderly := orderly_pure a
  agrees _ _ _ := .ok

theorem uniform_throw_tooDeep : Uniform ρ g (throw .tooDeep) (throw .tooDeep) where
  orderly := orderly_throw_tooDeep
  agrees _ _ _ := .error

theorem Uniform.map {x : Rule α} {x' : Rule β} (hx : Uniform ρ g x x') {h : α → γ} {h' : β → δ}
    (hk : ∀ a, h' (g a) = k (h a)) : Uniform ρ k (h <$> x) (h' <$> x') :=
  hx.bind fun a => by
    show Uniform ρ k (pure (h a)) (pure (h' (g a)))
    rw [hk]
    exact uniform_pure (h a)

theorem uniform_peek : Uniform ρ (Token.relabel ρ) peek peek where
  orderly := orderly_peek
  agrees f f' s := by
    cases hs : s.ahead with
    | nil => exact agrees_of_nil hs (orderly_peek _)
    | cons t r =>
      rw [peek_of_ahead (t := t) (r := r ++ f.behind) (by simp [hs]),
        peek_of_ahead (t := t.relabel ρ) (r := r.map (Token.relabel ρ) ++ f'.behind)
          (by simp [hs])]
      exact .ok

theorem uniform_isNext : Uniform ρ id (isNext kinds) (isNext kinds) where
  orderly := orderly_isNext
  agrees f f' s := by
    cases hs : s.ahead with
    | nil => exact agrees_of_nil hs (orderly_isNext _)
    | cons t r =>
      have h : isNext kinds (s.within f) =
          .ok (t.kind ≠ .eof && kinds.contains t.kind) (s.within f) :=
        isNext_eq_ok.2 ⟨rfl, t, r ++ f.behind, by simp [hs], rfl⟩
      have h' : isNext kinds ((s.relabel ρ).within f') =
          .ok (t.kind ≠ .eof && kinds.contains t.kind) ((s.relabel ρ).within f') :=
        isNext_eq_ok.2 ⟨rfl, t.relabel ρ, r.map (Token.relabel ρ) ++ f'.behind, by simp [hs], rfl⟩
      rw [h, h']
      exact .ok

/-- What is accepted depends on the next token alone. -/
theorem exists_accept_eq (ρ : Relabeling) (kinds : List Kind) (t : Token) (r : List Token)
    (reports : List Report) :
    ∃ (o : Option Token) (s₁ : Reading), ∀ f f',
      accept kinds (Reading.within ⟨t :: r, reports⟩ f) = .ok o (s₁.within f) ∧
      accept kinds ((Reading.relabel ρ ⟨t :: r, reports⟩).within f') =
        .ok (o.map (Token.relabel ρ)) ((s₁.relabel ρ).within f') := by
  by_cases heof : t.kind = .eof
  · exact ⟨none, ⟨t :: r, reports⟩, fun f f' => ⟨accept_of_eof rfl heof, accept_of_eof rfl heof⟩⟩
  by_cases hmem : t.kind ∈ kinds
  · exact ⟨some t, ⟨r, reports⟩, fun f f' =>
      ⟨accept_of_mem rfl heof hmem, accept_of_mem (t := t.relabel ρ) rfl heof hmem⟩⟩
  · exact ⟨none, ⟨t :: r, reports⟩, fun f f' =>
      ⟨accept_of_not_mem rfl hmem, accept_of_not_mem (t := t.relabel ρ) rfl hmem⟩⟩

theorem uniform_accept : Uniform ρ (Option.map (Token.relabel ρ)) (accept kinds) (accept kinds) where
  orderly := orderly_accept
  agrees f f' s := by
    obtain ⟨ahead, reports⟩ := s
    cases ahead with
    | nil => exact agrees_of_nil rfl (orderly_accept _)
    | cons t r =>
      obtain ⟨o, s₁, h⟩ := exists_accept_eq ρ kinds t r reports
      rw [(h f f').1, (h f f').2]
      exact .ok

section Report

variable {n : Nat}

/-- A report of its own is added in the frames alike. -/
theorem reports_within (s : Reading) (f f' : Frame) (r : Report) :
    ({ s.within f with reports := (s.within f).reports ++ [r] } : Reading) =
        ({ s with reports := s.reports ++ [r] } : Reading).within f ∧
      ({ (s.relabel ρ).within f' with
          reports := ((s.relabel ρ).within f').reports ++ [r.relabel ρ] } : Reading) =
        (({ s with reports := s.reports ++ [r] } : Reading).relabel ρ).within f' := by
  rw [Reading.within_report, Reading.within_report, Reading.relabel_report]
  exact ⟨rfl, rfl⟩

theorem uniform_report (t : Token) (fault : Fault) :
    Uniform ρ id (report n t fault) (report n (t.relabel ρ) fault) where
  orderly := orderly_report t fault
  agrees f f' s := by
    cases n with
    | zero =>
      obtain ⟨h, h'⟩ := reports_within (ρ := ρ) s f f' (.unwrittenAt t fault)
      rw [report_zero, report_zero, Report.unwrittenAt_relabel, h, h']
      exact .error
    | succ n =>
      obtain ⟨h, h'⟩ := reports_within (ρ := ρ) s f f' (.atToken t fault)
      rw [report_succ, report_succ, Report.atToken_relabel, h, h']
      exact .ok

theorem uniform_fail (fault : Fault) : Uniform ρ g (fail n fault) (fail n fault) where
  orderly := orderly_fail fault
  agrees f f' s := by
    cases hs : s.ahead with
    | nil => exact agrees_of_nil hs (orderly_fail fault _)
    | cons t r =>
      have hw : (s.within f).ahead = t :: (r ++ f.behind) := by simp [hs]
      have hw' : ((s.relabel ρ).within f').ahead =
          t.relabel ρ :: (r.map (Token.relabel ρ) ++ f'.behind) := by simp [hs]
      cases n with
      | zero =>
        obtain ⟨h, h'⟩ := reports_within (ρ := ρ) s f f' (.unwrittenAt t fault)
        rw [fail_zero_of_ahead hw, fail_zero_of_ahead hw', Report.unwrittenAt_relabel, h, h']
        exact .error
      | succ n =>
        obtain ⟨h, h'⟩ := reports_within (ρ := ρ) s f f' (.atToken t fault)
        rw [fail_succ_of_ahead hw, fail_succ_of_ahead hw', Report.atToken_relabel, h, h']
        exact .error

theorem uniform_failBelow (fault : Fault) : Uniform ρ g (failBelow n fault) (failBelow n fault) := by
  cases n with
  | zero => exact uniform_throw_tooDeep
  | succ n => exact uniform_fail fault

theorem uniform_expect (e : Expectation) :
    Uniform ρ (Token.relabel ρ) (expect n e) (expect n e) := by
  unfold expect consume
  refine uniform_accept.bind fun o => ?_
  cases o with
  | none => exact uniform_failBelow _
  | some t => exact uniform_pure t

end Report

end Steps

/-! ## Recovery -/

/-- The boundary behind a fault is found among these tokens, or it lies behind them. -/
theorem dropToBoundary_append (ρ : Relabeling) (last : Token) (w : List Token) :
    (∃ v, v ≠ [] ∧ ∀ us vs, dropToBoundary last (w ++ us) = v ++ us ∧
        dropToBoundary (last.relabel ρ) (w.map (Token.relabel ρ) ++ vs) =
          v.map (Token.relabel ρ) ++ vs) ∨
      ∀ us, dropToBoundary last (w ++ us) <:+ us := by
  induction w generalizing last with
  | nil => exact Or.inr fun us => dropToBoundary_suffix last us
  | cons t w ih =>
    by_cases h : t.kind = .eof ∨ last.kind = .semicolon ∨ t.kind.startsStatement
    · exact Or.inl ⟨t :: w, List.cons_ne_nil t w, fun us vs =>
        ⟨if_pos h, if_pos (by simpa using h)⟩⟩
    · have hus : ∀ us, dropToBoundary last (t :: w ++ us) = dropToBoundary t (w ++ us) :=
        fun us => if_neg h
      have hvs : ∀ vs, dropToBoundary (last.relabel ρ) ((t :: w).map (Token.relabel ρ) ++ vs) =
          dropToBoundary (t.relabel ρ) (w.map (Token.relabel ρ) ++ vs) :=
        fun vs => if_neg (by simpa using h)
      rcases ih t with ⟨v, hne, hv⟩ | hv
      · refine Or.inl ⟨v, hne, fun us vs => ?_⟩
        rw [hus, hvs]
        exact hv us vs
      · refine Or.inr fun us => ?_
        rw [hus]
        exact hv us

theorem afterFault_append (ρ : Relabeling) (w : List Token) :
    (∃ v, v ≠ [] ∧ ∀ us vs, afterFault (w ++ us) = v ++ us ∧
        afterFault (w.map (Token.relabel ρ) ++ vs) = v.map (Token.relabel ρ) ++ vs) ∨
      ∀ us, afterFault (w ++ us) <:+ us := by
  cases w with
  | nil => exact Or.inr fun us => afterFault_suffix us
  | cons t w =>
    by_cases h : t.kind = .eof
    · exact Or.inl ⟨t :: w, List.cons_ne_nil t w, fun us vs => ⟨if_pos h, if_pos h⟩⟩
    · rcases dropToBoundary_append ρ t w with ⟨v, hne, hv⟩ | hv
      · refine Or.inl ⟨v, hne, fun us vs => ?_⟩
        exact ⟨(if_neg h).trans (hv us vs).1, (if_neg h).trans (hv us vs).2⟩
      · refine Or.inr fun us => ?_
        have hus : afterFault (t :: w ++ us) = dropToBoundary t (w ++ us) := if_neg h
        rw [hus]
        exact hv us

theorem ahead_endState_synchronize (s : Reading) :
    (endState (synchronize s)).ahead = afterFault s.ahead := by
  unfold synchronize
  split
  next h => exact h.symm
  next => rfl

theorem uniform_synchronize : Uniform ρ id synchronize synchronize where
  orderly := orderly_synchronize
  agrees f f' s := by
    rcases afterFault_append ρ s.ahead with ⟨v, hne, hv⟩ | hv
    · obtain ⟨hv, hv'⟩ := hv f.behind f'.behind
      have h : synchronize (s.within f) = .ok () (Reading.within ⟨v, s.reports⟩ f) :=
        synchronize_eq_ok.2 ⟨by simp [hv, hne], by simp [Reading.within, hv]⟩
      have h' : synchronize ((s.relabel ρ).within f') =
          .ok () ((Reading.relabel ρ ⟨v, s.reports⟩).within f') :=
        synchronize_eq_ok.2 ⟨by simp [hv', hne], by simp [Reading.within, Reading.relabel, hv']⟩
      rw [h, h']
      exact .ok
    · refine .past ?_
      rw [ahead_endState_synchronize]
      exact hv f.behind

/-- Recovery goes on where the rule ends. -/
theorem recover_suffix {n : Nat} (rule : Rule Stmt) (s : Reading) :
    (endState (recover n rule s)).ahead <:+ (endState (rule s)).ahead := by
  cases hr : rule s with
  | ok stmt s₁ =>
    rw [recover_of_ok hr]
    exact List.suffix_rfl
  | error stop s₁ =>
    cases stop with
    | fault fault =>
      rw [recover_of_fault hr]
      exact (orderly_resume s₁).leads.suffix
    | ranOut =>
      rw [recover_of_ranOut hr]
      exact List.suffix_rfl
    | tooDeep =>
      rw [recover_of_tooDeep hr]
      exact (orderly_resumeDeep s₁).leads.suffix

theorem Uniform.recover {n : Nat} {rule rule' : Rule Stmt}
    (h : Uniform ρ (Stmt.relabel ρ) rule rule') :
    Uniform ρ (Option.map (Stmt.relabel ρ)) (Grammar.recover n rule) (Grammar.recover n rule')
    where
  orderly := orderly_recover h.orderly
  agrees f f' s := by
    have hsync : Uniform ρ (Option.map (Stmt.relabel ρ))
        (do synchronize; return none) (do synchronize; return none) :=
      uniform_synchronize.bind fun _ => uniform_pure none
    have hagrees := h.agrees f f' s
    generalize hr : rule (s.within f) = r at hagrees
    generalize hr' : rule' ((s.relabel ρ).within f') = r' at hagrees
    cases hagrees with
    | @ok stmt s₁ =>
      rw [recover_of_ok hr, recover_of_ok hr']
      exact .ok (a := some stmt)
    | @error stop s₁ =>
      cases stop with
      | fault fault =>
        rw [recover_of_fault hr, recover_of_fault hr']
        exact hsync.agrees f f' s₁
      | ranOut =>
        rw [recover_of_ranOut hr, recover_of_ranOut hr']
        exact .error
      | tooDeep =>
        rw [recover_of_tooDeep hr, recover_of_tooDeep hr']
        exact (uniform_peek.bind fun t => (uniform_report t _).bind fun _ => hsync).agrees f f' s₁
    | past hpast =>
      rw [← hr] at hpast
      exact .past ((recover_suffix rule _).trans hpast)

/-! ## Expressions -/

section Chain

variable {operators : List Kind} {join : Expr → Token → Expr → Expr} {operand : Rule Expr}
  {f f' : Frame}

/-- An operator is a token, so the rounds that are left are enough behind its operand. -/
theorem length_le_of_operand (h : Orderly operand) {operator t : Token} {right : Expr}
    {s s₁ s₂ : Reading} {bound : List Token} (ho : accept operators s = .ok (some operator) s₁)
    (hr : operand s₁ = .ok right s₂) (hb : s.ahead.length ≤ (t :: bound).length) :
    s₂.ahead.length ≤ bound.length := by
  have hlen : s.ahead.length = s₁.ahead.length + 1 := congrArg List.length (accept_eq_some.1 ho).1
  have hle : s₂.ahead.length ≤ s₁.ahead.length := ((h s₁).ok hr).length_le
  rw [List.length_cons] at hb
  omega

/-- Two chains agree if each has rounds enough for the tokens ahead. -/
theorem agrees_chain
    (hjoin : ∀ a operator b, join (a.relabel ρ) (operator.relabel ρ) (b.relabel ρ) =
      (join a operator b).relabel ρ)
    (h : Uniform ρ (Expr.relabel ρ) operand operand) (bound bound' : List Token) (left : Expr)
    (s : Reading) (hb : (s.within f).ahead.length ≤ bound.length)
    (hb' : ((s.relabel ρ).within f').ahead.length ≤ bound'.length) :
    Agrees ρ f f' (Expr.relabel ρ) (chain operators join operand bound left (s.within f))
      (chain operators join operand bound' (left.relabel ρ) ((s.relabel ρ).within f')) := by
  induction bound generalizing bound' left s with
  | nil =>
    have hs : s.ahead = [] := by
      rw [Reading.ahead_within, List.length_append, List.length_nil] at hb
      exact List.length_eq_zero_iff.1 (by omega)
    exact agrees_of_nil hs (orderlyAt_chain h.orderly [] left _ hb)
  | cons _ bound ih =>
    cases hs : s.ahead with
    | nil => exact agrees_of_nil hs (orderlyAt_chain h.orderly _ left _ hb)
    | cons t r =>
    cases bound' with
    | nil => simp [hs] at hb'
    | cons _ bound' =>
      unfold chain
      refine (uniform_accept.agrees f f' s).bind (fun o s₁ ho => ?_) fun o s₁ ho ho' => ?_
      · cases o with
        | none => exact orderly_pure left s₁
        | some operator =>
          exact (h.orderly s₁).bind fun right s₂ hr =>
            orderlyAt_chain h.orderly bound _ s₂ (length_le_of_operand h.orderly ho hr hb)
      · cases o with
        | none => exact .ok
        | some operator =>
          refine (h.agrees f f' s₁).bind (fun right s₂ hr => ?_) fun right s₂ hr hr' => ?_
          · exact orderlyAt_chain h.orderly bound _ s₂ (length_le_of_operand h.orderly ho hr hb)
          · rw [hjoin]
            exact ih bound' _ s₂ (length_le_of_operand h.orderly ho hr hb)
              (length_le_of_operand h.orderly ho' hr' hb')

theorem uniform_leftJoined
    (hjoin : ∀ a operator b, join (a.relabel ρ) (operator.relabel ρ) (b.relabel ρ) =
      (join a operator b).relabel ρ)
    (h : Uniform ρ (Expr.relabel ρ) operand operand) :
    Uniform ρ (Expr.relabel ρ) (leftJoined operators join operand)
      (leftJoined operators join operand) where
  orderly := orderly_leftJoined h.orderly
  agrees f f' s :=
    -- the rest of the rule starts a chain with a round for each token ahead
    (h.agrees f f' s).bind
      (fun first s₁ _ => (orderly_get s₁).bind fun here s₂ hg => by
        obtain ⟨rfl, rfl⟩ := get_eq_ok.1 hg
        exact orderlyAt_chain h.orderly _ first _ (Nat.le_refl _))
      fun first s₁ _ _ =>
        agrees_chain hjoin h (s₁.within f).ahead ((s₁.relabel ρ).within f').ahead first s₁
          (Nat.le_refl _) (Nat.le_refl _)

end Chain

theorem uniform_primary {n : Nat}
    (ih : ∀ tier, Uniform ρ (Expr.relabel ρ) (readTier n tier) (readTier n tier)) :
    Uniform ρ (Expr.relabel ρ) (readTier (n + 1) .primary) (readTier (n + 1) .primary) where
  orderly := orderly_readTier (n + 1) .primary
  agrees f f' s := by
    obtain ⟨ahead, reports⟩ := s
    cases ahead with
    | nil => exact agrees_of_nil rfl (orderly_readTier (n + 1) .primary _)
    | cons t r =>
      have hs : (Reading.within ⟨t :: r, reports⟩ f).ahead = t :: (r ++ f.behind) := rfl
      have hs' : ((Reading.relabel ρ ⟨t :: r, reports⟩).within f').ahead =
          t.relabel ρ :: (r.map (Token.relabel ρ) ++ f'.behind) := rfl
      by_cases hname : t.kind = .identifier
      · rw [readTier_reference hs hname, readTier_reference hs' hname]
        exact .ok (a := Expr.reference t) (s := ⟨r, reports⟩)
      by_cases hparen : t.kind = .leftParen
      · rw [readTier_grouping hs hparen, readTier_grouping hs' hparen]
        have h : Uniform ρ (Expr.relabel ρ)
            (do
              let inner ← readTier n .expression
              let _ ← expect n .endOfGroup
              return .grouping inner)
            (do
              let inner ← readTier n .expression
              let _ ← expect n .endOfGroup
              return .grouping inner) :=
          (ih .expression).bind fun inner => (uniform_expect _).bind fun _ =>
            uniform_pure (Expr.grouping inner)
        exact h.agrees f f' ⟨r, reports⟩
      cases hv : t.value? with
      | some v =>
        rw [readTier_literal hs hv, readTier_literal hs' ((t.value?_relabel ρ).trans hv)]
        exact .ok (a := Expr.literal v) (s := ⟨r, reports⟩)
      | none =>
        rw [readTier_noExpression hs hv hname hparen,
          readTier_noExpression hs' ((t.value?_relabel ρ).trans hv) hname hparen]
        exact (uniform_fail .noExpression).agrees f f' ⟨t :: r, reports⟩

/-- Rules for expressions are uniform at every depth. -/
theorem uniform_readTier (n : Nat) (tier : Tier) :
    Uniform ρ (Expr.relabel ρ) (readTier n tier) (readTier n tier) := by
  induction n generalizing tier with
  | zero => exact uniform_throw_tooDeep
  | succ n ih =>
    cases tier with
    | expression => exact ih .assignment
    | assignment =>
      unfold readTier
      refine (ih .or).bind fun target => uniform_accept.bind fun o => ?_
      cases o with
      | none => exact uniform_pure target
      | some equal =>
        refine (ih .assignment).bind fun value => ?_
        cases target with
        | reference name => exact uniform_pure (Expr.assign name value)
        | _ => exact (uniform_report equal .badTarget).bind fun _ => uniform_pure _
    | or => exact uniform_leftJoined (fun _ _ _ => rfl) (ih .and)
    | and => exact uniform_leftJoined (fun _ _ _ => rfl) (ih .equality)
    | equality => exact uniform_leftJoined (fun _ _ _ => rfl) (ih .comparison)
    | comparison => exact uniform_leftJoined (fun _ _ _ => rfl) (ih .term)
    | term => exact uniform_leftJoined (fun _ _ _ => rfl) (ih .factor)
    | factor => exact uniform_leftJoined (fun _ _ _ => rfl) (ih .unary)
    | unary =>
      unfold readTier
      refine uniform_accept.bind fun o => ?_
      cases o with
      | none => exact ih .primary
      | some operator => exact (ih .unary).bind fun e => uniform_pure (Expr.unary operator e)
    | primary => exact uniform_primary ih

theorem uniform_readExpression (n : Nat) :
    Uniform ρ (Expr.relabel ρ) (readExpression n) (readExpression n) :=
  uniform_readTier n .expression

/-! ## Statements without statements inside -/

theorem uniform_readVariable (n : Nat) :
    Uniform ρ (Stmt.relabel ρ) (readVariable n) (readVariable n) := by
  cases n with
  | zero => exact uniform_throw_tooDeep
  | succ n =>
    unfold readVariable
    have hend : ∀ name initializer, Uniform ρ (Stmt.relabel ρ)
        (do let _ ← expect n .endOfVariable; return .declare name initializer)
        (do
          let _ ← expect n .endOfVariable
          return .declare (name.relabel ρ) (initializer.map (Expr.relabel ρ))) :=
      fun name initializer => (uniform_expect _).bind fun _ =>
        uniform_pure (Stmt.declare name initializer)
    refine (uniform_expect _).bind fun name => uniform_accept.bind fun o => ?_
    cases o with
    | none => exact hend name none
    | some equal =>
      have he : Uniform ρ (Option.map (Expr.relabel ρ)) (some <$> readExpression n)
          (some <$> readExpression n) := (uniform_readExpression n).map fun _ => rfl
      exact he.bind fun initializer => hend name initializer

theorem uniform_readPrint (n : Nat) :
    Uniform ρ (Stmt.relabel ρ) (readPrint n) (readPrint n) := by
  cases n with
  | zero => exact uniform_throw_tooDeep
  | succ n =>
    exact (uniform_readExpression n).bind fun e => (uniform_expect _).bind fun _ =>
      uniform_pure (Stmt.print e)

theorem uniform_readEffect (n : Nat) :
    Uniform ρ (Stmt.relabel ρ) (readEffect n) (readEffect n) := by
  cases n with
  | zero => exact uniform_throw_tooDeep
  | succ n =>
    exact (uniform_readExpression n).bind fun e => (uniform_expect _).bind fun _ =>
      uniform_pure (Stmt.expression e)

theorem uniform_readInitializer (n : Nat) :
    Uniform ρ (Option.map (Stmt.relabel ρ)) (readInitializer n) (readInitializer n) := by
  unfold readInitializer
  refine uniform_accept.bind fun o => ?_
  cases o with
  | some close => exact uniform_pure none
  | none =>
    refine uniform_accept.bind fun o => ?_
    cases o with
    | some word => exact (uniform_readVariable n).map fun _ => rfl
    | none => exact (uniform_readEffect n).map fun _ => rfl

theorem uniform_readOptional (closing : Kind) (n : Nat) :
    Uniform ρ (Option.map (Expr.relabel ρ)) (readOptional closing n) (readOptional closing n) := by
  unfold readOptional
  refine uniform_isNext.bind fun b => ?_
  cases b with
  | true => exact uniform_pure none
  | false => exact (uniform_readExpression n).map fun _ => rfl

/-! ## Sequences of declarations -/

/-- Gathers with a round for each token ahead. -/
def gatherAhead (closes : Kind → Bool) (item : Rule (Option Stmt)) : Rule (List Stmt) :=
  fun s => gather closes item s.ahead s

theorem readBlock_succ (n : Nat) :
    readBlock (n + 1) = (do
      let body ← gatherAhead closesBlock (readDeclaration n)
      let _ ← expect n .endOfBlock
      return body) := rfl

/-- An item takes a token, so the rounds that are left are enough behind it. -/
theorem Progresses.length_le {item : Rule (Option Stmt)} (hp : Progresses item) {s s' : Reading}
    {t u : Token} {r bound : List Token} {o : Option Stmt} (hs : s.ahead = t :: r)
    (ht : t.kind ≠ .eof) (ho : item s = .ok o s') (hb : s.ahead.length ≤ (u :: bound).length) :
    s'.ahead.length ≤ bound.length := by
  have hlt : s'.ahead.length < s.ahead.length := hp s t r o s' hs ht ho
  rw [List.length_cons] at hb
  omega

/-- Two sequences agree if each has rounds enough for the tokens ahead. -/
theorem agrees_gather {closes : Kind → Bool} {item : Rule (Option Stmt)} {f f' : Frame}
    (hc : closes .eof = true) (h : Uniform ρ (Option.map (Stmt.relabel ρ)) item item)
    (hp : Progresses item) (bound bound' : List Token) (s : Reading)
    (hb : (s.within f).ahead.length ≤ bound.length)
    (hb' : ((s.relabel ρ).within f').ahead.length ≤ bound'.length) :
    Agrees ρ f f' (List.map (Stmt.relabel ρ)) (gather closes item bound (s.within f))
      (gather closes item bound' ((s.relabel ρ).within f')) := by
  induction bound generalizing bound' s with
  | nil =>
    have hs : s.ahead = [] := by
      rw [Reading.ahead_within, List.length_append, List.length_nil] at hb
      exact List.length_eq_zero_iff.1 (by omega)
    exact agrees_of_nil hs (orderlyAt_gather hc h.orderly hp [] _ hb)
  | cons _ bound ih =>
    cases hs : s.ahead with
    | nil => exact agrees_of_nil hs (orderlyAt_gather hc h.orderly hp _ _ hb)
    | cons t r =>
    cases bound' with
    | nil => simp [hs] at hb'
    | cons _ bound' =>
      have hs₁ : (s.within f).ahead = t :: (r ++ f.behind) := by simp [hs]
      have hs₁' : ((s.relabel ρ).within f').ahead =
          t.relabel ρ :: (r.map (Token.relabel ρ) ++ f'.behind) := by simp [hs]
      unfold gather
      rw [bind_of_ok (peek_of_ahead hs₁), bind_of_ok (peek_of_ahead hs₁'), Token.kind_relabel]
      by_cases hk : closes t.kind = true
      · rw [if_pos hk, if_pos hk]
        exact .ok (a := [])
      · rw [if_neg hk, if_neg hk]
        have heof : t.kind ≠ .eof := fun he => hk (he ▸ hc)
        refine (h.agrees f f' s).bind (fun o s₁ hi => ?_) fun o s₁ hi hi' => ?_
        · exact (orderlyAt_gather hc h.orderly hp bound s₁ (hp.length_le hs₁ heof hi hb)).bind
            fun _ _ _ => orderly_pure _ _
        · refine (ih bound' s₁ (hp.length_le hs₁ heof hi hb) (hp.length_le hs₁' heof hi' hb')).bind
            (fun _ _ _ => orderly_pure _ _) fun stmts s₂ _ _ => ?_
          have hvalue : (o.map (Stmt.relabel ρ)).toList ++ stmts.map (Stmt.relabel ρ) =
              (o.toList ++ stmts).map (Stmt.relabel ρ) := by
            cases o <;> simp
          rw [hvalue]
          exact .ok

/-- With a round for each token ahead, gathering is uniform. -/
theorem uniform_gatherAhead {closes : Kind → Bool} {item : Rule (Option Stmt)}
    (hc : closes .eof = true) (h : Uniform ρ (Option.map (Stmt.relabel ρ)) item item)
    (hp : Progresses item) :
    Uniform ρ (List.map (Stmt.relabel ρ)) (gatherAhead closes item) (gatherAhead closes item) where
  orderly s := .of_leads (.refl s) (orderlyAt_gather hc h.orderly hp _ s (Nat.le_refl _)) rfl
  agrees _ _ s := agrees_gather hc h hp _ _ s (Nat.le_refl _) (Nat.le_refl _)

/-! ## Statements with statements inside -/

/-- A declaration before recovery: a variable, or a statement. -/
def declared (n : Nat) : Rule Stmt := do
  match ← accept [.varWord] with
  | some _ => readVariable n
  | none => readStatement n

theorem readDeclaration_succ (n : Nat) : readDeclaration (n + 1) = recover n (declared n) := rfl

/-- What is kept at one depth: all rules for statements are uniform. -/
structure UniformStatements (ρ : Relabeling) (n : Nat) : Prop where
  declaration : Uniform ρ (Option.map (Stmt.relabel ρ)) (readDeclaration n) (readDeclaration n)
  statement : Uniform ρ (Stmt.relabel ρ) (readStatement n) (readStatement n)
  conditional : Uniform ρ (Stmt.relabel ρ) (readIf n) (readIf n)
  whileLoop : Uniform ρ (Stmt.relabel ρ) (readWhile n) (readWhile n)
  forLoop : Uniform ρ (Stmt.relabel ρ) (readFor n) (readFor n)
  block : Uniform ρ (List.map (Stmt.relabel ρ)) (readBlock n) (readBlock n)

namespace UniformStatements

variable {n : Nat}

theorem zero : UniformStatements ρ 0 where
  declaration := uniform_throw_tooDeep
  statement := uniform_throw_tooDeep
  conditional := uniform_throw_tooDeep
  whileLoop := uniform_throw_tooDeep
  forLoop := uniform_throw_tooDeep
  block := uniform_throw_tooDeep

variable (h : UniformStatements ρ n)

include h

theorem uniform_declared : Uniform ρ (Stmt.relabel ρ) (declared n) (declared n) := by
  refine uniform_accept.bind fun o => ?_
  cases o with
  | none => exact h.statement
  | some t => exact uniform_readVariable n

theorem statement_succ : Uniform ρ (Stmt.relabel ρ) (readStatement (n + 1)) (readStatement (n + 1))
    where
  orderly := (OrderlyStatements.all (n + 1)).statement
  agrees f f' s := by
    obtain ⟨ahead, reports⟩ := s
    cases ahead with
    | nil => exact agrees_of_nil rfl ((OrderlyStatements.all (n + 1)).statement _)
    | cons t r =>
      have hs : (Reading.within ⟨t :: r, reports⟩ f).ahead = t :: (r ++ f.behind) := rfl
      have hs' : ((Reading.relabel ρ ⟨t :: r, reports⟩).within f').ahead =
          t.relabel ρ :: (r.map (Token.relabel ρ) ++ f'.behind) := rfl
      by_cases hprint : t.kind = .printWord
      · rw [readStatement_print hs hprint, readStatement_print hs' hprint]
        exact (uniform_readPrint n).agrees f f' ⟨r, reports⟩
      by_cases hif : t.kind = .ifWord
      · rw [readStatement_if hs hif, readStatement_if hs' hif]
        exact h.conditional.agrees f f' ⟨r, reports⟩
      by_cases hwhile : t.kind = .whileWord
      · rw [readStatement_while hs hwhile, readStatement_while hs' hwhile]
        exact h.whileLoop.agrees f f' ⟨r, reports⟩
      by_cases hfor : t.kind = .forWord
      · rw [readStatement_for hs hfor, readStatement_for hs' hfor]
        exact h.forLoop.agrees f f' ⟨r, reports⟩
      by_cases hblock : t.kind = .leftBrace
      · rw [readStatement_block hs hblock, readStatement_block hs' hblock]
        have hb : Uniform ρ (Stmt.relabel ρ) (.block <$> readBlock n) (.block <$> readBlock n) :=
          h.block.map fun body => (Stmt.relabel_block ρ body).symm
        exact hb.agrees f f' ⟨r, reports⟩
      · have hk : t.kind ∉ [Kind.printWord, .ifWord, .whileWord, .forWord, .leftBrace] := by
          simp [hprint, hif, hwhile, hfor, hblock]
        rw [readStatement_effect hs hk, readStatement_effect hs' hk]
        exact (uniform_readEffect n).agrees f f' ⟨t :: r, reports⟩

theorem conditional_succ : Uniform ρ (Stmt.relabel ρ) (readIf (n + 1)) (readIf (n + 1)) := by
  unfold readIf
  refine (uniform_expect _).bind fun _ => (uniform_readExpression n).bind fun condition =>
    (uniform_expect _).bind fun _ => h.statement.bind fun thenBranch =>
    uniform_accept.bind fun o => ?_
  cases o with
  | none => exact uniform_pure (Stmt.ifThen condition thenBranch)
  | some other =>
    exact h.statement.bind fun elseBranch =>
      uniform_pure (Stmt.ifElse condition thenBranch elseBranch)

theorem whileLoop_succ : Uniform ρ (Stmt.relabel ρ) (readWhile (n + 1)) (readWhile (n + 1)) :=
  (uniform_expect _).bind fun _ => (uniform_readExpression n).bind fun condition =>
    (uniform_expect _).bind fun _ => h.statement.bind fun body =>
    uniform_pure (Stmt.loop condition body)

theorem forLoop_succ : Uniform ρ (Stmt.relabel ρ) (readFor (n + 1)) (readFor (n + 1)) := by
  unfold readFor
  refine (uniform_expect _).bind fun _ => (uniform_readInitializer n).bind fun initializer =>
    (uniform_readOptional _ n).bind fun condition => (uniform_expect _).bind fun _ =>
    (uniform_readOptional _ n).bind fun increment => (uniform_expect _).bind fun _ =>
    h.statement.bind fun body => ?_
  rw [← Stmt.relabel_forLoop]
  exact uniform_pure _

theorem block_succ :
    Uniform ρ (List.map (Stmt.relabel ρ)) (readBlock (n + 1)) (readBlock (n + 1)) := by
  rw [readBlock_succ]
  exact (uniform_gatherAhead rfl h.declaration (OrderlyStatements.all n).progresses).bind
    fun body => (uniform_expect _).bind fun _ => uniform_pure body

omit h in
theorem all (n : Nat) : UniformStatements ρ n := by
  induction n with
  | zero => exact zero
  | succ n ih =>
    exact {
      declaration := ih.uniform_declared.recover
      statement := ih.statement_succ
      conditional := ih.conditional_succ
      whileLoop := ih.whileLoop_succ
      forLoop := ih.forLoop_succ
      block := ih.block_succ }

end UniformStatements

/-! ## Programs -/

/-- Reading a program is uniform. -/
theorem uniform_readProgram (n : Nat) :
    Uniform ρ (List.map (Stmt.relabel ρ)) (readProgram n) (readProgram n) :=
  uniform_gatherAhead (by simp) (UniformStatements.all n).declaration
    (OrderlyStatements.all n).progresses

/-- With an end ahead, a program is read the same in any two frames. -/
theorem readProgram_within {n : Nat} (hn : 1 < n) (hs : s.HasEnd) (ρ : Relabeling) (f f' : Frame) :
    ∃ program s₁, readProgram n (s.within f) = .ok program (Reading.within s₁ f) ∧
      readProgram n ((s.relabel ρ).within f') =
        .ok (program.map (Stmt.relabel ρ)) ((s₁.relabel ρ).within f') := by
  have h := (uniform_readProgram (ρ := ρ) n).agrees f f' s
  generalize hr : readProgram n (s.within f) = r at h
  generalize hr' : readProgram n ((s.relabel ρ).within f') = r' at h
  cases h with
  | ok => exact ⟨_, _, rfl, rfl⟩
  | error =>
    obtain rfl := readProgram_eq_error hn hr
    obtain ⟨t, ht, hk⟩ := hs
    exact absurd ⟨t, List.mem_append_left _ ht, hk⟩ ((orderly_readProgram n _).error hr).2
  | past h => exact absurd (hr ▸ h) ((orderly_readProgram n _).not_past hs)

end Lox.Grammar

namespace Lox

open Grammar

variable {ts : List Token}

theorem parse_eq {tokens : List Token} (h : ∃ t ∈ tokens, t.kind = .eof) {program : List Stmt}
    {s : Reading} (hr : readProgram nestingLimit ⟨tokens, []⟩ = .ok program s) :
    parse tokens = ⟨some program, s.reports⟩ := by
  obtain ⟨t, ht, -⟩ := h
  unfold parse
  rw [closed_of_mem ht, hr]

/-- Relabeled tokens are read as the relabeled program. -/
theorem parse_relabel (ρ : Relabeling) (h : ∃ t ∈ ts, t.kind = .eof) :
    parse (ts.map (Token.relabel ρ)) = (parse ts).relabel ρ := by
  have h' : ∃ t ∈ ts.map (Token.relabel ρ), t.kind = .eof := by
    obtain ⟨t, ht, hk⟩ := h
    exact ⟨t.relabel ρ, List.mem_map_of_mem ht, hk⟩
  obtain ⟨program, s, hr, hr'⟩ :=
    readProgram_within (n := nestingLimit) (by decide) (s := ⟨ts, []⟩) h ρ ⟨[], []⟩ ⟨[], []⟩
  simp only [Reading.within, Reading.relabel, List.append_nil, List.nil_append, List.map_nil]
    at hr hr'
  rw [parse_eq h hr, parse_eq h' hr', Parse.relabel]
  rfl

/-- What stands behind an end is not looked at. -/
theorem parse_append_eof {w r : List Token} {e : Token} (he : e.kind = .eof) :
    parse (w ++ e :: r) = parse (w ++ [e]) := by
  have h : ∃ t ∈ w ++ [e], t.kind = .eof := ⟨e, by simp, he⟩
  have h' : ∃ t ∈ w ++ e :: r, t.kind = .eof := ⟨e, by simp, he⟩
  obtain ⟨program, s, hr, hr'⟩ := readProgram_within (n := nestingLimit) (by decide)
    (s := ⟨w ++ [e], []⟩) h .none ⟨r, []⟩ ⟨[], []⟩
  simp only [Reading.within, Reading.relabel, Token.relabel_none_eq_id, Stmt.relabel_none_eq_id,
    Report.relabel_none_eq_id, List.map_id, List.append_nil, List.nil_append, List.append_assoc,
    List.singleton_append] at hr hr'
  rw [parse_eq h' hr, parse_eq h hr']

end Lox
