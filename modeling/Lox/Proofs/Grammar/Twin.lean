import Lox.Proofs.Grammar.Mend

/-!
# The given tokens and the mended ones are read alike

A rule reads the given tokens of a patch and the mended ones to the same tree.  Of the given tokens
it reports the bad targets, of the mended ones nothing (`Twins`).  Both readings go on side by side,
so the mended tokens are nested no deeper than the given ones.  Here it is shown of expressions:
where a target is bad, the rule has read it already as it is read without the `=` behind it.
-/

namespace Lox.Grammar

open Computing

variable {α β : Type} {tier : Tier} {p q : Patch} {e : Expr} {rs rs' : List Token} {n : Nat}

/-! ## First tokens -/

/-- The given tokens and the mended ones begin with this token. -/
structure Patch.Begins (p : Patch) (t : Token) : Prop where
  given : ∃ r, p.given = t :: r
  mended : ∃ r, p.mended = t :: r

theorem Patch.begins_kept {t : Token} (p : Patch) : (kept t ++ p).Begins t :=
  ⟨⟨_, rfl⟩, ⟨_, rfl⟩⟩

theorem Patch.Begins.append {t : Token} (h : p.Begins t) (q : Patch) : (p ++ q).Begins t := by
  obtain ⟨⟨r, hr⟩, ⟨r', hr'⟩⟩ := h
  exact ⟨⟨r ++ q.given, by simp [hr]⟩, ⟨r' ++ q.mended, by simp [hr']⟩⟩

theorem Patch.Begins.dropping {t : Token} (h : p.Begins t) (equal : Token) (q : Patch) :
    (p.dropping equal q).Begins t := by
  obtain ⟨⟨r, hr⟩, hmended⟩ := h
  exact ⟨⟨r ++ equal :: q.given, by simp [Patch.dropping, hr]⟩, hmended⟩

/-! ## Two readings side by side -/

/-- Unless nesting gets too deep, the first rule reads the given tokens of the patch and reports its
bad targets, the second rule reads the mended tokens without a report, and both give the same. -/
def Twins (x y : Rule α) (p : Patch) (a : α) (rs rs' : List Token) : Prop :=
  ∀ reports,
    (x ⟨p.given ++ rs, reports⟩ = .ok a ⟨rs, reports ++ p.reports⟩ ∧
      y ⟨p.mended ++ rs', []⟩ = .ok a ⟨rs', []⟩) ∨
    Overflows (x ⟨p.given ++ rs, reports⟩)

namespace Twins

variable {x y x' y' : Rule α} {f g : α → Rule β} {a : α} {b : β} {t : Token}

theorem stop : Twins (throw .tooDeep) y p a rs rs' := fun _ => Or.inr (Or.inl ⟨_, rfl⟩)

theorem done : Twins (pure a) (pure a) .nothing a rs rs' := by
  intro reports
  left
  simp [pure_apply]

theorem congr (hx : ∀ reports, x ⟨p.given ++ rs, reports⟩ = x' ⟨p.given ++ rs, reports⟩)
    (hy : y ⟨p.mended ++ rs', []⟩ = y' ⟨p.mended ++ rs', []⟩) (h : Twins x' y' p a rs rs') :
    Twins x y p a rs rs' := by
  intro reports
  rw [hx, hy]
  exact h reports

/-- A token is read by both rules first. -/
theorem after (hx : ∀ r reports, x ⟨t :: r, reports⟩ = x' ⟨r, reports⟩)
    (hy : ∀ r reports, y ⟨t :: r, reports⟩ = y' ⟨r, reports⟩) (h : Twins x' y' q a rs rs') :
    Twins x y (.kept t ++ q) a rs rs' := by
  intro reports
  have h := h reports
  rwa [← hx, ← hy] at h

theorem take {x : Rule α} (hx : ∀ r reports, x ⟨t :: r, reports⟩ = .ok a ⟨r, reports⟩)
    (hf : Twins (f a) (g a) q b rs rs') :
    Twins (x >>= f) (x >>= g) (.kept t ++ q) b rs rs' :=
  .after (fun _ _ => bind_of_ok (hx _ _)) (fun _ _ => bind_of_ok (hx _ _)) hf

/-- The last token of the patch is read. -/
theorem last {x : Rule α} (hx : ∀ r reports, x ⟨t :: r, reports⟩ = .ok a ⟨r, reports⟩) :
    Twins x x (.kept t) a rs rs' := fun reports =>
  Or.inl ⟨by rw [Patch.reports_kept, List.append_nil]; exact hx rs reports, hx rs' []⟩

/-- Both rules look ahead first. -/
theorem look (hx : ∀ reports, x ⟨p.given ++ rs, reports⟩ = .ok a ⟨p.given ++ rs, reports⟩)
    (hy : y ⟨p.mended ++ rs', []⟩ = .ok a ⟨p.mended ++ rs', []⟩)
    (hf : Twins (f a) (g a) p b rs rs') : Twins (x >>= f) (y >>= g) p b rs rs' :=
  .congr (fun reports => bind_of_ok (hx reports)) (bind_of_ok hy) hf

/-- Both rules look at the first token. -/
theorem look_at {x : Rule α} (hbegins : p.Begins t)
    (hx : ∀ r reports, x ⟨t :: r, reports⟩ = .ok a ⟨t :: r, reports⟩)
    (hf : Twins (f a) (g a) p b rs rs') : Twins (x >>= f) (x >>= g) p b rs rs' := by
  obtain ⟨⟨r, hr⟩, ⟨r', hr'⟩⟩ := hbegins
  refine .look (fun _ => ?_) ?_ hf
  · rw [hr]
    exact hx _ _
  · rw [hr']
    exact hx _ _

/-- A part of the patch is read first, and then the other. -/
theorem bind_at (hx : Twins x y p a (q.given ++ rs) (q.mended ++ rs'))
    (hf : Twins (f a) (g a) q b rs rs')
    (ho : ∀ reports a' s', x ⟨p.given ++ (q.given ++ rs), reports⟩ = .ok a' s' →
      OrderlyAt (f a') s') :
    Twins (x >>= f) (y >>= g) (p ++ q) b rs rs' := by
  intro reports
  rw [Patch.given_append, Patch.mended_append, Patch.reports_append, List.append_assoc,
    List.append_assoc, ← List.append_assoc reports]
  rcases hx reports with ⟨h, h'⟩ | h
  · rw [bind_of_ok h, bind_of_ok h']
    exact hf _
  · exact Or.inr (h.bind (ho reports))

theorem bind (hx : Twins x y p a (q.given ++ rs) (q.mended ++ rs'))
    (hf : Twins (f a) (g a) q b rs rs') (ho : ∀ a, Orderly (f a)) :
    Twins (x >>= f) (y >>= g) (p ++ q) b rs rs' :=
  hx.bind_at hf fun _ a' _ _ => ho a' _

/-- What comes last reads nothing more. -/
theorem bind_done (hx : Twins x y p a rs rs') (hf : Twins (f a) (g a) .nothing b rs rs')
    (ho : ∀ a, Orderly (f a)) : Twins (x >>= f) (y >>= g) p b rs rs' := by
  rw [← p.append_nothing]
  exact hx.bind hf ho

theorem expect (expected : Expectation) (hk : t.kind = expected.kind) :
    Twins (do let _ ← Grammar.expect n expected; return a)
      (do let _ ← Grammar.expect n expected; return a) (.kept t) a rs rs' :=
  .last fun _ _ => bind_of_ok (expect_of_ahead rfl hk)

/-- A token that is expected comes last. -/
theorem bind_expect {f : α → β} (expected : Expectation) (hk : t.kind = expected.kind)
    (h : Twins x y p a (t :: rs) (t :: rs')) :
    Twins (do let a ← x; let _ ← Grammar.expect n expected; return f a)
      (do let a ← y; let _ ← Grammar.expect n expected; return f a) (p ++ .kept t) (f a) rs rs' :=
  .bind h (.expect expected hk) fun a => (orderly_expect expected).bind fun _ => orderly_pure (f a)

theorem map (f : α → β) (h : Twins x y p a rs rs') : Twins (f <$> x) (f <$> y) p (f a) rs rs' :=
  h.bind_done .done fun _ => orderly_pure _

theorem recover {x y : Rule Stmt} {stmt : Stmt} (ho : Orderly x) (hend : ∃ t ∈ rs, t.kind = .eof)
    (h : Twins x y p stmt rs rs') : Twins (recover n x) (recover n y) p (some stmt) rs rs' := by
  intro reports
  rcases h reports with ⟨h, h'⟩ | h
  · exact Or.inl ⟨recover_of_ok h, recover_of_ok h'⟩
  · obtain ⟨t, ht, hk⟩ := hend
    exact Or.inr (h.recover ho ⟨t, List.mem_append_right _ ht, hk⟩)

end Twins

/-! ## Expressions -/

/-- The patch is an expression of the tier whatever is behind it: given and mended, it is read to
this tree.  A lone name is read from a lone name only. -/
structure MendedExpr (tier : Tier) (p : Patch) (e : Expr) : Prop where
  starts : ∃ t, p.Begins t ∧ t.kind.startsExpression = true ∧
    (tier = .primary → t.kind ∉ [Kind.bang, .minus])
  reference : ∀ name, e = .reference name → ∃ t, p.given = [t] ∧ t.kind = .identifier
  reads : ∀ {rs rs'}, tier.Stops rs → tier.Stops rs' → ∀ n,
    Twins (readTier n tier) (readTier n tier) p e rs rs'

namespace MendedExpr

theorem literal {t : Token} {v : Value} (hv : t.value? = some v) :
    MendedExpr .primary (.kept t) (.literal v) where
  starts := by
    have hphrase : Phrase .primary [t] (.literal v) [] := .literal hv
    obtain ⟨_, _, ht, hstarts⟩ := hphrase.starts
    obtain ⟨_, _, ht', hprimary⟩ := hphrase.primary_starts rfl
    obtain ⟨rfl, -⟩ := List.cons.inj ht
    obtain ⟨rfl, -⟩ := List.cons.inj ht'
    exact ⟨t, ⟨⟨_, rfl⟩, ⟨_, rfl⟩⟩, hstarts, fun _ => hprimary⟩
  reference name h := by cases h
  reads _ _ n := by
    cases n with
    | zero => exact .stop
    | succ n => exact .last fun _ _ => readTier_literal rfl hv

theorem name {t : Token} (hname : t.kind = .identifier) :
    MendedExpr .primary (.kept t) (.reference t) where
  starts := ⟨t, ⟨⟨_, rfl⟩, ⟨_, rfl⟩⟩, by rw [hname]; rfl, fun _ => by rw [hname]; decide⟩
  reference _ _ := ⟨t, rfl, hname⟩
  reads _ _ n := by
    cases n with
    | zero => exact .stop
    | succ n => exact .last fun _ _ => readTier_reference rfl hname

theorem grouping {l r : Token} (hl : l.kind = .leftParen) (hr : r.kind = .rightParen)
    (h : MendedExpr .expression p e) :
    MendedExpr .primary (.kept l ++ (p ++ .kept r)) (.grouping e) where
  starts := ⟨l, Patch.begins_kept _, by rw [hl]; rfl, fun _ => by rw [hl]; decide⟩
  reference name h := by cases h
  reads _ _ n := by
    cases n with
    | zero => exact .stop
    | succ n =>
      have hstops : ∀ {r' : List Token}, Tier.expression.Stops (r :: r') :=
        .of_tier?_eq_none (by rw [hr]; rfl)
      have hread : ∀ r' reports, readTier (n + 1) .primary ⟨l :: r', reports⟩ = _ :=
        fun _ _ => readTier_grouping rfl hl
      exact .after hread hread (.bind_expect .endOfGroup hr (h.reads hstops hstops n))

theorem unary {operator : Token} (mem : operator.kind ∈ [Kind.bang, .minus])
    (h : MendedExpr .unary p e) :
    MendedExpr .unary (.kept operator ++ p) (.unary operator e) where
  starts := by
    refine ⟨operator, Patch.begins_kept _, ?_, by simp⟩
    simp only [List.mem_cons, List.not_mem_nil, or_false] at mem
    rcases mem with hk | hk <;> rw [hk] <;> rfl
  reference name h := by cases h
  reads hrs hrs' n := by
    cases n with
    | zero => exact .stop
    | succ n =>
      have heof : operator.kind ≠ .eof := by
        intro hk
        rw [hk] at mem
        exact absurd mem (by decide)
      unfold readTier
      refine .take (fun _ _ => accept_of_mem rfl heof mem) ?_
      exact .bind_done (h.reads hrs hrs' n) .done fun _ => orderly_pure _

/-- Before an operand there is no operator. -/
theorem unary_of_primary (h : MendedExpr .primary p e) : MendedExpr .unary p e where
  starts := by
    obtain ⟨t, hbegins, hstarts, -⟩ := h.starts
    exact ⟨t, hbegins, hstarts, by simp⟩
  reference := h.reference
  reads hrs hrs' n := by
    cases n with
    | zero => exact .stop
    | succ n =>
      obtain ⟨t, hbegins, -, hprimary⟩ := h.starts
      unfold readTier
      refine .look_at hbegins (fun _ _ => accept_of_not_mem rfl (hprimary rfl)) ?_
      exact h.reads hrs.next hrs'.next n

end MendedExpr

/-! ## Operands with operators between them -/

/-- An operator and the operand behind it. -/
structure Joint where
  operator : Token
  patch : Patch
  operand : Expr

/-- What is read for an operator and its operand. -/
def Joint.whole (j : Joint) : Patch := .kept j.operator ++ j.patch

/-- The operand stands at the tier, and the operator joins there. -/
structure Joint.At (tier : Tier) (j : Joint) : Prop where
  operator : j.operator.kind ∈ tier.operators
  operand : MendedExpr tier.next j.patch j.operand

/-- Operands joined from the left. -/
def Tier.joined (tier : Tier) (first : Expr) (js : List Joint) : Expr :=
  js.foldl (fun left j => tier.join left j.operator j.operand) first

/-- What follows an operand is an operator of the tier, or what follows all of them. -/
theorem Tier.Stops.next_of_joints {js : List Joint} (hjs : ∀ j ∈ js, j.At tier)
    (h : tier.Stops rs) :
    tier.next.Stops ((Patch.join (js.map Joint.whole)).given ++ rs) ∧
      tier.next.Stops ((Patch.join (js.map Joint.whole)).mended ++ rs) := by
  cases js with
  | nil => exact ⟨h.next, h.next⟩
  | cons j js =>
    have hop := (hjs j List.mem_cons_self).operator
    exact ⟨.of_operator hop, .of_operator hop⟩

/-- Operators with operands behind them are joined from the left. -/
theorem twins_chain {js : List Joint} (hjs : ∀ j ∈ js, j.At tier) (hrs : tier.Stops rs)
    (hrs' : tier.Stops rs') {bound bound' : List Token} (first : Expr)
    (hb : ((Patch.join (js.map Joint.whole)).given ++ rs).length ≤ bound.length)
    (hb' : ((Patch.join (js.map Joint.whole)).mended ++ rs').length ≤ bound'.length) :
    Twins (chain tier.operators tier.join (readTier n tier.next) bound first)
      (chain tier.operators tier.join (readTier n tier.next) bound' first)
      (.join (js.map Joint.whole)) (tier.joined first js) rs rs' := by
  induction js generalizing first bound bound' with
  | nil =>
    obtain ⟨t, r, rfl, ht⟩ := hrs
    obtain ⟨t', r', rfl, ht'⟩ := hrs'
    cases bound with
    | nil => exact absurd hb (Nat.not_succ_le_zero _)
    | cons _ bound =>
      cases bound' with
      | nil => exact absurd hb' (Nat.not_succ_le_zero _)
      | cons _ bound' =>
        unfold chain
        refine .look (a := none) (fun _ => ?_) ?_ .done
        · exact accept_of_not_mem rfl (Tier.Stops.not_mem_operators ⟨t, r, rfl, ht⟩)
        · exact accept_of_not_mem rfl (Tier.Stops.not_mem_operators ⟨t', r', rfl, ht'⟩)
  | cons j js ih =>
    obtain ⟨hop, hoperand⟩ := hjs j List.mem_cons_self
    have hjs := fun i hi => hjs i (List.mem_cons_of_mem _ hi)
    have heof : j.operator.kind ≠ .eof := by
      intro hk
      have htier := Kind.tier?_of_mem_operators hop
      rw [hk] at htier
      cases htier
    simp only [List.map_cons, Patch.join_cons, Joint.whole, Patch.append_assoc] at hb hb' ⊢
    cases bound with
    | nil => exact absurd hb (Nat.not_succ_le_zero _)
    | cons _ bound =>
      cases bound' with
      | nil => exact absurd hb' (Nat.not_succ_le_zero _)
      | cons _ bound' =>
        simp only [Patch.given_append, Patch.mended_append, Patch.given_kept, Patch.mended_kept,
          List.length_append, List.length_cons, List.length_nil] at hb hb'
        unfold chain
        refine .take (fun _ _ => accept_of_mem rfl heof hop) ?_
        refine .bind_at (hoperand.reads (hrs.next_of_joints hjs).1 (hrs'.next_of_joints hjs).2 n)
          (ih hjs _ ?_ ?_) fun reports a s' h => ?_
        · rw [List.length_append]; omega
        · rw [List.length_append]; omega
        · have hle := ((orderly_readTier n _ _).ok h).length_le
          simp only [List.length_append] at hle
          exact orderlyAt_chain (orderly_readTier n _) _ _ _ (by omega)

/-- Joined operands are no lone name, unless there is but one. -/
theorem Tier.joined_eq_reference {first : Expr} {js : List Joint} {name : Token}
    (h : tier.joined first js = .reference name) : js = [] := by
  rcases List.eq_nil_or_concat js with rfl | ⟨js, j, rfl⟩
  · rfl
  · unfold Tier.joined at h
    rw [List.concat_eq_append, List.foldl_append] at h
    cases tier <;> cases h

namespace MendedExpr

theorem joined (h : MendedExpr tier.next p e) (hop : tier.operators ≠ []) {js : List Joint}
    (hjs : ∀ j ∈ js, j.At tier) :
    MendedExpr tier (p ++ .join (js.map Joint.whole)) (tier.joined e js) where
  starts := by
    obtain ⟨t, hbegins, hstarts, -⟩ := h.starts
    refine ⟨t, hbegins.append _, hstarts, ?_⟩
    rintro rfl
    exact absurd rfl hop
  reference name hname := by
    obtain rfl := Tier.joined_eq_reference hname
    obtain ⟨t, ht, hk⟩ := h.reference name hname
    exact ⟨t, by simp [ht], hk⟩
  reads {rs rs'} hrs hrs' n := by
    cases n with
    | zero => exact .stop
    | succ n =>
      have hchain := twins_chain (n := n) hjs hrs hrs' e (Nat.le_refl _) (Nat.le_refl _)
      have hfirst := h.reads (hrs.next_of_joints hjs).1 (hrs'.next_of_joints hjs).2 n
      rw [readTier_of_operators hop]
      refine .bind hfirst (.congr (fun _ => rfl) rfl hchain) ?_
      exact orderly_chain_ahead (orderly_readTier n _)

/-- A tier reads an operand of the next one. -/
theorem tighter (h : MendedExpr tier.next p e) (hop : tier.operators ≠ []) :
    MendedExpr tier p e := by
  have hj := h.joined hop fun _ hj => absurd hj List.not_mem_nil
  rwa [List.map_nil, Patch.join_nil, Patch.append_nothing] at hj

/-- A name is read at any tier that takes no assignments. -/
theorem name_or {t : Token} (hname : t.kind = .identifier) :
    MendedExpr .or (.kept t) (.reference t) := by
  have hunary : MendedExpr .unary (.kept t) (.reference t) := (name hname).unary_of_primary
  have hfactor : MendedExpr .factor (.kept t) (.reference t) := tighter hunary (by decide)
  have hterm : MendedExpr .term (.kept t) (.reference t) := tighter hfactor (by decide)
  have hcomparison : MendedExpr .comparison (.kept t) (.reference t) := tighter hterm (by decide)
  have hequality : MendedExpr .equality (.kept t) (.reference t) :=
    tighter hcomparison (by decide)
  have hand : MendedExpr .and (.kept t) (.reference t) := tighter hequality (by decide)
  exact tighter hand (by decide)

/-! ## Assignments -/

theorem plain (h : MendedExpr .or p e) : MendedExpr .assignment p e where
  starts := by
    obtain ⟨t, hbegins, hstarts, -⟩ := h.starts
    exact ⟨t, hbegins, hstarts, by simp⟩
  reference := h.reference
  reads {rs rs'} hrs hrs' n := by
    cases n with
    | zero => exact .stop
    | succ n =>
      unfold readTier
      refine .bind_done (h.reads hrs.next hrs'.next n) ?_ (orderly_assigned (orderly_readTier n _))
      obtain ⟨t, r, rfl, ht⟩ := hrs
      obtain ⟨t', r', rfl, ht'⟩ := hrs'
      refine .look (a := none) (fun _ => ?_) ?_ .done
      · exact accept_of_ne (Tier.Stops.ne_equal ⟨t, r, rfl, ht⟩)
      · exact accept_of_ne (Tier.Stops.ne_equal ⟨t', r', rfl, ht'⟩)

theorem or_stops_equal {equal : Token} (hequal : equal.kind = .equal) (ts : List Token) :
    Tier.or.Stops (equal :: ts) := by
  refine ⟨equal, ts, rfl, fun other ho => ?_⟩
  rw [hequal] at ho
  obtain rfl := Option.some.inj ho
  decide

theorem assign {name equal : Token} (hname : name.kind = .identifier)
    (hequal : equal.kind = .equal) (h : MendedExpr .assignment p e) :
    MendedExpr .assignment (.kept name ++ (.kept equal ++ p)) (.assign name e) where
  starts := ⟨name, Patch.begins_kept _, by rw [hname]; rfl, by simp⟩
  reference _ h := by cases h
  reads hrs hrs' n := by
    cases n with
    | zero => exact .stop
    | succ n =>
      have hor := or_stops_equal hequal
      unfold readTier
      refine .bind ((name_or hname).reads (hor _) (hor _) n) ?_
        (orderly_assigned (orderly_readTier n _))
      refine .take (fun _ _ => accept_of_kind hequal (by decide)) ?_
      exact .bind_done (h.reads hrs hrs' n) .done fun _ => orderly_pure _

/-- The `=` behind a bad target is reported after its value is read, and the target stands for the
whole. -/
theorem badTarget {value : Expr} {equal : Token} (h : MendedExpr .or p e)
    (hbad : ∀ t, p.given = [t] → t.kind ≠ .identifier) (hequal : equal.kind = .equal)
    (hvalue : MendedExpr .assignment q value) :
    MendedExpr .assignment (p.dropping equal q) e where
  starts := by
    obtain ⟨t, hbegins, hstarts, -⟩ := h.starts
    exact ⟨t, hbegins.dropping equal q, hstarts, by simp⟩
  reference name hname := by
    obtain ⟨t, ht, hk⟩ := h.reference name hname
    exact absurd hk (hbad t ht)
  reads {rs rs'} hrs hrs' n := by
    cases n with
    | zero => exact .stop
    | succ n =>
      have hgiven : (p.dropping equal q).given ++ rs = p.given ++ equal :: (q.given ++ rs) :=
        List.append_assoc _ _ _
      intro reports
      rw [hgiven, Patch.reports_dropping]
      -- behind the target the given tokens have the `=`, and the mended ones what is behind it all
      rcases h.reads (or_stops_equal hequal (q.given ++ rs)) hrs'.next n reports with
        ⟨htarget, htarget'⟩ | hover
      · have hread : readTier (n + 1) .assignment ⟨p.given ++ equal :: (q.given ++ rs), reports⟩ =
            (do
              let _ ← readTier n .assignment
              report n equal .badTarget
              return e : Rule Expr) ⟨q.given ++ rs, reports ++ p.reports⟩ := by
          rw [readTier, bind_of_ok htarget, bind_of_ok (accept_of_kind hequal (by decide))]
          cases e with
          | reference name =>
            obtain ⟨t, ht, hk⟩ := h.reference name rfl
            exact absurd hk (hbad t ht)
          | _ => rfl
        have hmended : readTier (n + 1) .assignment ⟨p.mended ++ rs', []⟩ = .ok e ⟨rs', []⟩ := by
          obtain ⟨t, r, rfl, ht⟩ := hrs'
          have hne := Tier.Stops.ne_equal ⟨t, r, rfl, ht⟩
          rw [readTier, bind_of_ok htarget', bind_of_ok (accept_of_ne hne)]
          rfl
        rw [hread]
        -- of the value only the given tokens are read, and its own bad targets come first
        rcases hvalue.reads hrs hrs' n (reports ++ p.reports) with ⟨hv, -⟩ | hover
        · refine Or.inl ⟨?_, hmended⟩
          rw [bind_of_ok hv, ← List.append_assoc, ← List.append_assoc]
          exact bind_of_ok (a := ()) (report_eq_ok.2 ⟨ne_zero_of_readTier hv, rfl⟩)
        · refine Or.inr (hover.bind fun _ _ _ => ?_)
          exact (orderly_report equal .badTarget).bind (fun _ => orderly_pure e) _
      · unfold readTier
        exact Or.inr (hover.bind fun _ _ _ => orderly_assigned (orderly_readTier n _) _ _)

theorem expression (h : MendedExpr .assignment p e) : MendedExpr .expression p e where
  starts := by
    obtain ⟨t, hbegins, hstarts, -⟩ := h.starts
    exact ⟨t, hbegins, hstarts, by simp⟩
  reference := h.reference
  reads hrs hrs' n := by
    cases n with
    | zero => exact .stop
    | succ n => exact h.reads hrs.next hrs'.next n

end MendedExpr

end Lox.Grammar
