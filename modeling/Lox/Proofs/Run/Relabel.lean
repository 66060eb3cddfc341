import Lox.Proofs.Grammar.Uniform
import Lox.Proofs.Grammar.WellFormed
import Lox.Proofs.Run.Resolve

/-!
# Runs of relabeled programs

A program runs the same when its tokens are relabeled, in scopes in which the names are replaced
alike (`results_execute`).  Of a token only its name ever comes to matter to a run; its line shows
in a failure and nowhere else.

The machines that run side by side have as many scopes each, with bindings that are related, and one
may have printed something before.
-/

namespace Lox

open Computing Execution Grammar

variable {ρ : Relabeling} {R : Bindings → Bindings → Prop} {k : Nat} {σ σ' α β : Type}

/-! ## Related bindings and scopes -/

/-- Related bindings bind related names to the same values. -/
structure Keeps (text : String → String) (R : Bindings → Bindings → Prop) : Prop where
  empty : R {} {}
  get? : ∀ {b b'}, R b b' → ∀ name, b'.get? (text name) = b.get? name
  define : ∀ {b b'}, R b b' → ∀ name v, R (b.define name v) (b'.define (text name) v)

/-- Equal bindings, with all names kept. -/
theorem keeps_eq : Keeps (fun name => name) Eq where
  empty := rfl
  get? h _ := h ▸ rfl
  define h _ _ := h ▸ rfl

theorem Keeps.binds {text : String → String} (hR : Keeps text R) {b b' : Bindings} (h : R b b')
    (name : String) : b'.binds (text name) = b.binds name := by
  unfold Bindings.binds
  rw [hR.get? h]

namespace Chain

/-- As many scopes, with related bindings one by one. -/
inductive Relates (R : Bindings → Bindings → Prop) : Nat → Chain → Chain → Prop
  | nil : Relates R 0 [] []
  | cons {k b b' outer outer'} (head : R b b') (tail : Relates R k outer outer') :
      Relates R (k + 1) (b :: outer) (b' :: outer')

variable {text : String → String} {c c' : Chain}

theorem Relates.get? (hR : Keeps text R) (h : Relates R k c c') (name : String) :
    c'.get? (text name) = c.get? name := by
  induction h with
  | nil => rfl
  | cons hb _ ih => rw [Chain.get?, Chain.get?, hR.get? hb, ih]

theorem Relates.reach (hR : Keeps text R) (h : Relates R k c c') (name : String) :
    c'.reach (text name) = c.reach name := by
  induction h with
  | nil => rfl
  | cons hb _ ih => rw [Chain.reach, Chain.reach, hR.binds hb, ih]

theorem Relates.define (hR : Keeps text R) (h : Relates R k c c') (name : String) (v : Value) :
    Relates R k (c.define name v) (c'.define (text name) v) := by
  cases h with
  | nil => exact .nil
  | cons hb ho => exact .cons (hR.define hb name v) ho

/-- Assigning finds the name in both or in none. -/
theorem Relates.assign? (hR : Keeps text R) (h : Relates R k c c') (name : String) (v : Value) :
    (c.assign? name v = none ∧ c'.assign? (text name) v = none) ∨
      ∃ d d', c.assign? name v = some d ∧ c'.assign? (text name) v = some d' ∧
        Relates R k d d' := by
  induction h with
  | nil => exact Or.inl ⟨rfl, rfl⟩
  | @cons k b b' outer outer' hb ho ih =>
    unfold Chain.assign?
    rw [hR.binds hb]
    cases b.binds name with
    | true => exact Or.inr ⟨_, _, rfl, rfl, .cons (hR.define hb name v) ho⟩
    | false =>
      rcases ih with ⟨hn, hn'⟩ | ⟨d, d', hd, hd', hr⟩
      · exact Or.inl ⟨by rw [hn]; rfl, by rw [hn']; rfl⟩
      · exact Or.inr ⟨b :: d, b' :: d', by rw [hd]; rfl, by rw [hd']; rfl, .cons hb hr⟩

theorem Relates.tail (h : Relates R (k + 1) c c') : Relates R k c.tail c'.tail := by
  cases h with
  | cons _ ho => exact ho

theorem Relates.eq_singleton (h : Relates Eq 1 c c') : c' = [c.headD {}] := by
  cases h with
  | cons hb ho =>
    cases ho with
    | nil => rw [hb]; rfl

/-- A single scope is the globals. -/
theorem Relates.headD (h : Relates R 1 c c') : R (c.headD {}) (c'.headD {}) := by
  cases h with
  | cons hb _ => exact hb

end Chain

/-! ## Related results -/

/-- Both end well with one value, or halt alike but for the labels, and leave related states. -/
inductive Results (ρ : Relabeling) (S : σ → σ' → Prop) :
    EStateM.Result Halt σ α → EStateM.Result Halt σ' α → Prop
  | ok {a s s'} (h : S s s') : Results ρ S (.ok a s) (.ok a s')
  | error {halt s s'} (h : S s s') : Results ρ S (.error halt s) (.error (halt.relabel ρ) s')

theorem Results.bind {S : σ → σ' → Prop} {x : EStateM Halt σ α} {x' : EStateM Halt σ' α}
    {f : α → EStateM Halt σ β} {f' : α → EStateM Halt σ' β} {s : σ} {s' : σ'}
    (hx : Results ρ S (x s) (x' s')) (hf : ∀ a s s', S s s' → Results ρ S (f a s) (f' a s')) :
    Results ρ S ((x >>= f) s) ((x' >>= f') s') := by
  generalize hr : x s = r at hx
  generalize hr' : x' s' = r' at hx
  cases hx with
  | ok h =>
    rw [bind_of_ok hr, bind_of_ok hr']
    exact hf _ _ _ h
  | error h =>
    rw [bind_of_error hr, bind_of_error hr']
    exact .error h

theorem Results.map {S : σ → σ' → Prop} {x : EStateM Halt σ α} {x' : EStateM Halt σ' α} {s : σ}
    {s' : σ'} (hx : Results ρ S (x s) (x' s')) (g : α → β) :
    Results ρ S ((g <$> x) s) ((g <$> x') s') :=
  hx.bind fun _ _ _ h => .ok h

/-! ## Evaluation -/

namespace Operator

variable (operator : Token) (a b v : Value)

theorem unary_relabel :
    unary (operator.relabel ρ) v = (unary operator v).mapError (Failure.relabel ρ) := by
  unfold unary
  rw [Token.kind_relabel]
  cases operator.kind <;> cases v <;> rfl

theorem numeric_relabel (f : Float → Float → Value) :
    numeric (operator.relabel ρ) f a b = (numeric operator f a b).mapError (Failure.relabel ρ) := by
  cases a <;> cases b <;> rfl

theorem plus_relabel :
    plus (operator.relabel ρ) a b = (plus operator a b).mapError (Failure.relabel ρ) := by
  cases a <;> cases b <;> rfl

theorem binary_relabel :
    binary (operator.relabel ρ) a b = (binary operator a b).mapError (Failure.relabel ρ) := by
  unfold binary
  rw [Token.kind_relabel]
  cases operator.kind with
  | plus => exact plus_relabel operator a b
  | minus | star | slash | greater | greaterEqual | less | lessEqual =>
    exact numeric_relabel operator a b _
  | _ => rfl

end Operator

section Evaluation

variable {c c' : Chain}

theorem results_ofOperator {S : Chain → Chain → Prop} (h : S c c') (result : Except Failure Value) :
    Results ρ S (Evaluation.ofOperator result c)
      (Evaluation.ofOperator (result.mapError (Failure.relabel ρ)) c') := by
  cases result with
  | ok v => exact .ok h
  | error failure => exact .error h

theorem results_read (hR : Keeps ρ.text R) (h : Chain.Relates R k c c') (n : Nat) (name : Token) :
    Results ρ (Chain.Relates R k) (Evaluation.read n name c)
      (Evaluation.read n (name.relabel ρ) c') := by
  unfold Evaluation.read Chain.read
  rw [Token.lexeme_relabel, h.reach hR, h.get? hR]
  by_cases hn : n < c.reach name.lexeme
  · rw [if_pos hn, if_pos hn]
    exact .error h
  · rw [if_neg hn, if_neg hn]
    cases c.get? name.lexeme with
    | some v => exact .ok h
    | none => exact .error h

theorem results_write (hR : Keeps ρ.text R) (h : Chain.Relates R k c c') (n : Nat) (name : Token)
    (v : Value) :
    Results ρ (Chain.Relates R k) (Evaluation.write n name v c)
      (Evaluation.write n (name.relabel ρ) v c') := by
  unfold Evaluation.write Chain.write
  rw [Token.lexeme_relabel, h.reach hR]
  by_cases hn : n < c.reach name.lexeme
  · rw [if_pos hn, if_pos hn]
    exact .error h
  · rw [if_neg hn, if_neg hn]
    rcases h.assign? hR name.lexeme v with ⟨hd, hd'⟩ | ⟨d, d', hd, hd', hr⟩
    · rw [hd, hd']
      exact .error h
    · rw [hd, hd']
      exact .ok hr

/-- A relabeled expression is evaluated alike. -/
theorem Expr.results_evaluate (hR : Keeps ρ.text R) (n : Nat) (e : Expr)
    (h : Chain.Relates R k c c') :
    Results ρ (Chain.Relates R k) (e.evaluate n c) ((e.relabel ρ).evaluate n c') := by
  induction n generalizing e c c' with
  | zero => exact .error h
  | succ n ih =>
    cases e with
    | literal v => exact .ok h
    | grouping e => exact ih e h
    | reference name => exact results_read hR h n name
    | assign name e =>
      exact (ih e h).bind fun v c c' h => (results_write hR h n name v).bind fun _ _ _ h => .ok h
    | unary operator e =>
      refine (ih e h).bind fun v c c' h => ?_
      rw [Operator.unary_relabel]
      exact results_ofOperator h _
    | binary left operator right =>
      refine (ih left h).bind fun a c c' h => (ih right h).bind fun b c c' h => ?_
      rw [Operator.binary_relabel]
      exact results_ofOperator h _
    | logical left operator right =>
      refine (ih left h).bind fun a c c' h => ?_
      have hdecides : decidesLogical (operator.relabel ρ) a = decidesLogical operator a := rfl
      rw [hdecides]
      cases decidesLogical operator a with
      | true => exact .ok h
      | false => exact ih right h
    | misfit node => exact .error h

end Evaluation

/-! ## Execution -/

/-- Scopes that are related, and something printed before. -/
structure Machine.Relates (R : Bindings → Bindings → Prop) (before : List String) (k : Nat)
    (m m' : Machine) : Prop where
  scopes : Chain.Relates R k m.scopes m'.scopes
  printed : m'.printed.toList = before ++ m.printed.toList

section Execution

variable {before : List String} {m m' : Machine} {n rounds : Nat}

theorem results_value (hR : Keeps ρ.text R) (e : Expr) (h : Machine.Relates R before k m m') :
    Results ρ (Machine.Relates R before k) (value n e m) (value n (e.relabel ρ) m') := by
  have he := e.results_evaluate hR n h.scopes
  unfold value
  generalize e.evaluate n m.scopes = r at he
  generalize (e.relabel ρ).evaluate n m'.scopes = r' at he
  cases he with
  | ok hs => exact .ok ⟨hs, h.printed⟩
  | error hs => exact .error ⟨hs, h.printed⟩

theorem results_holds (hR : Keeps ρ.text R) (e : Expr) (h : Machine.Relates R before k m m') :
    Results ρ (Machine.Relates R before k) (holds n e m) (holds n (e.relabel ρ) m') :=
  (results_value hR e h).map Value.isTruthy

theorem results_emit (v : Value) (h : Machine.Relates R before k m m') :
    Results ρ (Machine.Relates R before k) (emit v m) (emit v m') := by
  cases ht : v.text? with
  | some line =>
    rw [emit_of_text ht, emit_of_text ht]
    exact .ok ⟨h.scopes, by simp [h.printed]⟩
  | none =>
    rw [emit_of_no_text ht, emit_of_no_text ht]
    exact .error h

theorem results_define (hR : Keeps ρ.text R) (name : Token) (v : Value)
    (h : Machine.Relates R before k m m') :
    Results ρ (Machine.Relates R before k) (define name.lexeme v m)
      (define (name.relabel ρ).lexeme v m') :=
  .ok ⟨h.scopes.define hR name.lexeme v, h.printed⟩

theorem results_inNewScope (hR : Keeps ρ.text R) {body body' : Execution Unit}
    (hb : ∀ {k m m'}, Machine.Relates R before k m m' →
      Results ρ (Machine.Relates R before k) (body m) (body' m'))
    (h : Machine.Relates R before k m m') :
    Results ρ (Machine.Relates R before k) (inNewScope body m) (inNewScope body' m') := by
  have hinner : Machine.Relates R before (k + 1) { m with scopes := {} :: m.scopes }
      { m' with scopes := {} :: m'.scopes } :=
    ⟨.cons hR.empty h.scopes, h.printed⟩
  have hbody := hb hinner
  unfold inNewScope
  generalize body { m with scopes := {} :: m.scopes } = r at hbody
  generalize body' { m' with scopes := {} :: m'.scopes } = r' at hbody
  cases hbody with
  | ok hs => exact .ok ⟨hs.scopes.tail, hs.printed⟩
  | error hs => exact .error ⟨hs.scopes.tail, hs.printed⟩

theorem results_repeatWhile {condition condition' : Execution Bool} {body body' : Execution Unit}
    (hc : ∀ {m m'}, Machine.Relates R before k m m' →
      Results ρ (Machine.Relates R before k) (condition m) (condition' m'))
    (hb : ∀ {m m'}, Machine.Relates R before k m m' →
      Results ρ (Machine.Relates R before k) (body m) (body' m'))
    (rounds : Nat) (h : Machine.Relates R before k m m') :
    Results ρ (Machine.Relates R before k) (repeatWhile condition body rounds m)
      (repeatWhile condition' body' rounds m') := by
  induction rounds generalizing m m' with
  | zero => exact .error h
  | succ rounds ih =>
    unfold repeatWhile
    refine (hc h).bind fun holds m m' h => ?_
    cases holds with
    | false => exact .ok h
    | true => exact (hb h).bind fun _ m m' h => ih h

theorem results_inOrder {run : Stmt → Execution Unit}
    (hrun : ∀ s m m', Machine.Relates R before k m m' →
      Results ρ (Machine.Relates R before k) (run s m) (run (s.relabel ρ) m'))
    (ss : List Stmt) (h : Machine.Relates R before k m m') :
    Results ρ (Machine.Relates R before k) (inOrder run ss m)
      (inOrder run (ss.map (Stmt.relabel ρ)) m') := by
  induction ss generalizing m m' with
  | nil => exact .ok h
  | cons s ss ih => exact (hrun s m m' h).bind fun _ m m' h => ih h

/-- A relabeled statement is executed alike. -/
theorem Stmt.results_execute (hR : Keeps ρ.text R) (n : Nat) (s : Stmt)
    (h : Machine.Relates R before k m m') :
    Results ρ (Machine.Relates R before k) (s.execute rounds n m)
      ((s.relabel ρ).execute rounds n m') := by
  -- On the levels, not on the tree: a block takes two of them at once.
  induction n using Nat.strongRecOn generalizing s k m m' with
  | ind n ih =>
    match n, s with
    | 0, _ => exact .error h
    | n + 1, .expression e => exact (results_value hR e h).map _
    | n + 1, .print e => exact (results_value hR e h).bind fun v _ _ h => results_emit v h
    | n + 1, .declare name none => exact results_define hR name .nil h
    | n + 1, .declare name (some e) =>
      exact (results_value hR e h).bind fun v _ _ h => results_define hR name v h
    | 1, .block _ => exact .error h
    | n + 2, .block body =>
      rw [Stmt.relabel_block]
      exact results_inNewScope hR
        (fun h => results_inOrder (fun s _ _ h => ih n (by omega) s h) body h) h
    | n + 1, .ifThen condition thenBranch =>
      refine (results_holds hR condition h).bind fun holds m m' h => ?_
      cases holds with
      | false => exact .ok h
      | true => exact ih n (by omega) thenBranch h
    | n + 1, .ifElse condition thenBranch elseBranch =>
      refine (results_holds hR condition h).bind fun holds m m' h => ?_
      cases holds with
      | false => exact ih n (by omega) elseBranch h
      | true => exact ih n (by omega) thenBranch h
    | n + 1, .loop condition body =>
      exact results_repeatWhile (fun h => results_holds hR condition h)
        (fun h => ih n (by omega) body h) rounds h
    | n + 1, .misfit node => exact .error h

/-- A relabeled program is executed alike. -/
theorem results_execute (hR : Keeps ρ.text R) (rounds : Nat) (program : List Stmt)
    (h : Machine.Relates R before k m m') :
    Results ρ (Machine.Relates R before k) (execute rounds program m)
      (execute rounds (program.map (Stmt.relabel ρ)) m') :=
  results_inOrder (fun s _ _ h => Stmt.results_execute hR nestingLimit s h) program h

end Execution

/-! ## Outcomes -/

/-- The same is printed, the same is reported but for the labels, and the globals are related. -/
structure Outcome.Relates (ρ : Relabeling) (R : Bindings → Bindings → Prop) (before : List String)
    (out out' : Outcome) : Prop where
  printed : out'.printed = before ++ out.printed
  reports : out'.reports = out.reports.map (Report.relabel ρ)
  halt? : out'.halt? = out.halt?
  globals : R out.session.globals out'.session.globals

namespace Session

variable {before : List String} {s s' : Session}

theorem relates_conclude {r r' : EStateM.Result Halt Machine Unit} (s s' : Session)
    (h : Results ρ (Machine.Relates R before 1) r r') :
    Outcome.Relates ρ R before (s.conclude r) (s'.conclude r') := by
  cases h with
  | ok hm => exact ⟨hm.printed, rfl, rfl, hm.scopes.headD⟩
  | @error halt m m' hm =>
    cases halt <;> exact ⟨hm.printed, rfl, rfl, hm.scopes.headD⟩

/-- A text that scans without a report is read as its tokens are. -/
theorem parse_tokens_scan {c : String} (h : (scan c).reports = []) :
    parse (scan c).tokens = ⟨some (read c).program, (read c).reports⟩ := by
  obtain ⟨program, hprogram, -⟩ := exists_parse_scan c
  have hread : (read c).program = program := congrArg (·.getD []) hprogram
  have hreports : (read c).reports = (parse (scan c).tokens).reports := by
    show (scan c).reports ++ _ = _
    rw [h, List.nil_append]
  rw [hread, hreports, ← hprogram]

/-- Without a fault in the log the program runs. -/
theorem runReading_of_not_hadFault {rounds : Nat} {r : Reading}
    (h : (s.report r.reports).log.hadFault = false) :
    s.runReading rounds r = { (s.report r.reports).perform rounds r.program with
      reports := r.reports ++ ((s.report r.reports).perform rounds r.program).reports } := by
  simp [runReading, h]

/-- A text that is read as a relabeled program runs alike in related globals. -/
theorem relates_runReading (hR : Keeps ρ.text R) (rounds : Nat) {r r' : Reading}
    (hprogram : r'.program = r.program.map (Stmt.relabel ρ))
    (hreports : r'.reports = r.reports.map (Report.relabel ρ))
    (hfault : s'.log.hadFault = s.log.hadFault) (hglobals : R s.globals s'.globals) :
    Outcome.Relates ρ R [] (s.runReading rounds r) (s'.runReading rounds r') := by
  have hany : r'.reports.any Report.isFault = r.reports.any Report.isFault := by
    rw [hreports, List.any_map]
    congr 1
    funext report
    exact Report.isFault_relabel ρ report
  have hlog : (s'.report r'.reports).log.hadFault = (s.report r.reports).log.hadFault := by
    show (_ || _) = (_ || _)
    rw [hfault, hany]
  cases hf : (s.report r.reports).log.hadFault with
  | true =>
    rw [runReading_of_hadFault hf, runReading_of_hadFault (hlog.trans hf)]
    exact ⟨rfl, hreports, rfl, hglobals⟩
  | false =>
    rw [runReading_of_not_hadFault hf, runReading_of_not_hadFault (hlog.trans hf)]
    have hmachine : Machine.Relates R [] 1 { scopes := [s.globals] } { scopes := [s'.globals] } :=
      ⟨.cons hglobals .nil, rfl⟩
    have hout := relates_conclude (s.report r.reports) (s'.report r'.reports)
      (results_execute hR rounds r.program hmachine)
    rw [← hprogram] at hout
    refine ⟨hout.printed, ?_, hout.halt?, hout.globals⟩
    rw [List.map_append, ← hreports]
    exact congrArg (r'.reports ++ ·) hout.reports

end Session

end Lox
