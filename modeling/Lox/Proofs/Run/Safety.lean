import Lox.Proofs.Grammar.WellFormed
import Lox.Proofs.Run.Rounds
import Lox.Proofs.Run.Trace

/-!
# Well-formed programs cannot go wrong

A well-formed program that starts with plain values in its globals keeps to plain values: nothing
else is ever bound, assigned or printed.  It runs to its end, or forever, or it halts for one of five
reasons: an operand of the wrong kind (three of them), a variable that is not defined, or nesting too
deep (`safe_of_source`).  A misfit or an unknown operator is never met.
-/

namespace Lox

open Computing Execution

variable {σ α β : Type} {P : α → Prop} {Q : β → Prop}

/-! ## Plain values -/

/-- All values bound here are plain. -/
def Bindings.Plain (b : Bindings) : Prop := ∀ name v, b.get? name = some v → v.Plain

theorem Bindings.plain_empty : Bindings.Plain {} := by simp [Plain]

theorem Bindings.Plain.define {b : Bindings} (h : b.Plain) (name : String) {v : Value}
    (hv : v.Plain) : (b.define name v).Plain := by
  intro other u hu
  rw [get?_define] at hu
  split at hu
  · obtain rfl := Option.some.inj hu
    exact hv
  · exact h other u hu

namespace Chain

/-- All values bound in one of the scopes are plain. -/
def Plain (c : Chain) : Prop := ∀ b ∈ c, b.Plain

variable {c : Chain}

theorem plain_nil : Plain [] := fun _ h => absurd h List.not_mem_nil

theorem Plain.cons {b : Bindings} (hb : b.Plain) (h : Plain c) : Plain (b :: c) := by
  intro b' hb'
  rcases List.mem_cons.1 hb' with rfl | hb'
  · exact hb
  · exact h b' hb'

theorem Plain.tail (h : Plain c) : Plain c.tail := fun b hb => h b (List.mem_of_mem_tail hb)

theorem Plain.get? (h : Plain c) {name : String} {v : Value} (hv : c.get? name = some v) :
    v.Plain := by
  induction c with
  | nil => cases hv
  | cons b outer ih =>
    unfold Chain.get? at hv
    split at hv
    next u hu =>
      obtain rfl := Option.some.inj hv
      exact h b List.mem_cons_self name _ hu
    next => exact ih (fun b hb => h b (List.mem_cons_of_mem _ hb)) hv

theorem Plain.define (h : Plain c) (name : String) {v : Value} (hv : v.Plain) :
    Plain (c.define name v) := by
  cases c with
  | nil => exact h
  | cons b outer =>
    exact .cons ((h b List.mem_cons_self).define name hv) fun b hb => h b (List.mem_cons_of_mem _ hb)

theorem Plain.assign? (h : Plain c) {name : String} {v : Value} (hv : v.Plain) {c' : Chain}
    (hc : c.assign? name v = some c') : Plain c' := by
  induction c generalizing c' with
  | nil => cases hc
  | cons b outer ih =>
    have houter : Plain outer := fun b hb => h b (List.mem_cons_of_mem _ hb)
    unfold Chain.assign? at hc
    split at hc
    · obtain rfl := Option.some.inj hc
      exact .cons ((h b List.mem_cons_self).define name hv) houter
    · obtain ⟨outer', ho, rfl⟩ := Option.map_eq_some_iff.1 hc
      exact .cons (h b List.mem_cons_self) (ih houter ho)

end Chain

/-- What the event binds, assigns or prints is plain. -/
def Event.Plain : Event → Prop
  | assign _ _ v _ | define _ v | emit v => v.Plain
  | _ => True

/-! ## Expected failures -/

/-- A failure that a well-formed program can have. -/
def Failure.Expected : Failure → Prop
  | undefined _ | operand _ | operands _ | mixedOperands _ | tooDeep => True
  | _ => False

/-- A halt that a well-formed program can come to, within a number of rounds. -/
def Halt.Expected : Halt → Prop
  | failure f => f.Expected
  | tooDeep | unfinished => True
  | _ => False

/-! ## Safe computations -/

/-- From states of this kind the computation leads to such states only, with a value that has the
property or an expected halt, and with plain values in its trace. -/
structure Safe (keeps : σ → Prop) (x : EStateM Halt σ α) (trace : σ → List Event)
    (P : α → Prop) : Prop where
  state : ∀ s, keeps s → keeps (endState (x s))
  value : ∀ s, keeps s → ∀ a s', x s = .ok a s' → P a
  halt : ∀ s, keeps s → ∀ halt s', x s = .error halt s' → halt.Expected
  events : ∀ s, keeps s → ∀ event ∈ trace s, event.Plain

namespace Safe

variable {keeps : σ → Prop} {x : EStateM Halt σ α} {f : α → EStateM Halt σ β}
  {trace : σ → List Event} {next : α → σ → List Event}

theorem pure {a : α} (h : P a) : Safe keeps (pure a) (fun _ => []) P where
  state _ hs := hs
  value _ _ a' s' hr := by
    obtain ⟨rfl, -⟩ := pure_eq_ok.1 hr
    exact h
  halt _ _ _ _ hr := absurd hr pure_ne_error
  events _ _ _ h := absurd h List.not_mem_nil

theorem throw {halt : Halt} (h : halt.Expected) :
    Safe keeps (throw halt : EStateM Halt σ α) (fun _ => []) P where
  state _ hs := hs
  value _ _ _ _ hr := absurd hr throw_ne_ok
  halt _ _ halt' s' hr := by
    obtain ⟨rfl, -⟩ := throw_eq_error.1 hr
    exact h
  events _ _ _ h := absurd h List.not_mem_nil

theorem bind (hx : Safe keeps x trace P) (hf : ∀ a, P a → Safe keeps (f a) (next a) Q) :
    Safe keeps (x >>= f) (fun s => followed (trace s) (x s) next) Q where
  state s hs := by
    cases hr : x s with
    | ok a s' =>
      have hs' := hx.state s hs
      rw [hr] at hs'
      rw [bind_of_ok hr]
      exact (hf a (hx.value s hs a s' hr)).state s' hs'
    | error halt s' =>
      have hs' := hx.state s hs
      rw [hr] at hs'
      rw [bind_of_error hr]
      exact hs'
  value s hs b s'' hr := by
    obtain ⟨a, s', ha, hb⟩ := bind_eq_ok.1 hr
    have hs' := hx.state s hs
    rw [ha] at hs'
    exact (hf a (hx.value s hs a s' ha)).value s' hs' b s'' hb
  halt s hs halt s'' hr := by
    rcases bind_eq_error.1 hr with ha | ⟨a, s', ha, hb⟩
    · exact hx.halt s hs halt s'' ha
    · have hs' := hx.state s hs
      rw [ha] at hs'
      exact (hf a (hx.value s hs a s' ha)).halt s' hs' halt s'' hb
  events s hs := by
    refine forall_mem_followed (hx.events s hs) fun a s' ha => ?_
    have hs' := hx.state s hs
    rw [ha] at hs'
    exact (hf a (hx.value s hs a s' ha)).events s' hs'

/-- A step without events leaves the trace as it is. -/
theorem bind_quiet (hx : Safe keeps x trace P)
    (hf : ∀ a, P a → Safe keeps (f a) (fun _ => []) Q) : Safe keeps (x >>= f) trace Q := by
  have h := hx.bind hf
  simp only [followed_nil] at h
  exact h

end Safe

/-! ## Expressions -/

variable {n : Nat} {name operator : Token} {v : Value} {c : Chain}

namespace Operator

/-- An operator has given a plain value, or an expected failure. -/
def SafeResult : Except Failure Value → Prop
  | .ok v => v.Plain
  | .error f => f.Expected

theorem safeResult_unary (hk : operator.kind ∈ [Kind.bang, .minus]) (v : Value) :
    SafeResult (unary operator v) := by
  unfold unary
  rcases List.mem_cons.1 hk with hk | hk
  · rw [hk]
    exact trivial
  · rw [List.mem_singleton.1 hk]
    cases v <;> exact trivial

theorem safeResult_numeric {f : Float → Float → Value} (hf : ∀ x y, (f x y).Plain)
    (a b : Value) : SafeResult (numeric operator f a b) := by
  unfold numeric
  split
  · exact hf _ _
  · exact trivial

theorem safeResult_plus (a b : Value) : SafeResult (plus operator a b) := by
  unfold plus
  split <;> exact trivial

theorem safeResult_binary (hk : operator.kind ∈ Kind.binaryOperators) (a b : Value) :
    SafeResult (binary operator a b) := by
  unfold binary
  split
  · exact safeResult_plus a b
  iterate 7
    refine safeResult_numeric (fun x y => ?_) a b
    exact trivial
  · exact trivial
  · exact trivial
  next => simp_all [Kind.binaryOperators]

end Operator

theorem safe_ofOperator {keeps : Chain → Prop} {result : Except Failure Value}
    (h : Operator.SafeResult result) :
    Safe keeps (Evaluation.ofOperator result) (fun _ => []) Value.Plain := by
  cases result with
  | ok v => exact .pure h
  | error f => exact .throw h

theorem safe_read (n : Nat) (context : Context) (name : Token) :
    Safe Chain.Plain (Evaluation.read n name)
      (fun c => if n < c.reach name.lexeme then [] else [.read context name c]) Value.Plain := by
  constructor
  · intro c hc
    rwa [endState_read]
  · intro c hc v c' hr
    rw [Evaluation.read_apply] at hr
    split at hr
    · cases hr
    split at hr
    next u hu =>
      obtain ⟨rfl, -⟩ := EStateM.Result.ok.inj hr
      exact hc.get? hu
    next => cases hr
  · intro c hc halt c' hr
    rw [Evaluation.read_apply] at hr
    split at hr
    · obtain ⟨rfl, -⟩ := EStateM.Result.error.inj hr
      exact trivial
    split at hr
    next => cases hr
    next =>
      obtain ⟨rfl, -⟩ := EStateM.Result.error.inj hr
      exact trivial
  · intro c hc event he
    split at he
    · exact absurd he List.not_mem_nil
    · rw [List.mem_singleton.1 he]
      exact trivial

theorem safe_write (n : Nat) (context : Context) (name : Token) (hv : v.Plain) :
    Safe Chain.Plain (Evaluation.write n name v)
      (fun c => if n < c.reach name.lexeme then [] else [.assign context name v c])
      fun _ => True := by
  constructor
  · intro c hc
    rw [endState_write]
    split
    · exact hc
    cases ha : c.assign? name.lexeme v with
    | none => exact hc
    | some c' => exact hc.assign? hv ha
  · exact fun _ _ _ _ _ => trivial
  · intro c hc halt c' hr
    rw [Evaluation.write_apply] at hr
    split at hr
    · obtain ⟨rfl, -⟩ := EStateM.Result.error.inj hr
      exact trivial
    split at hr
    next => cases hr
    next =>
      obtain ⟨rfl, -⟩ := EStateM.Result.error.inj hr
      exact trivial
  · intro c hc event he
    split at he
    · exact absurd he List.not_mem_nil
    · rw [List.mem_singleton.1 he]
      exact hv

/-- A well-formed expression evaluates to a plain value, or to an expected halt. -/
theorem Expr.WellFormed.safe {e : Expr} (h : e.WellFormed) (context : Context) (n : Nat) :
    Safe Chain.Plain (e.evaluate n) (e.trace context n) Value.Plain := by
  induction n generalizing e with
  | zero => exact .throw trivial
  | succ n ih =>
    cases e with
    | literal v => exact .pure h
    | grouping e => exact ih h
    | reference name => exact safe_read n context name
    | assign name e =>
      exact (ih h.2).bind fun v hv => (safe_write n context name hv).bind_quiet fun _ _ => .pure hv
    | unary operator e =>
      exact (ih h.2).bind_quiet fun v _ => safe_ofOperator (Operator.safeResult_unary h.1 v)
    | binary a operator b =>
      exact (ih h.2.1).bind fun u _ => (ih h.2.2).bind_quiet fun v _ =>
        safe_ofOperator (Operator.safeResult_binary h.1 u v)
    | logical a operator b =>
      refine (ih h.2.1).bind fun u hu => ?_
      by_cases hd : decidesLogical operator u = true
      · simp only [hd, if_true]
        exact .pure hu
      · simp only [hd]
        exact ih h.2.2
    | misfit node => exact h.elim

/-! ## Statements -/

/-- The scopes of the machine bind plain values only. -/
def Machine.Plain (m : Machine) : Prop := m.scopes.Plain

namespace Execution

variable {rounds : Nat} {e : Expr} {context : Context}

theorem safe_value (h : e.WellFormed) (context : Context) (n : Nat) :
    Safe Machine.Plain (value n e) (fun m => e.trace context n m.scopes) Value.Plain := by
  have hs := h.safe context n
  constructor
  · intro m hm
    rw [endState_value]
    exact hs.state m.scopes hm
  · intro m hm v m' hr
    unfold value at hr
    cases he : e.evaluate n m.scopes with
    | ok u c =>
      rw [he] at hr
      obtain ⟨rfl, -⟩ := EStateM.Result.ok.inj hr
      exact hs.value m.scopes hm u c he
    | error halt c =>
      rw [he] at hr
      cases hr
  · intro m hm halt m' hr
    unfold value at hr
    cases he : e.evaluate n m.scopes with
    | ok u c =>
      rw [he] at hr
      cases hr
    | error halt' c =>
      rw [he] at hr
      obtain ⟨rfl, -⟩ := EStateM.Result.error.inj hr
      exact hs.halt m.scopes hm _ c he
  · exact fun m hm => hs.events m.scopes hm

theorem safe_holds (h : e.WellFormed) (context : Context) (n : Nat) :
    Safe Machine.Plain (holds n e) (fun m => e.trace context n m.scopes) fun _ => True :=
  (safe_value h context n).bind_quiet fun _ _ => .pure trivial

theorem safe_emit (hv : v.Plain) :
    Safe Machine.Plain (emit v) (fun _ => [.emit v]) fun _ => True where
  state m hm := by
    rw [endState_emit]
    exact hm
  value _ _ _ _ _ := trivial
  halt m _ _ _ hr := by
    obtain ⟨line, h⟩ := hv.exists_text
    rw [emit_of_text h] at hr
    cases hr
  events _ _ event he := by
    rw [List.mem_singleton.1 he]
    exact hv

theorem safe_define (name : String) (hv : v.Plain) :
    Safe Machine.Plain (define name v) (fun _ => [.define name v]) fun _ => True where
  state _ hm := hm.define name hv
  value _ _ _ _ _ := trivial
  halt _ _ _ _ hr := by cases hr
  events _ _ event he := by
    rw [List.mem_singleton.1 he]
    exact hv

theorem safe_inNewScope {body : Execution Unit} {trace : Machine → List Event}
    (h : Safe Machine.Plain body trace fun _ => True) :
    Safe Machine.Plain (inNewScope body)
      (fun m => .enter :: trace { m with scopes := {} :: m.scopes } ++ [.leave]) fun _ => True := by
  have hnew : ∀ m : Machine, m.Plain → Machine.Plain { m with scopes := {} :: m.scopes } :=
    fun m hm => .cons Bindings.plain_empty hm
  constructor
  · intro m hm
    rw [endState_inNewScope]
    exact (h.state _ (hnew m hm)).tail
  · exact fun _ _ _ _ _ => trivial
  · intro m hm halt m' hr
    unfold inNewScope at hr
    cases hb : body { m with scopes := {} :: m.scopes } with
    | ok u m₁ =>
      rw [hb] at hr
      cases hr
    | error halt' m₁ =>
      rw [hb] at hr
      obtain ⟨rfl, -⟩ := EStateM.Result.error.inj hr
      exact h.halt _ (hnew m hm) _ m₁ hb
  · intro m hm event he
    rcases List.mem_append.1 he with he | he
    · rcases List.mem_cons.1 he with rfl | he
      · exact trivial
      · exact h.events _ (hnew m hm) event he
    · rw [List.mem_singleton.1 he]
      exact trivial

theorem safe_repeatWhile {condition : Execution Bool} {body : Execution Unit}
    {traceCondition traceBody : Machine → List Event}
    (hc : Safe Machine.Plain condition traceCondition fun _ => True)
    (hb : Safe Machine.Plain body traceBody fun _ => True) (rounds : Nat) :
    Safe Machine.Plain (repeatWhile condition body rounds)
      (traceWhile condition body traceCondition traceBody rounds) fun _ => True := by
  induction rounds with
  | zero => exact .throw trivial
  | succ rounds ih =>
    refine hc.bind fun holds _ => ?_
    cases holds with
    | false => exact .pure trivial
    | true => exact hb.bind fun _ _ => ih

theorem safe_inOrder {run : Stmt → Execution Unit} {trace : Context → Stmt → Machine → List Event}
    (h : ∀ context s, s.WellFormedDeclaration →
      Safe Machine.Plain (run s) (trace context s) fun _ => True) (context : Context)
    {ss : List Stmt} (hss : Stmt.WellFormedAll ss) :
    Safe Machine.Plain (inOrder run ss) (traceInOrder run trace context ss) fun _ => True := by
  induction ss generalizing context with
  | nil => exact .pure trivial
  | cons s ss ih => exact (h context s hss.1).bind fun _ _ => ih (context.after s) hss.2

end Execution

/-- A well-formed declaration runs to its end, or to an expected halt. -/
theorem Stmt.WellFormedDeclaration.safe {s : Stmt} (h : s.WellFormedDeclaration) (rounds n : Nat)
    (context : Context) :
    Safe Machine.Plain (s.execute rounds n) (s.trace rounds n context) fun _ => True := by
  induction n using Nat.strongRecOn generalizing s context with
  | ind n ih =>
    match n, s with
    | 0, _ => exact .throw trivial
    | n + 1, .expression e =>
      obtain ⟨_, _, h, -⟩ | h := h
      · cases h
      · exact (safe_value h context n).bind_quiet fun _ _ => .pure trivial
    | n + 1, .print e =>
      obtain ⟨_, _, h, -⟩ | h := h
      · cases h
      · exact (safe_value h context n).bind fun v hv => safe_emit hv
    | n + 1, .declare name none => exact safe_define name.lexeme trivial
    | n + 1, .declare name (some e) =>
      obtain ⟨_, _, h, -, he⟩ | h := h
      · obtain ⟨rfl, rfl⟩ := Stmt.declare.inj h
        exact (safe_value (he e rfl) context n).bind fun v hv => safe_define name.lexeme hv
      · exact h.elim
    | 1, .block _ => exact .throw trivial
    | n + 2, .block body =>
      obtain ⟨_, _, h, -⟩ | h := h
      · cases h
      · exact safe_inNewScope
          (safe_inOrder (fun context s hs => ih n (by omega) hs context) ([] :: context) h)
    | n + 1, .ifThen condition thenBranch =>
      obtain ⟨_, _, h, -⟩ | h := h
      · cases h
      · refine (safe_holds h.1 context n).bind fun holds _ => ?_
        cases holds with
        | false => exact .pure trivial
        | true => exact ih n (by omega) (Or.inr h.2) context
    | n + 1, .ifElse condition thenBranch elseBranch =>
      obtain ⟨_, _, h, -⟩ | h := h
      · cases h
      · refine (safe_holds h.1 context n).bind fun holds _ => ?_
        cases holds with
        | false => exact ih n (by omega) (Or.inr h.2.2) context
        | true => exact ih n (by omega) (Or.inr h.2.1) context
    | n + 1, .loop condition body =>
      obtain ⟨_, _, h, -⟩ | h := h
      · cases h
      · exact safe_repeatWhile (safe_holds h.1 context n) (ih n (by omega) (Or.inr h.2) context)
          rounds
    | n + 1, .misfit _ =>
      obtain ⟨_, _, h, -⟩ | h := h
      · cases h
      · exact h.elim

/-- A well-formed program runs to its end, or to an expected halt. -/
theorem safe_execute {program : List Stmt} (h : Stmt.WellFormedAll program) (rounds : Nat) :
    Safe Machine.Plain (execute rounds program) (trace rounds program) fun _ => True :=
  safe_inOrder (fun context _ hs => hs.safe rounds nestingLimit context) [] h

/-! ## Outcomes -/

/-- Nothing is reported, or one expected failure; and the program halts in no other way. -/
structure Outcome.Expected (out : Outcome) : Prop where
  halt : out.halt? = none ∨ out.halt? = some .unfinished
  reports : out.reports = [] ∨ ∃ failure : Failure, failure.Expected ∧
    out.reports = [.ofFailure failure]
  globals : out.session.globals.Plain

theorem Session.expected_settle {globals : Bindings} (hg : globals.Plain) {halt? : Option Halt}
    (h : ∀ halt ∈ halt?, halt.Expected) (s : Session) (printed : List String) :
    (s.settle globals printed halt?).Expected := by
  cases halt? with
  | none => exact ⟨Or.inl rfl, Or.inl rfl, hg⟩
  | some halt =>
    have h := h halt rfl
    cases halt with
    | failure f => exact ⟨Or.inl rfl, Or.inr ⟨f, h, rfl⟩, hg⟩
    | tooDeep => exact ⟨Or.inl rfl, Or.inr ⟨.tooDeep, trivial, rfl⟩, hg⟩
    | unfinished => exact ⟨Or.inr rfl, Or.inl rfl, hg⟩
    | _ => exact h.elim

theorem Chain.Plain.headD (h : Chain.Plain c) : (c.headD {}).Plain := by
  cases c with
  | nil => exact Bindings.plain_empty
  | cons b outer => exact h b List.mem_cons_self

/-- A well-formed program in a session with plain globals has an expected outcome. -/
theorem Session.expected_perform {program : List Stmt} (h : Stmt.WellFormedAll program)
    {s : Session} (hs : s.globals.Plain) (rounds : Nat) : (s.perform rounds program).Expected := by
  have hsafe := safe_execute h rounds
  have hm : Machine.Plain { scopes := [s.globals] } := .cons hs Chain.plain_nil
  have hstate := hsafe.state _ hm
  unfold perform
  cases hr : execute rounds program { scopes := [s.globals] } with
  | ok u m =>
    rw [hr] at hstate
    exact expected_settle hstate.headD (fun _ h => absurd h (Option.not_mem_none _)) s _
  | error halt m =>
    rw [hr] at hstate
    refine expected_settle hstate.headD ?_ s _
    rintro _ ⟨⟩
    exact hsafe.halt _ hm halt m hr

/-- Programs that are read cannot go wrong.  Every source is read as a program without misfits, also
if there are faults in it.  With plain values in its globals it runs forever, or it comes to an end
with at most one report, of an expected failure; and all values that it ever binds, assigns or prints
are plain. -/
theorem safe_of_source (source : String) :
    ∃ program, (parse (scan source).tokens).program? = some program ∧
      Stmt.WellFormedAll program ∧
      ∀ s : Session, s.globals.Plain →
        (∀ rounds, (s.perform rounds program).Expected ∧
          Replays { scopes := [s.globals] } (trace rounds program { scopes := [s.globals] })
            (endState (execute rounds program { scopes := [s.globals] })) ∧
          ∀ event ∈ trace rounds program { scopes := [s.globals] }, event.Plain) ∧
        ((∀ rounds, (s.perform rounds program).halt? = some .unfinished) ∨
          ∃ enough, ∀ rounds, enough ≤ rounds →
            s.perform rounds program = s.perform enough program ∧
              (s.perform enough program).halt? = none) := by
  obtain ⟨program, hp, hw⟩ := exists_parse_scan source
  refine ⟨program, hp, hw, fun s hs => ⟨fun rounds => ?_, ?_⟩⟩
  · have hm : Machine.Plain { scopes := [s.globals] } := .cons hs Chain.plain_nil
    exact ⟨Session.expected_perform hw hs rounds, replays_execute rounds program _,
      (safe_execute hw rounds).events _ hm⟩
  · rcases Session.perform_settles s program with h | ⟨enough, h⟩
    · exact Or.inl h
    · -- a halt that is not reported is an unfinished loop
      refine Or.inr ⟨enough, fun rounds hr => ⟨(h rounds hr).1, ?_⟩⟩
      rcases (Session.expected_perform hw hs enough).halt with hn | hu
      · exact hn
      · exact absurd hu (h rounds hr).2

/-- A text with a fault in it is read as a program, too, and that program cannot go wrong. -/
theorem safe_of_faulty_source :
    ∃ program, (parse (scan "print ; print -nil;").tokens).program? = some program ∧
      ∀ rounds, (Session.perform rounds {} program).Expected := by
  obtain ⟨program, hp, -, h⟩ := safe_of_source "print ; print -nil;"
  exact ⟨program, hp, fun rounds => ((h {} Bindings.plain_empty).1 rounds).1⟩

end Lox
