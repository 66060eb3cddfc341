import Lox.Proofs.Computation
import Lox.Execution

/-!
# Traces

A trace lists what a run does to its scopes and its output, in order: each variable that is read or
assigned to, with the scopes at that moment, each name that is bound, each value that is printed, and
each scope that is entered or left.  The trace is all there is to a run: played back step by step
from the machine at the start, it leads to the machine at the end, and the scopes noted in it are the
ones met on the way (`replays_execute`).

A look-up that is cut short by the limit on nesting finds nothing and is not noted.
-/

namespace Lox

open Computing Execution

/-! ## Contexts and events -/

/-- The names declared so far in each enclosing block, the innermost block first. -/
abbrev Context := List (List String)

namespace Context

/-- The context after a name is declared.  A variable outside of all blocks is global. -/
def declare : Context → String → Context
  | [], _ => []
  | names :: outer, name => (name :: names) :: outer

/-- The context of what follows a statement. -/
def after (context : Context) : Stmt → Context
  | .declare name _ => context.declare name.lexeme
  | _ => context

end Context

/-- A step of a run.  What is read or assigned to is noted with the context of the expression and
the scopes in which it is looked up. -/
inductive Event
  | read (context : Context) (name : Token) (scopes : Chain)
  | assign (context : Context) (name : Token) (value : Value) (scopes : Chain)
  | define (name : String) (value : Value)
  | emit (value : Value)
  | enter
  | leave

/-! ## Traces of runs -/

variable {σ α β : Type}

/-- Events, and what follows them if they lead to a value. -/
def followed (events : List Event) (result : EStateM.Result Halt σ α)
    (next : α → σ → List Event) : List Event :=
  events ++ match result with
    | .ok a s => next a s
    | .error _ _ => []

theorem followed_nil (events : List Event) (result : EStateM.Result Halt σ α) :
    (followed events result fun _ _ => []) = events := by
  unfold followed
  cases result <;> exact List.append_nil _

/-- What holds of some events and of those that can follow holds of all. -/
theorem forall_mem_followed {P : Event → Prop} {events : List Event}
    {result : EStateM.Result Halt σ α} {next : α → σ → List Event} (h : ∀ event ∈ events, P event)
    (hn : ∀ a s, result = .ok a s → ∀ event ∈ next a s, P event) :
    ∀ event ∈ followed events result next, P event := by
  intro event he
  unfold followed at he
  rcases List.mem_append.1 he with he | he
  · exact h event he
  cases hr : result with
  | ok a s =>
    rw [hr] at he
    exact hn a s hr event he
  | error halt s =>
    rw [hr] at he
    exact absurd he List.not_mem_nil

/-- The trace of an evaluation. -/
def Expr.trace (context : Context) : Nat → Expr → Chain → List Event
  | 0, _, _ => []
  | _ + 1, .literal _, _ => []
  | n + 1, .grouping e, c => e.trace context n c
  | n + 1, .reference name, c => if n < c.reach name.lexeme then [] else [.read context name c]
  | n + 1, .assign name e, c =>
    followed (e.trace context n c) (e.evaluate n c) fun v c =>
      if n < c.reach name.lexeme then [] else [.assign context name v c]
  | n + 1, .unary _ e, c => e.trace context n c
  | n + 1, .binary left _ right, c =>
    followed (left.trace context n c) (left.evaluate n c) fun _ c => right.trace context n c
  | n + 1, .logical left operator right, c =>
    followed (left.trace context n c) (left.evaluate n c) fun a c =>
      if decidesLogical operator a then [] else right.trace context n c
  | _ + 1, .misfit _, _ => []

/-- The trace of a loop, from those of its condition and its body. -/
def traceWhile (condition : Execution Bool) (body : Execution Unit)
    (traceCondition traceBody : Machine → List Event) : Nat → Machine → List Event
  | 0, _ => []
  | rounds + 1, m =>
    followed (traceCondition m) (condition m) fun holds m =>
      if holds then
        followed (traceBody m) (body m) fun _ m =>
          traceWhile condition body traceCondition traceBody rounds m
      else []

/-- The trace of statements one after the other, each in the context that those before it leave. -/
def traceInOrder (run : Stmt → Execution Unit) (trace : Context → Stmt → Machine → List Event) :
    Context → List Stmt → Machine → List Event
  | _, [], _ => []
  | context, s :: ss, m =>
    followed (trace context s m) (run s m) fun _ m =>
      traceInOrder run trace (context.after s) ss m

/-- The trace of a statement. -/
def Stmt.trace (rounds : Nat) : Nat → Context → Stmt → Machine → List Event
  | 0, _, _, _ => []
  | n + 1, context, .expression e, m => e.trace context n m.scopes
  | n + 1, context, .print e, m =>
    followed (e.trace context n m.scopes) (value n e m) fun v _ => [.emit v]
  | _ + 1, _, .declare name none, _ => [.define name.lexeme .nil]
  | n + 1, context, .declare name (some e), m =>
    followed (e.trace context n m.scopes) (value n e m) fun v _ => [.define name.lexeme v]
  | 1, _, .block _, _ => []
  | n + 2, context, .block body, m =>
    .enter :: traceInOrder (Stmt.execute rounds n) (Stmt.trace rounds n) ([] :: context) body
      { m with scopes := {} :: m.scopes } ++ [.leave]
  | n + 1, context, .ifThen condition thenBranch, m =>
    followed (condition.trace context n m.scopes) (holds n condition m) fun holds m =>
      if holds then thenBranch.trace rounds n context m else []
  | n + 1, context, .ifElse condition thenBranch elseBranch, m =>
    followed (condition.trace context n m.scopes) (holds n condition m) fun holds m =>
      if holds then thenBranch.trace rounds n context m
      else elseBranch.trace rounds n context m
  | n + 1, context, .loop condition body, m =>
    traceWhile (holds n condition) (body.execute rounds n)
      (fun m => condition.trace context n m.scopes) (body.trace rounds n context) rounds m
  | _ + 1, _, .misfit _, _ => []

/-- The trace of a program that runs in the globals. -/
def trace (rounds : Nat) (program : List Stmt) : Machine → List Event :=
  traceInOrder (Stmt.execute rounds nestingLimit) (Stmt.trace rounds nestingLimit) [] program

/-! ## Playing back -/

/-- What an event does. -/
def Machine.apply (m : Machine) : Event → Machine
  | .read _ _ _ => m
  | .assign _ name v _ => { m with scopes := (m.scopes.assign? name.lexeme v).getD m.scopes }
  | .define name v => { m with scopes := m.scopes.define name v }
  | .emit v => { m with printed := m.printed ++ v.text?.toArray }
  | .enter => { m with scopes := {} :: m.scopes }
  | .leave => { m with scopes := m.scopes.tail }

/-- The scopes noted in an event are those of the machine. -/
def Event.Fits (m : Machine) : Event → Prop
  | read _ _ scopes | assign _ _ _ scopes => scopes = m.scopes
  | _ => True

/-- Events lead from one machine to another, and each fits the machine that it is met with. -/
inductive Replays : Machine → List Event → Machine → Prop
  | nil {m} : Replays m [] m
  | cons {m event events m'} (fits : event.Fits m) (rest : Replays (m.apply event) events m') :
      Replays m (event :: events) m'

namespace Replays

variable {m m' m'' : Machine} {event : Event} {events events' : List Event}

theorem single (fits : event.Fits m) : Replays m [event] (m.apply event) := .cons fits .nil

theorem append (h : Replays m events m') (h' : Replays m' events' m'') :
    Replays m (events ++ events') m'' := by
  induction h with
  | nil => exact h'
  | cons fits _ ih => exact .cons fits (ih h')

/-- A composed computation is played back by playing back its parts; `lift` takes its states to
machines. -/
theorem followed (lift : σ → Machine) {x : EStateM Halt σ α} {f : α → EStateM Halt σ β} {s : σ}
    {next : α → σ → List Event} (hx : Replays (lift s) events (lift (endState (x s))))
    (hf : ∀ a s', x s = .ok a s' → Replays (lift s') (next a s') (lift (endState (f a s')))) :
    Replays (lift s) (followed events (x s) next) (lift (endState ((x >>= f) s))) := by
  cases hr : x s with
  | ok a s' =>
    rw [hr] at hx
    rw [bind_of_ok hr]
    exact hx.append (hf a s' hr)
  | error halt s' =>
    rw [hr] at hx
    rw [bind_of_error hr]
    exact hx.append .nil

end Replays

/-! ## Runs play back their traces -/

theorem Evaluation.read_apply (n : Nat) (name : Token) (c : Chain) :
    Evaluation.read n name c =
      if n < c.reach name.lexeme then .error .tooDeep c
      else match c.get? name.lexeme with
        | some v => .ok v c
        | none => .error (.failure (.undefined name)) c := by
  unfold Evaluation.read Chain.read
  by_cases h : n < c.reach name.lexeme
  · rw [if_pos h, if_pos h]
  · rw [if_neg h, if_neg h]
    cases c.get? name.lexeme <;> rfl

theorem Evaluation.write_apply (n : Nat) (name : Token) (v : Value) (c : Chain) :
    Evaluation.write n name v c =
      if n < c.reach name.lexeme then .error .tooDeep c
      else match c.assign? name.lexeme v with
        | some c' => .ok () c'
        | none => .error (.failure (.undefined name)) c := by
  unfold Evaluation.write Chain.write
  by_cases h : n < c.reach name.lexeme
  · rw [if_pos h, if_pos h]
  · rw [if_neg h, if_neg h]
    cases c.assign? name.lexeme v <;> rfl

theorem endState_read (n : Nat) (name : Token) (c : Chain) :
    endState (Evaluation.read n name c) = c := by
  rw [Evaluation.read_apply]
  split
  · rfl
  · cases c.get? name.lexeme <;> rfl

theorem endState_write (n : Nat) (name : Token) (v : Value) (c : Chain) :
    endState (Evaluation.write n name v c) =
      if n < c.reach name.lexeme then c else (c.assign? name.lexeme v).getD c := by
  rw [Evaluation.write_apply]
  split
  · rfl
  · cases c.assign? name.lexeme v <;> rfl

theorem endState_ofOperator (result : Except Failure Value) (c : Chain) :
    endState (Evaluation.ofOperator result c) = c := by
  cases result <;> rfl

/-- An evaluation is played back in the scopes of the machine. -/
theorem Expr.replays_trace (context : Context) (n : Nat) (e : Expr) (c : Chain)
    (printed : Array String) :
    Replays ⟨c, printed⟩ (e.trace context n c) ⟨endState (e.evaluate n c), printed⟩ := by
  induction n generalizing e c with
  | zero => exact .nil
  | succ n ih =>
    cases e with
    | literal v => exact .nil
    | grouping e => exact ih e c
    | reference name =>
      have hend : endState (evaluate (n + 1) (.reference name) c) = c := endState_read n name c
      unfold trace
      rw [hend]
      split
      · exact .nil
      · exact .single rfl
    | assign name e =>
      refine Replays.followed (⟨·, printed⟩) (ih e c) fun v c' _ => ?_
      rw [endState_bind_of_const fun _ _ => rfl, endState_write]
      split
      · exact .nil
      · exact .single rfl
    | unary operator e =>
      have hend := endState_bind_of_const (x := e.evaluate n) (s := c)
        fun v => endState_ofOperator (Operator.unary operator v)
      unfold trace evaluate
      rw [hend]
      exact ih e c
    | binary left operator right =>
      refine Replays.followed (⟨·, printed⟩) (ih left c) fun a c' _ => ?_
      rw [endState_bind_of_const fun b => endState_ofOperator (Operator.binary operator a b)]
      exact ih right c'
    | logical left operator right =>
      refine Replays.followed (⟨·, printed⟩) (ih left c) fun a c' _ => ?_
      split
      · exact .nil
      · exact ih right c'
    | misfit node => exact .nil

namespace Execution

theorem endState_value (n : Nat) (e : Expr) (m : Machine) :
    endState (value n e m) = { m with scopes := endState (e.evaluate n m.scopes) } := by
  unfold value
  cases e.evaluate n m.scopes <;> rfl

/-- Printing halts only at a value that cannot be shown. -/
theorem eq_tooLong_of_emit {v : Value} {halt : Halt} {m m' : Machine}
    (h : emit v m = .error halt m') : halt = .tooLong := by
  cases ht : v.text? with
  | some line =>
    rw [emit_of_text ht] at h
    cases h
  | none =>
    rw [emit_of_no_text ht] at h
    exact (EStateM.Result.error.inj h).1.symm

/-- A value that cannot be shown is not printed. -/
theorem endState_emit (v : Value) (m : Machine) : endState (emit v m) = m.apply (.emit v) := by
  cases h : v.text? with
  | some line => simp [emit_of_text h, Machine.apply, h, endState]
  | none => simp [emit_of_no_text h, Machine.apply, h, endState]

theorem replays_value (context : Context) (n : Nat) (e : Expr) (m : Machine) :
    Replays m (e.trace context n m.scopes) (endState (value n e m)) := by
  rw [endState_value]
  exact e.replays_trace context n m.scopes m.printed

theorem replays_holds (context : Context) (n : Nat) (e : Expr) (m : Machine) :
    Replays m (e.trace context n m.scopes) (endState (holds n e m)) := by
  unfold holds
  rw [endState_map]
  exact replays_value context n e m

theorem replays_inOrder {run : Stmt → Execution Unit}
    {trace : Context → Stmt → Machine → List Event}
    (h : ∀ context s m, Replays m (trace context s m) (endState (run s m))) (context : Context)
    (ss : List Stmt) (m : Machine) :
    Replays m (traceInOrder run trace context ss m) (endState (inOrder run ss m)) := by
  induction ss generalizing context m with
  | nil => exact .nil
  | cons s ss ih =>
    exact Replays.followed id (h context s m) fun _ m' _ => ih (context.after s) m'

theorem replays_repeatWhile {condition : Execution Bool} {body : Execution Unit}
    {traceCondition traceBody : Machine → List Event}
    (hc : ∀ m, Replays m (traceCondition m) (endState (condition m)))
    (hb : ∀ m, Replays m (traceBody m) (endState (body m))) (rounds : Nat) (m : Machine) :
    Replays m (traceWhile condition body traceCondition traceBody rounds m)
      (endState (repeatWhile condition body rounds m)) := by
  induction rounds generalizing m with
  | zero => exact .nil
  | succ rounds ih =>
    refine Replays.followed id (hc m) fun holds m' _ => ?_
    cases holds with
    | false => exact .nil
    | true => exact Replays.followed id (hb m') fun _ m'' _ => ih m''

theorem endState_inNewScope (body : Execution Unit) (m : Machine) :
    endState (inNewScope body m) =
      (endState (body { m with scopes := {} :: m.scopes })).apply .leave := by
  unfold inNewScope
  cases body { m with scopes := {} :: m.scopes } <;> rfl

end Execution

/-- A statement plays back its trace, however it ends. -/
theorem Stmt.replays_trace (rounds n : Nat) (context : Context) (s : Stmt) (m : Machine) :
    Replays m (s.trace rounds n context m) (endState (s.execute rounds n m)) := by
  induction n using Nat.strongRecOn generalizing context s m with
  | ind n ih =>
    match n, s with
    | 0, _ => exact .nil
    | n + 1, .expression e =>
      unfold trace execute
      exact (endState_map (x := value n e) (s := m) _).symm ▸ replays_value context n e m
    | n + 1, .print e =>
      refine Replays.followed id (replays_value context n e m) fun v m' _ => ?_
      rw [endState_emit]
      exact .single trivial
    | n + 1, .declare _ none => exact .single trivial
    | n + 1, .declare _ (some e) =>
      exact Replays.followed id (replays_value context n e m)
        fun v m' _ => .single trivial
    | 1, .block _ => exact .nil
    | n + 2, .block body =>
      -- the scope is left in the end also if the body halts
      unfold trace execute
      rw [endState_inNewScope]
      refine .cons trivial (.append ?_ (.single trivial))
      exact replays_inOrder (ih n (by omega)) ([] :: context) body _
    | n + 1, .ifThen condition thenBranch =>
      refine Replays.followed id (replays_holds context n condition m)
        fun holds m' _ => ?_
      cases holds with
      | false => exact .nil
      | true => exact ih n (by omega) context thenBranch m'
    | n + 1, .ifElse condition thenBranch elseBranch =>
      refine Replays.followed id (replays_holds context n condition m)
        fun holds m' _ => ?_
      cases holds with
      | false => exact ih n (by omega) context elseBranch m'
      | true => exact ih n (by omega) context thenBranch m'
    | n + 1, .loop condition body =>
      exact replays_repeatWhile (replays_holds context n condition)
        (ih n (by omega) context body) rounds m
    | n + 1, .misfit _ => exact .nil

/-- The trace of a program is all there is to its run. -/
theorem replays_execute (rounds : Nat) (program : List Stmt) (m : Machine) :
    Replays m (trace rounds program m) (endState (execute rounds program m)) :=
  replays_inOrder (Stmt.replays_trace rounds nestingLimit) [] program m

end Lox
