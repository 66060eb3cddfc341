import Lox.Proofs.Grammar.Complete
import Lox.Proofs.Run.Lexical
import Lox.Proofs.Run.Rounds

/-!
# Resolved programs

Before a program runs, every variable in it can be resolved to a number of scopes to go outward.  The
resolved program does what the program does: it prints the same lines, comes to the same end and
leaves the same globals, as long as the program is not nested too deep (`lexical_scoping`).  A resolved
program knows no limit on nesting.
-/

namespace Lox

open Computing Execution

/-! ## Resolved trees -/

/-- An expression in which each variable has the number of scopes to go outward. -/
inductive BoundExpr
  | literal (value : Value)
  | grouping (inner : BoundExpr)
  | unary (operator : Token) (operand : BoundExpr)
  | binary (left : BoundExpr) (operator : Token) (right : BoundExpr)
  | logical (left : BoundExpr) (operator : Token) (right : BoundExpr)
  | reference (name : Token) (hops : Nat)
  | assign (name : Token) (hops : Nat) (value : BoundExpr)
  | misfit (node : Misfit)

/-- A statement over such expressions. -/
inductive BoundStmt
  | expression (e : BoundExpr)
  | print (e : BoundExpr)
  | declare (name : Token) (initializer : Option BoundExpr)
  | block (body : List BoundStmt)
  | ifThen (condition : BoundExpr) (thenBranch : BoundStmt)
  | ifElse (condition : BoundExpr) (thenBranch elseBranch : BoundStmt)
  | loop (condition : BoundExpr) (body : BoundStmt)
  | misfit (node : Misfit)

/-- Resolves the variables of an expression. -/
def Expr.resolve (context : Context) : Expr → BoundExpr
  | literal v => .literal v
  | grouping e => .grouping (e.resolve context)
  | unary operator e => .unary operator (e.resolve context)
  | binary a operator b => .binary (a.resolve context) operator (b.resolve context)
  | logical a operator b => .logical (a.resolve context) operator (b.resolve context)
  | reference name => .reference name (context.hops name.lexeme)
  | assign name e => .assign name (context.hops name.lexeme) (e.resolve context)
  | misfit node => .misfit node

mutual

/-- Resolves the variables of a statement. -/
def Stmt.resolve (context : Context) : Stmt → BoundStmt
  | expression e => .expression (e.resolve context)
  | print e => .print (e.resolve context)
  | declare name initializer => .declare name (initializer.map (·.resolve context))
  | block body => .block (Stmt.resolveAll ([] :: context) body)
  | ifThen condition thenBranch => .ifThen (condition.resolve context) (thenBranch.resolve context)
  | ifElse condition thenBranch elseBranch =>
    .ifElse (condition.resolve context) (thenBranch.resolve context) (elseBranch.resolve context)
  | loop condition body => .loop (condition.resolve context) (body.resolve context)
  | misfit node => .misfit node

/-- Resolves statements, each in the context that those before it leave. -/
def Stmt.resolveAll (context : Context) : List Stmt → List BoundStmt
  | [] => []
  | s :: ss => s.resolve context :: Stmt.resolveAll (context.after s) ss

end

/-! ## Running resolved trees -/

/-- Reads a variable so many scopes outward. -/
def Evaluation.readAt (hops : Nat) (name : Token) : Evaluation Value := fun c =>
  match c.getAt? hops name.lexeme with
  | some v => .ok v c
  | none => .error (.failure (.undefined name)) c

/-- Assigns to a variable so many scopes outward. -/
def Evaluation.writeAt (hops : Nat) (name : Token) (v : Value) : Evaluation Unit := fun c =>
  match c.assignAt? hops name.lexeme v with
  | some c' => .ok () c'
  | none => .error (.failure (.undefined name)) c

/-- Evaluates a resolved expression. -/
def BoundExpr.evaluate : BoundExpr → Evaluation Value
  | literal v => return v
  | grouping e => e.evaluate
  | reference name hops => Evaluation.readAt hops name
  | assign name hops e => do
    let v ← e.evaluate
    Evaluation.writeAt hops name v
    return v
  | unary operator e => do
    let v ← e.evaluate
    Evaluation.ofOperator (Operator.unary operator v)
  | binary left operator right => do
    let a ← left.evaluate
    let b ← right.evaluate
    Evaluation.ofOperator (Operator.binary operator a b)
  | logical left operator right => do
    let a ← left.evaluate
    if decidesLogical operator a then return a else right.evaluate
  | misfit node => throw (.invalidExpression node.record)

/-- Evaluates in the scopes of the machine. -/
def Execution.inScopes {α : Type} (x : Evaluation α) : Execution α := fun m =>
  match x m.scopes with
  | .ok a c => .ok a { m with scopes := c }
  | .error halt c => .error halt { m with scopes := c }

mutual

/-- Executes a resolved statement, with so many rounds for each loop. -/
def BoundStmt.execute (rounds : Nat) : BoundStmt → Execution Unit
  | expression e => discard (inScopes e.evaluate)
  | print e => do emit (← inScopes e.evaluate)
  | declare name none => define name.lexeme .nil
  | declare name (some e) => do define name.lexeme (← inScopes e.evaluate)
  | block body => inNewScope (BoundStmt.executeAll rounds body)
  | ifThen condition thenBranch => do
    if ← Value.isTruthy <$> inScopes condition.evaluate then thenBranch.execute rounds
    else return ()
  | ifElse condition thenBranch elseBranch => do
    if ← Value.isTruthy <$> inScopes condition.evaluate then thenBranch.execute rounds
    else elseBranch.execute rounds
  | loop condition body =>
    repeatWhile (Value.isTruthy <$> inScopes condition.evaluate) (body.execute rounds) rounds
  | misfit node => throw (.unknownStatement node.kind)

/-- Executes resolved statements one after the other. -/
def BoundStmt.executeAll (rounds : Nat) : List BoundStmt → Execution Unit
  | [] => return ()
  | s :: ss => do
    s.execute rounds
    BoundStmt.executeAll rounds ss

end

namespace Session

/-- The outcome of a run in the globals, from how it ends. -/
def conclude (s : Session) : EStateM.Result Halt Machine Unit → Outcome
  | .ok _ m => s.settle (m.scopes.headD {}) m.printed.toList none
  | .error halt m => s.settle (m.scopes.headD {}) m.printed.toList (some halt)

/-- A program is performed by concluding from its execution. -/
theorem perform_eq_conclude (s : Session) (rounds : Nat) (program : List Stmt) :
    s.perform rounds program = s.conclude (execute rounds program { scopes := [s.globals] }) := rfl

/-- Runs a resolved program in the globals. -/
def performBound (rounds : Nat) (s : Session) (program : List BoundStmt) : Outcome :=
  s.conclude (BoundStmt.executeAll rounds program { scopes := [s.globals] })

end Session

/-! ## Where variables are declared -/

namespace Stmt

/-- A statement that declares no variable by itself. -/
def NoVariable : Stmt → Prop
  | declare _ _ => False
  | _ => True

mutual

/-- Within the statement variables are declared only in blocks. -/
def Placed : Stmt → Prop
  | block body => PlacedAll body
  | ifThen _ thenBranch => thenBranch.NoVariable ∧ thenBranch.Placed
  | ifElse _ thenBranch elseBranch =>
    (thenBranch.NoVariable ∧ thenBranch.Placed) ∧ elseBranch.NoVariable ∧ elseBranch.Placed
  | loop _ body => body.NoVariable ∧ body.Placed
  | _ => True

/-- Variables are declared only here and in blocks. -/
def PlacedAll : List Stmt → Prop
  | [] => True
  | s :: ss => s.Placed ∧ PlacedAll ss

end

theorem placed_forLoop {initializer : Option Stmt} {condition increment : Option Expr}
    {body : Stmt} (hi : ∀ s ∈ initializer, s.Placed) (hb : body.NoVariable ∧ body.Placed) :
    (forLoop initializer condition increment body).NoVariable ∧
      (forLoop initializer condition increment body).Placed := by
  cases increment with
  | none =>
    cases initializer with
    | none => exact ⟨trivial, hb⟩
    | some s => exact ⟨trivial, hi s rfl, hb, trivial⟩
  | some e =>
    have hbody : (block [body, expression e]).Placed := ⟨hb.2, trivial, trivial⟩
    cases initializer with
    | none => exact ⟨trivial, trivial, hbody⟩
    | some s => exact ⟨trivial, hi s rfl, ⟨trivial, hbody⟩, trivial⟩

end Stmt

namespace Grammar

variable {ts rs : List Token} {s : Stmt}

theorem VariablePhrase.placed (h : VariablePhrase ts s rs) : s.Placed := by
  cases h <;> exact trivial

theorem EffectPhrase.placed (h : EffectPhrase ts s rs) : s.NoVariable ∧ s.Placed := by
  cases h
  exact ⟨trivial, trivial⟩

theorem InitializerPhrase.placed {initializer : Option Stmt}
    (h : InitializerPhrase ts initializer rs) : ∀ s ∈ initializer, s.Placed := by
  rintro s rfl
  cases h with
  | «variable» _ inner => exact inner.placed
  | effect inner => exact inner.placed.2

mutual

theorem StmtPhrase.placed {dangling : Bool} {ts rs : List Token} {s : Stmt}
    (h : StmtPhrase dangling ts s rs) : s.NoVariable ∧ s.Placed := by
  match h with
  | .effect inner => exact inner.placed
  | .print _ _ _ => exact ⟨trivial, trivial⟩
  | .block _ inner _ => exact ⟨trivial, inner.placedAll⟩
  | .ifThen _ _ _ _ hthen => exact ⟨trivial, hthen.placed⟩
  | .ifElse _ _ _ _ hthen _ helse => exact ⟨trivial, hthen.placed, helse.placed⟩
  | .whileLoop _ _ _ _ hbody => exact ⟨trivial, hbody.placed⟩
  | .forLoop _ _ hinitializer _ _ _ _ hbody =>
    exact Stmt.placed_forLoop hinitializer.placed hbody.placed

theorem SequencePhrase.placedAll {ts rs : List Token} {ss : List Stmt}
    (h : SequencePhrase ts ss rs) : Stmt.PlacedAll ss := by
  match h with
  | .nil => exact trivial
  | .variable _ first rest => exact ⟨first.placed, rest.placedAll⟩
  | .statement first rest => exact ⟨first.placed.2, rest.placedAll⟩

end

end Grammar

/-! ### What statements leave of a context -/

namespace Context

theorem after_of_noVariable (context : Context) {s : Stmt} (h : s.NoVariable) :
    context.after s = context := by
  cases s <;> first | rfl | exact h.elim

theorem exists_after_cons (names : List String) (context : Context) (s : Stmt) :
    ∃ names', after (names :: context) s = names' :: context := by
  cases s <;> exact ⟨_, rfl⟩

theorem exists_foldl_after_cons (names : List String) (context : Context) (ss : List Stmt) :
    ∃ names', ss.foldl after (names :: context) = names' :: context := by
  induction ss generalizing names with
  | nil => exact ⟨names, rfl⟩
  | cons s ss ih =>
    obtain ⟨names', h⟩ := exists_after_cons names context s
    rw [List.foldl_cons, h]
    exact ih names'

/-- The scopes of the machine agree with the context. -/
def AgreesOn (context : Context) (m : Machine) : Prop := context.Agrees m.scopes

theorem AgreesOn.enter {context : Context} {m : Machine} (h : context.AgreesOn m) :
    AgreesOn ([] :: context) { m with scopes := {} :: m.scopes } := Agrees.enter h

end Context

/-! ## Simulation -/

variable {σ α β : Type}

/-- From states of one kind, `x` does what `y` does unless it is nested too deep, it leads to states
of the other kind, and all its look-ups are lexical. -/
structure Simulates (before : σ → Prop) (x y : EStateM Halt σ α) (trace : σ → List Event)
    (after : σ → Prop) : Prop where
  result : ∀ s, before s → OrStops .tooDeep (x s) (y s)
  state : ∀ s, before s → ∀ a s', x s = .ok a s' → after s'
  events : ∀ s, before s → ∀ event ∈ trace s, event.Lexical

namespace Simulates

variable {before between after : σ → Prop} {x y : EStateM Halt σ α} {f g : α → EStateM Halt σ β}
  {trace : σ → List Event} {next : α → σ → List Event}

theorem refl (h : ∀ s, before s → ∀ a s', x s = .ok a s' → after s') :
    Simulates before x x (fun _ => []) after where
  result _ _ := .rfl
  state := h
  events _ _ _ h := absurd h List.not_mem_nil

theorem tooDeep :
    Simulates before (throw .tooDeep : EStateM Halt σ α) y (fun _ => []) after where
  result _ _ := .stop
  state _ _ _ _ hr := absurd hr throw_ne_ok
  events _ _ _ h := absurd h List.not_mem_nil

theorem pure {a : α} : Simulates before (pure a) (pure a) (fun _ => []) before :=
  refl fun _ hs _ _ hr => (pure_eq_ok.1 hr).2 ▸ hs

theorem throw {halt : Halt} :
    Simulates before (throw halt : EStateM Halt σ α) (throw halt) (fun _ => []) after :=
  refl fun _ _ _ _ hr => absurd hr throw_ne_ok

theorem bind (hx : Simulates before x y trace between)
    (hf : ∀ a, Simulates between (f a) (g a) (next a) after) :
    Simulates before (x >>= f) (y >>= g) (fun s => followed (trace s) (x s) next) after where
  result s hs := (hx.result s hs).bind fun a s' hr => (hf a).result s' (hx.state s hs a s' hr)
  state s hs b s'' hr := by
    obtain ⟨a, s', ha, hb⟩ := bind_eq_ok.1 hr
    exact (hf a).state s' (hx.state s hs a s' ha) b s'' hb
  events s hs :=
    forall_mem_followed (hx.events s hs) fun a s' hr =>
      (hf a).events s' (hx.state s hs a s' hr)

/-- A step without events leaves the trace as it is. -/
theorem bind_quiet (hx : Simulates before x y trace between)
    (hf : ∀ a, Simulates between (f a) (g a) (fun _ => []) after) :
    Simulates before (x >>= f) (y >>= g) trace after := by
  have h := hx.bind hf
  simp only [followed_nil] at h
  exact h

end Simulates

/-! ## Expressions -/

variable {context : Context} {n : Nat}

theorem simulates_read (context : Context) (n : Nat) (name : Token) :
    Simulates context.Agrees (Evaluation.read n name)
      (Evaluation.readAt (context.hops name.lexeme) name)
      (fun c => if n < c.reach name.lexeme then [] else [.read context name c])
      context.Agrees := by
  constructor
  · intro c hc
    rw [Evaluation.read_apply, (hc.looksUp name.lexeme).get?_eq]
    split
    · exact .stop
    · exact .rfl
  · intro c hc v c' hr
    have hend := endState_read n name c
    rw [hr] at hend
    obtain rfl : c' = c := hend
    exact hc
  · intro c hc event he
    split at he
    · exact absurd he List.not_mem_nil
    · rw [List.mem_singleton.1 he]
      exact hc.lexical_read name

theorem simulates_write (context : Context) (n : Nat) (name : Token) (v : Value) :
    Simulates context.Agrees (Evaluation.write n name v)
      (Evaluation.writeAt (context.hops name.lexeme) name v)
      (fun c => if n < c.reach name.lexeme then [] else [.assign context name v c])
      context.Agrees := by
  constructor
  · intro c hc
    rw [Evaluation.write_apply, (hc.looksUp name.lexeme).assign?_eq]
    split
    · exact .stop
    · exact .rfl
  · intro c hc _ c' hr
    rw [Evaluation.write_apply] at hr
    split at hr
    · cases hr
    split at hr
    next c'' hw =>
      obtain ⟨-, rfl⟩ := EStateM.Result.ok.inj hr
      exact hc.assign? hw
    next => cases hr
  · intro c hc event he
    split at he
    · exact absurd he List.not_mem_nil
    · rw [List.mem_singleton.1 he]
      exact hc.lexical_assign name v

theorem simulates_ofOperator (result : Except Failure Value) :
    Simulates context.Agrees (Evaluation.ofOperator result) (Evaluation.ofOperator result)
      (fun _ => []) context.Agrees := by
  cases result with
  | ok v => exact .pure
  | error f => exact .throw

/-- An expression is simulated by what it is resolved to. -/
theorem Expr.simulates_resolve (context : Context) (n : Nat) (e : Expr) :
    Simulates context.Agrees (e.evaluate n) (e.resolve context).evaluate (e.trace context n)
      context.Agrees := by
  induction n generalizing e with
  | zero => exact .tooDeep
  | succ n ih =>
    cases e with
    | literal v => exact .pure
    | grouping e => exact ih e
    | reference name => exact simulates_read context n name
    | assign name e =>
      refine (ih e).bind fun v => ?_
      exact (simulates_write context n name v).bind_quiet fun _ => .pure
    | unary operator e =>
      exact (ih e).bind_quiet fun v => simulates_ofOperator (Operator.unary operator v)
    | binary left operator right =>
      refine (ih left).bind fun a => ?_
      exact (ih right).bind_quiet fun b => simulates_ofOperator (Operator.binary operator a b)
    | logical left operator right =>
      refine (ih left).bind fun a => ?_
      cases decidesLogical operator a with
      | true => exact .pure
      | false => exact ih right
    | misfit node => exact .throw

/-! ## Statements -/

namespace Execution

theorem value_eq_inScopes (n : Nat) (e : Expr) : value n e = inScopes (e.evaluate n) := by
  funext m
  unfold value inScopes
  cases e.evaluate n m.scopes <;> rfl

theorem simulates_value (context : Context) (n : Nat) (e : Expr) :
    Simulates context.AgreesOn (value n e) (inScopes (e.resolve context).evaluate)
      (fun m => e.trace context n m.scopes) context.AgreesOn := by
  have h := e.simulates_resolve context n
  rw [value_eq_inScopes]
  constructor
  · intro m hm
    unfold inScopes
    rcases h.result m.scopes hm with hr | ⟨c, hr⟩
    · rw [hr]
      exact .rfl
    · rw [hr]
      exact .stop
  · intro m hm v m' hr
    unfold inScopes at hr
    split at hr
    next u c he =>
      obtain ⟨-, rfl⟩ := EStateM.Result.ok.inj hr
      exact h.state m.scopes hm u c he
    next => cases hr
  · exact fun m hm => h.events m.scopes hm

theorem simulates_holds (context : Context) (n : Nat) (e : Expr) :
    Simulates context.AgreesOn (holds n e)
      (Value.isTruthy <$> inScopes (e.resolve context).evaluate)
      (fun m => e.trace context n m.scopes) context.AgreesOn :=
  (simulates_value context n e).bind_quiet fun _ => .pure

theorem simulates_emit (v : Value) :
    Simulates context.AgreesOn (emit v) (emit v) (fun _ => [.emit v]) context.AgreesOn where
  result _ _ := .rfl
  state m hm _ _ hr := by
    cases h : v.text? with
    | some line =>
      rw [emit_of_text h] at hr
      obtain ⟨-, rfl⟩ := EStateM.Result.ok.inj hr
      exact hm
    | none =>
      rw [emit_of_no_text h] at hr
      cases hr
  events _ _ event he := by
    rw [List.mem_singleton.1 he]
    exact trivial

theorem simulates_define (context : Context) (name : Token) (initializer : Option Expr)
    (v : Value) :
    Simulates context.AgreesOn (define name.lexeme v) (define name.lexeme v)
      (fun _ => [.define name.lexeme v])
      (context.after (.declare name initializer)).AgreesOn where
  result _ _ := .rfl
  state m hm _ _ hr := by
    obtain ⟨-, rfl⟩ := EStateM.Result.ok.inj hr
    exact hm.define name initializer v
  events _ _ event he := by
    rw [List.mem_singleton.1 he]
    exact trivial

theorem simulates_inNewScope {body body' : Execution Unit} {trace : Machine → List Event}
    {names : List String}
    (h : Simulates (Context.AgreesOn ([] :: context)) body body' trace
      (Context.AgreesOn (names :: context))) :
    Simulates context.AgreesOn (inNewScope body) (inNewScope body')
      (fun m => .enter :: trace { m with scopes := {} :: m.scopes } ++ [.leave])
      context.AgreesOn := by
  constructor
  · exact fun m hm => orStops_inNewScope (h.result _ hm.enter)
  · intro m hm u m' hr
    unfold inNewScope at hr
    split at hr
    next _ m₁ hb =>
      obtain ⟨-, rfl⟩ := EStateM.Result.ok.inj hr
      exact (h.state _ hm.enter _ m₁ hb).tail (List.cons_ne_nil _ _)
    next => cases hr
  · intro m hm event he
    rcases List.mem_append.1 he with he | he
    · rcases List.mem_cons.1 he with rfl | he
      · exact trivial
      · exact h.events _ hm.enter event he
    · rw [List.mem_singleton.1 he]
      exact trivial

theorem simulates_repeatWhile {keeps : Machine → Prop} {condition condition' : Execution Bool}
    {body body' : Execution Unit} {traceCondition traceBody : Machine → List Event}
    (hc : Simulates keeps condition condition' traceCondition keeps)
    (hb : Simulates keeps body body' traceBody keeps) (rounds : Nat) :
    Simulates keeps (repeatWhile condition body rounds) (repeatWhile condition' body' rounds)
      (traceWhile condition body traceCondition traceBody rounds) keeps := by
  induction rounds with
  | zero => exact .throw
  | succ rounds ih =>
    refine hc.bind fun holds => ?_
    cases holds with
    | false => exact .pure
    | true => exact hb.bind fun _ => ih

theorem simulates_inOrder {rounds : Nat} {run : Stmt → Execution Unit}
    {trace : Context → Stmt → Machine → List Event}
    (h : ∀ context s, s.Placed →
      Simulates context.AgreesOn (run s) ((s.resolve context).execute rounds) (trace context s)
        (context.after s).AgreesOn)
    (context : Context) {ss : List Stmt} (hss : Stmt.PlacedAll ss) :
    Simulates context.AgreesOn (inOrder run ss)
      (BoundStmt.executeAll rounds (Stmt.resolveAll context ss)) (traceInOrder run trace context ss)
      (ss.foldl Context.after context).AgreesOn := by
  induction ss generalizing context with
  | nil => exact .pure
  | cons s ss ih => exact (h context s hss.1).bind fun _ => ih (context.after s) hss.2

end Execution

/-- A statement is simulated by what it is resolved to. -/
theorem Stmt.simulates_resolve (rounds n : Nat) (context : Context) {s : Stmt} (h : s.Placed) :
    Simulates context.AgreesOn (s.execute rounds n) ((s.resolve context).execute rounds)
      (s.trace rounds n context) (context.after s).AgreesOn := by
  induction n using Nat.strongRecOn generalizing context s with
  | ind n ih =>
    -- A branch declares no variable, so it keeps the context.
    have branch {k : Nat} (hk : k < n) (context : Context) {s : Stmt}
        (h : s.NoVariable ∧ s.Placed) :
        Simulates context.AgreesOn (s.execute rounds k) ((s.resolve context).execute rounds)
          (s.trace rounds k context) context.AgreesOn := by
      have hs := ih k hk context h.2
      rwa [context.after_of_noVariable h.1] at hs
    match n, s with
    | 0, _ => exact .tooDeep
    | n + 1, .declare name none => exact simulates_define context name none .nil
    | n + 1, .declare name (some e) =>
      exact (simulates_value context n e).bind fun v => simulates_define context name (some e) v
    | 1, .block _ => exact .tooDeep
    | n + 1, .expression e =>
      exact (simulates_value context n e).bind_quiet fun _ => .pure
    | n + 1, .print e =>
      exact (simulates_value context n e).bind fun v => simulates_emit v
    | n + 2, .block body =>
      obtain ⟨names, hnames⟩ := Context.exists_foldl_after_cons [] context body
      have hbody := simulates_inOrder (fun context s hs => ih n (by omega) context hs)
        ([] :: context) h
      rw [hnames] at hbody
      exact simulates_inNewScope hbody
    | n + 1, .ifThen condition thenBranch =>
      refine (simulates_holds context n condition).bind fun holds => ?_
      cases holds with
      | false => exact .pure
      | true => exact branch (by omega) context h
    | n + 1, .ifElse condition thenBranch elseBranch =>
      refine (simulates_holds context n condition).bind fun holds => ?_
      cases holds with
      | false => exact branch (by omega) context h.2
      | true => exact branch (by omega) context h.1
    | n + 1, .loop condition body =>
      exact simulates_repeatWhile (simulates_holds context n condition)
        (branch (by omega) context h) rounds
    | n + 1, .misfit _ => exact .throw

/-- A program is simulated by what it is resolved to. -/
theorem simulates_resolveAll (rounds : Nat) {program : List Stmt}
    (h : Stmt.PlacedAll program) :
    Simulates (Context.AgreesOn []) (execute rounds program)
      (BoundStmt.executeAll rounds (Stmt.resolveAll [] program)) (trace rounds program)
      (program.foldl Context.after []).AgreesOn :=
  simulates_inOrder (fun context _ hs => Stmt.simulates_resolve rounds nestingLimit context hs) [] h

/-! ## Sessions -/

/-- Look-ups are lexical.  In a program that is read without a report, each variable that is read or
assigned to is one that occurs in the text, and it is found in the scope of the nearest enclosing
block that has declared it before; if there is none, it is looked up in the globals, and undefined
just if these do not bind it.  So the resolved program has the same outcome. -/
theorem lexical_scoping {tokens : List Token} {program : List Stmt}
    (h : parse tokens = ⟨some program, []⟩) (s : Session) (rounds : Nat)
    (below : ∀ m, execute rounds program { scopes := [s.globals] } ≠ .error .tooDeep m) :
    (∀ event ∈ trace rounds program { scopes := [s.globals] },
        event.OccursIn (Stmt.occurrencesAll [] program) ∧ event.Lexical) ∧
      Replays { scopes := [s.globals] } (trace rounds program { scopes := [s.globals] })
        (endState (execute rounds program { scopes := [s.globals] })) ∧
      s.perform rounds program = s.performBound rounds (Stmt.resolveAll [] program) := by
  obtain ⟨_, _, -, hseq⟩ := exists_sequencePhrase_of_parse h
  have hsim := simulates_resolveAll rounds hseq.placedAll
  have hm : Context.AgreesOn [] { scopes := [s.globals] } := ⟨s.globals, rfl⟩
  -- Variables that are declared in sequences only are all that the simulation needs of the reading.
  refine ⟨fun event he => ⟨occursIn_of_mem_trace rounds program _ event he,
    hsim.events _ hm event he⟩, replays_execute rounds program _, ?_⟩
  rw [Session.perform_eq_conclude, (hsim.result _ hm).eq below, Session.performBound]

/-- In a block that declares `a` with the value of `a`, that value is looked up one scope outward, and
what follows finds `a` in the block. -/
theorem lexical_scoping_shadowing :
    ∃ program,
      parse [⟨.varWord, "var", .nil, 1⟩, ⟨.identifier, "a", .nil, 1⟩, ⟨.semicolon, ";", .nil, 1⟩,
          ⟨.leftBrace, "\x7b", .nil, 1⟩, ⟨.varWord, "var", .nil, 1⟩, ⟨.identifier, "a", .nil, 1⟩,
          ⟨.equal, "=", .nil, 1⟩, ⟨.identifier, "a", .nil, 1⟩, ⟨.semicolon, ";", .nil, 1⟩,
          ⟨.printWord, "print", .nil, 1⟩, ⟨.identifier, "a", .nil, 1⟩,
          ⟨.semicolon, ";", .nil, 1⟩, ⟨.rightBrace, "\x7d", .nil, 1⟩, .eof 1] =
        ⟨some program, []⟩ ∧
      Session.perform 1 {} program =
        Session.performBound 1 {}
          [.declare ⟨.identifier, "a", .nil, 1⟩ none,
            .block
              [.declare ⟨.identifier, "a", .nil, 1⟩
                (some (.reference ⟨.identifier, "a", .nil, 1⟩ 1)),
              .print (.reference ⟨.identifier, "a", .nil, 1⟩ 0)]] := by
  refine ⟨[.declare ⟨.identifier, "a", .nil, 1⟩ none,
    .block [.declare ⟨.identifier, "a", .nil, 1⟩ (some (.reference ⟨.identifier, "a", .nil, 1⟩)),
      .print (.reference ⟨.identifier, "a", .nil, 1⟩)]],
    (and_iff_left_of_imp fun hread => ?_).2 rfl⟩
  exact (lexical_scoping hread {} 1 fun _ h => by cases h).2.2

end Lox
