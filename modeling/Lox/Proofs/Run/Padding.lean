import Mathlib.Data.List.Forall2
import Lox.Proofs.Run.Resolve

/-!
# Empty scopes do not show

An empty scope between others binds no name, so each name stands for the binding it stands for
without that scope.  A statement that declares no variable by itself keeps the scope empty: it runs
as it would without it, and all its look-ups come to the same bindings (`Stmt.mirrors_execute`).
The one difference is that the walk outward takes a level more, so a run may be nested too deep.
With no scope put in, this says that a run that is not nested too deep is the same with more levels
left.
-/

namespace Lox

open Computing Execution

/-! ## Chains with empty scopes put in -/

/-- A chain with so many empty scopes in front. -/
def Chain.pad : Nat → Chain → Chain
  | 0, c => c
  | j + 1, c => {} :: pad j c

/-- The first chain is the second with `j` empty scopes put in, under the innermost `d` scopes. -/
inductive Chain.Padded (j : Nat) : Nat → Chain → Chain → Prop
  | here {c} : Padded j 0 (c.pad j) c
  | under {d b c c'} (h : Padded j d c c') : Padded j (d + 1) (b :: c) (b :: c')

namespace Chain

variable {j d : Nat} {c c' : Chain} {name : String} {v : Value}

theorem get?_pad (j : Nat) (c : Chain) (name : String) : (c.pad j).get? name = c.get? name := by
  induction j with
  | zero => rfl
  | succ j ih => exact ih

theorem le_reach_pad (j : Nat) (c : Chain) (name : String) :
    c.reach name ≤ (c.pad j).reach name := by
  induction j with
  | zero => exact Nat.le_refl _
  | succ j ih => exact Nat.le_succ_of_le ih

theorem assign?_pad (j : Nat) (c : Chain) (name : String) (v : Value) :
    (c.pad j).assign? name v = (c.assign? name v).map (pad j) := by
  induction j with
  | zero => exact Option.map_id'.symm
  | succ j ih =>
    have hcons : (c.pad (j + 1)).assign? name v = ((c.pad j).assign? name v).map ({} :: ·) := rfl
    rw [hcons, ih, Option.map_map]
    rfl

theorem owner?_pad (j : Nat) (c : Chain) (name : String) :
    (c.pad j).owner? name = (c.owner? name).map (· + j) := by
  induction j with
  | zero => exact Option.map_id'.symm
  | succ j ih =>
    have hcons : (c.pad (j + 1)).owner? name = ((c.pad j).owner? name).map (· + 1) :=
      owner?_cons {} _ name
    rw [hcons, ih, Option.map_map]
    rfl

namespace Padded

theorem get? (h : Padded j d c c') (name : String) : c.get? name = c'.get? name := by
  induction h with
  | here => exact get?_pad j _ name
  | under _ ih => rw [Chain.get?, Chain.get?, ih]

theorem reach_le (h : Padded j d c c') (name : String) : c'.reach name ≤ c.reach name := by
  induction h with
  | here => exact le_reach_pad j _ name
  | under _ ih =>
    unfold reach
    split
    · exact Nat.le_refl 1
    · exact Nat.succ_le_succ ih

/-- Assigning finds the name in both or in none. -/
theorem assign? (h : Padded j d c c') (name : String) (v : Value) :
    (c.assign? name v = none ∧ c'.assign? name v = none) ∨
      ∃ e e', c.assign? name v = some e ∧ c'.assign? name v = some e' ∧ Padded j d e e' := by
  induction h with
  | @here c =>
    rw [assign?_pad]
    cases hc : c.assign? name v with
    | none => exact Or.inl ⟨rfl, rfl⟩
    | some e => exact Or.inr ⟨_, e, rfl, rfl, .here⟩
  | @under d b c c' hout ih =>
    unfold Chain.assign?
    cases b.binds name with
    | true => exact Or.inr ⟨_, _, rfl, rfl, .under hout⟩
    | false =>
      rcases ih with ⟨hc, hc'⟩ | ⟨e, e', hc, hc', he⟩
      · exact Or.inl ⟨by rw [hc]; rfl, by rw [hc']; rfl⟩
      · exact Or.inr ⟨b :: e, b :: e', by rw [hc]; rfl, by rw [hc']; rfl, .under he⟩

/-- A name is bound in the same scope: further outward if that one is behind the empty ones. -/
theorem owner? (h : Padded j d c c') (name : String) :
    c.owner? name = (c'.owner? name).map fun i => if i < d then i else i + j := by
  induction h with
  | here =>
    rw [owner?_pad]
    rfl
  | @under d b c c' _ ih =>
    rw [owner?_cons, owner?_cons, ih]
    split
    · rfl
    · rw [Option.map_map, Option.map_map]
      refine congrArg (Option.map · _) (funext fun i => ?_)
      show (if i < d then i else i + j) + 1 = if i + 1 < d + 1 then i + 1 else i + 1 + j
      split <;> split <;> omega

/-- With no scope put in the chains are one. -/
theorem eq (h : Padded 0 d c c') : c = c' := by
  induction h with
  | here => rfl
  | under _ ih => rw [ih]

/-- A name may be bound in a scope in front of the empty ones, or if there are none. -/
theorem define (h : Padded j d c c') (hd : 0 < d ∨ j = 0) (name : String) (v : Value) :
    Padded j d (c.define name v) (c'.define name v) := by
  cases h with
  | here =>
    obtain rfl : j = 0 := by omega
    exact .here
  | under h => exact .under h

theorem tail (h : Padded j (d + 1) c c') : Padded j d c.tail c'.tail := by
  cases h with
  | under h => exact h

/-- The first of the empty scopes is taken out. -/
theorem tail_empty (h : Padded (j + 1) 0 c c') : Padded j 0 c.tail c' := by
  cases h
  exact .here

end Padded

end Chain

/-! ## Look-ups -/

/-- The name that is looked up in an event, and where. -/
def Event.lookUp? : Event → Option (Token × Chain)
  | read _ name scopes | assign _ name _ scopes => some (name, scopes)
  | _ => none

/-- The look-ups among some events, in order. -/
def lookUps (events : List Event) : List (Token × Chain) := events.filterMap Event.lookUp?

theorem lookUps_append (events events' : List Event) :
    lookUps (events ++ events') = lookUps events ++ lookUps events' := List.filterMap_append

/-- The same name is looked up, in scopes that are the same but for empty ones put in; it resolves
to the same binding, or to none. -/
def SameLookUp (l l' : Token × Chain) : Prop :=
  l.1 = l'.1 ∧ ∃ j d, Chain.Padded j d l.2 l'.2 ∧
    l.2.owner? l.1.lexeme = (l'.2.owner? l'.1.lexeme).map fun i => if i < d then i else i + j

theorem Chain.Padded.sameLookUp {j d : Nat} {c c' : Chain} (h : Padded j d c c') (name : Token) :
    SameLookUp (name, c) (name, c') := ⟨rfl, j, d, h, h.owner? name.lexeme⟩

/-! ## Runs that mirror others -/

variable {σ σ' α β : Type} {S : σ → σ' → Prop} {events events' : List Event} {s : σ} {s' : σ'}

/-- A run does what another does, from its results and its events: it comes to the same end in a
related state, with the same look-ups, or it is nested too deep. -/
inductive Mirrors (S : σ → σ' → Prop) :
    EStateM.Result Halt σ α → List Event → EStateM.Result Halt σ' α → List Event → Prop
  | tooDeep {s events r' events'} : Mirrors S (.error .tooDeep s) events r' events'
  | ok {a s s' events events'} (hs : S s s')
      (hl : List.Forall₂ SameLookUp (lookUps events) (lookUps events')) :
      Mirrors S (.ok a s) events (.ok a s') events'
  | error {halt s s' events events'} (hs : S s s')
      (hl : List.Forall₂ SameLookUp (lookUps events) (lookUps events')) :
      Mirrors S (.error halt s) events (.error halt s') events'

namespace Mirrors

theorem pure {a : α} (hs : S s s') :
    Mirrors S ((Pure.pure a : EStateM Halt σ α) s) [] ((Pure.pure a : EStateM Halt σ' α) s') [] :=
  .ok hs .nil

theorem throw {halt : Halt} (hs : S s s') :
    Mirrors S ((MonadExcept.throw halt : EStateM Halt σ α) s) []
      ((MonadExcept.throw halt : EStateM Halt σ' α) s') [] :=
  .error hs .nil

/-- What comes first has the same look-ups. -/
theorem prepend {r : EStateM.Result Halt σ α} {r' : EStateM.Result Halt σ' α}
    {more more' : List Event}
    (hl : List.Forall₂ SameLookUp (lookUps events) (lookUps events'))
    (h : Mirrors S r more r' more') : Mirrors S r (events ++ more) r' (events' ++ more') := by
  cases h with
  | tooDeep => exact .tooDeep
  | ok hs hm =>
    refine .ok hs ?_
    rw [lookUps_append, lookUps_append]
    exact List.rel_append hl hm
  | error hs hm =>
    refine .error hs ?_
    rw [lookUps_append, lookUps_append]
    exact List.rel_append hl hm

variable {x : EStateM Halt σ α} {x' : EStateM Halt σ' α} {f : α → EStateM Halt σ β}
  {f' : α → EStateM Halt σ' β}

theorem bind {next : α → σ → List Event} {next' : α → σ' → List Event}
    (hx : Mirrors S (x s) events (x' s') events')
    (hf : ∀ a s s', S s s' → Mirrors S (f a s) (next a s) (f' a s') (next' a s')) :
    Mirrors S ((x >>= f) s) (followed events (x s) next)
      ((x' >>= f') s') (followed events' (x' s') next') := by
  generalize hr : x s = r at hx
  generalize hr' : x' s' = r' at hx
  cases hx with
  | tooDeep =>
    rw [bind_of_error hr]
    exact .tooDeep
  | ok hs hl =>
    rw [bind_of_ok hr, bind_of_ok hr']
    exact (hf _ _ _ hs).prepend hl
  | error hs hl =>
    rw [bind_of_error hr, bind_of_error hr']
    refine .error hs ?_
    rw [followed, followed, List.append_nil, List.append_nil]
    exact hl

/-- A step without events leaves the events as they are. -/
theorem bind_quiet (hx : Mirrors S (x s) events (x' s') events')
    (hf : ∀ a s s', S s s' → Mirrors S (f a s) [] (f' a s') []) :
    Mirrors S ((x >>= f) s) events ((x' >>= f') s') events' := by
  have h : Mirrors S ((x >>= f) s) (followed events (x s) fun _ _ => []) ((x' >>= f') s')
      (followed events' (x' s') fun _ _ => []) := hx.bind hf
  rw [followed_nil, followed_nil] at h
  exact h

/-- States may be taken for others that are related. -/
theorem mono {r : EStateM.Result Halt σ α} {r' : EStateM.Result Halt σ' α} {T : σ → σ' → Prop}
    (h : Mirrors S r events r' events') (hST : ∀ s s', S s s' → T s s') :
    Mirrors T r events r' events' := by
  cases h with
  | tooDeep => exact .tooDeep
  | ok hs hl => exact .ok (hST _ _ hs) hl
  | error hs hl => exact .error (hST _ _ hs) hl

/-- With equal states, the runs come to one end with the same look-ups, unless the first is nested
too deep. -/
theorem eq {r r' : EStateM.Result Halt σ α} (h : Mirrors Eq r events r' events')
    (runs : ∀ s, r ≠ .error .tooDeep s) :
    r = r' ∧ List.Forall₂ SameLookUp (lookUps events) (lookUps events') := by
  cases h with
  | tooDeep => exact absurd rfl (runs _)
  | ok hs hl => exact ⟨congrArg _ hs, hl⟩
  | error hs hl => exact ⟨congrArg _ hs, hl⟩

end Mirrors

/-! ## Expressions -/

section

variable {j d k n : Nat} {c c' : Chain} {context context' : Context}

theorem mirrors_read (hkn : k ≤ n) (name : Token) (h : Chain.Padded j d c c') :
    Mirrors (Chain.Padded j d) (Evaluation.read k name c)
      (if k < c.reach name.lexeme then [] else [.read context name c])
      (Evaluation.read n name c')
      (if n < c'.reach name.lexeme then [] else [.read context' name c']) := by
  have hreach := h.reach_le name.lexeme
  rw [Evaluation.read_apply, Evaluation.read_apply, h.get?]
  by_cases hk : k < c.reach name.lexeme
  · rw [if_pos hk]
    exact .tooDeep
  · have hn : ¬ n < c'.reach name.lexeme := by omega
    rw [if_neg hk, if_neg hk, if_neg hn, if_neg hn]
    have hl : List.Forall₂ SameLookUp [(name, c)] [(name, c')] := .cons (h.sameLookUp name) .nil
    cases c'.get? name.lexeme with
    | some v => exact .ok h hl
    | none => exact .error h hl

theorem mirrors_write (hkn : k ≤ n) (name : Token) (v : Value) (h : Chain.Padded j d c c') :
    Mirrors (Chain.Padded j d) (Evaluation.write k name v c)
      (if k < c.reach name.lexeme then [] else [.assign context name v c])
      (Evaluation.write n name v c')
      (if n < c'.reach name.lexeme then [] else [.assign context' name v c']) := by
  have hreach := h.reach_le name.lexeme
  rw [Evaluation.write_apply, Evaluation.write_apply]
  by_cases hk : k < c.reach name.lexeme
  · rw [if_pos hk]
    exact .tooDeep
  · have hn : ¬ n < c'.reach name.lexeme := by omega
    rw [if_neg hk, if_neg hk, if_neg hn, if_neg hn]
    have hl : List.Forall₂ SameLookUp [(name, c)] [(name, c')] := .cons (h.sameLookUp name) .nil
    rcases h.assign? name.lexeme v with ⟨hc, hc'⟩ | ⟨e, e', hc, hc', he⟩
    · rw [hc, hc']
      exact .error h hl
    · rw [hc, hc']
      exact .ok he hl

theorem mirrors_ofOperator (result : Except Failure Value) (h : Chain.Padded j d c c') :
    Mirrors (Chain.Padded j d) (Evaluation.ofOperator result c) []
      (Evaluation.ofOperator result c') [] := by
  cases result with
  | ok v => exact .pure h
  | error f => exact .throw h

/-- An expression does not see empty scopes. -/
theorem Expr.mirrors_evaluate (hkn : k ≤ n) (e : Expr) (h : Chain.Padded j d c c') :
    Mirrors (Chain.Padded j d) (e.evaluate k c) (e.trace context k c)
      (e.evaluate n c') (e.trace context' n c') := by
  induction k generalizing n e c c' with
  | zero => exact .tooDeep
  | succ k ih =>
    obtain ⟨n, rfl⟩ : ∃ more, n = more + 1 := ⟨n - 1, by omega⟩
    have hkn : k ≤ n := by omega
    cases e with
    | literal v => exact .pure h
    | grouping e => exact ih hkn e h
    | reference name => exact mirrors_read hkn name h
    | assign name e =>
      refine (ih hkn e h).bind fun v c c' hc => ?_
      exact (mirrors_write hkn name v hc).bind_quiet fun _ _ _ => .pure
    | unary operator e =>
      exact (ih hkn e h).bind_quiet fun v _ _ => mirrors_ofOperator (Operator.unary operator v)
    | binary left operator right =>
      refine (ih hkn left h).bind fun a c c' hc => ?_
      exact (ih hkn right hc).bind_quiet fun b _ _ =>
        mirrors_ofOperator (Operator.binary operator a b)
    | logical left operator right =>
      refine (ih hkn left h).bind fun a c c' hc => ?_
      cases decidesLogical operator a with
      | true => exact .pure hc
      | false => exact ih hkn right hc
    | misfit node => exact .throw h

end

/-! ## Statements -/

/-- The machines have printed the same, and the scopes of the first are those of the second with
empty ones put in. -/
structure Machine.Padded (j d : Nat) (m m' : Machine) : Prop where
  scopes : Chain.Padded j d m.scopes m'.scopes
  printed : m.printed = m'.printed

namespace Machine.Padded

variable {j d : Nat} {m m' : Machine}

theorem refl (m : Machine) : m.Padded 0 0 m := ⟨.here, rfl⟩

/-- With no scope put in the machines are one. -/
theorem eq (h : m.Padded 0 d m') : m = m' := by
  obtain ⟨scopes, printed⟩ := m
  obtain ⟨scopes', printed'⟩ := m'
  obtain ⟨hscopes, rfl⟩ := h
  obtain rfl : scopes = scopes' := hscopes.eq
  rfl

theorem leave (h : m.Padded j (d + 1) m') : (m.apply .leave).Padded j d (m'.apply .leave) :=
  ⟨h.scopes.tail, h.printed⟩

/-- One of the scopes put in is left. -/
theorem leave_left (h : m.Padded (j + 1) 0 m') : (m.apply .leave).Padded j 0 m' :=
  ⟨h.scopes.tail_empty, h.printed⟩

end Machine.Padded

namespace Execution

variable {j d k n : Nat} {m m' : Machine} {context context' : Context}

theorem mirrors_value (hkn : k ≤ n) (e : Expr) (h : m.Padded j d m') :
    Mirrors (Machine.Padded j d) (value k e m) (e.trace context k m.scopes)
      (value n e m') (e.trace context' n m'.scopes) := by
  have hmirrors : Mirrors (Chain.Padded j d) (e.evaluate k m.scopes) (e.trace context k m.scopes)
      (e.evaluate n m'.scopes) (e.trace context' n m'.scopes) := e.mirrors_evaluate hkn h.scopes
  unfold value
  generalize e.evaluate k m.scopes = r at hmirrors
  generalize e.evaluate n m'.scopes = r' at hmirrors
  cases hmirrors with
  | tooDeep => exact .tooDeep
  | ok hs hl => exact .ok ⟨hs, h.printed⟩ hl
  | error hs hl => exact .error ⟨hs, h.printed⟩ hl

theorem mirrors_holds (hkn : k ≤ n) (e : Expr) (h : m.Padded j d m') :
    Mirrors (Machine.Padded j d) (holds k e m) (e.trace context k m.scopes)
      (holds n e m') (e.trace context' n m'.scopes) :=
  (mirrors_value hkn e h).bind_quiet fun _ _ _ => .pure

theorem mirrors_emit (v : Value) (h : m.Padded j d m') :
    Mirrors (Machine.Padded j d) (emit v m) [.emit v] (emit v m') [.emit v] := by
  cases ht : v.text? with
  | some line =>
    rw [emit_of_text ht, emit_of_text ht]
    exact .ok ⟨h.scopes, congrArg (·.push line) h.printed⟩ .nil
  | none =>
    rw [emit_of_no_text ht, emit_of_no_text ht]
    exact .error h .nil

theorem mirrors_define (name : String) (v : Value) (hd : 0 < d ∨ j = 0) (h : m.Padded j d m') :
    Mirrors (Machine.Padded j d) (define name v m) [.define name v]
      (define name v m') [.define name v] :=
  .ok ⟨h.scopes.define hd name v, h.printed⟩ .nil

section

variable {S T : Machine → Machine → Prop} {body body' : Execution Unit}
  {events events' : List Event}

/-- Entering and leaving look nothing up. -/
theorem lookUps_enter_leave (events : List Event) :
    lookUps (.enter :: events ++ [.leave]) = lookUps events := by
  rw [lookUps_append]
  exact List.append_nil _

/-- Both runs enter a scope of their own. -/
theorem mirrors_inNewScope
    (h : Mirrors S (body { m with scopes := {} :: m.scopes }) events
      (body' { m' with scopes := {} :: m'.scopes }) events')
    (leave : ∀ m m', S m m' → T (m.apply .leave) (m'.apply .leave)) :
    Mirrors T (inNewScope body m) (.enter :: events ++ [.leave])
      (inNewScope body' m') (.enter :: events' ++ [.leave]) := by
  unfold inNewScope
  generalize body { m with scopes := {} :: m.scopes } = r at h
  generalize body' { m' with scopes := {} :: m'.scopes } = r' at h
  cases h with
  | tooDeep => exact .tooDeep
  | ok hs hl =>
    refine .ok (leave _ _ hs) ?_
    rwa [lookUps_enter_leave, lookUps_enter_leave]
  | error hs hl =>
    refine .error (leave _ _ hs) ?_
    rwa [lookUps_enter_leave, lookUps_enter_leave]

/-- Only the first run enters a scope of its own. -/
theorem mirrors_inNewScope_left {r' : EStateM.Result Halt Machine Unit}
    (h : Mirrors S (body { m with scopes := {} :: m.scopes }) events r' events')
    (leave : ∀ m m', S m m' → T (m.apply .leave) m') :
    Mirrors T (inNewScope body m) (.enter :: events ++ [.leave]) r' events' := by
  unfold inNewScope
  generalize body { m with scopes := {} :: m.scopes } = r at h
  cases h with
  | tooDeep => exact .tooDeep
  | ok hs hl =>
    refine .ok (leave _ _ hs) ?_
    rwa [lookUps_enter_leave]
  | error hs hl =>
    refine .error (leave _ _ hs) ?_
    rwa [lookUps_enter_leave]

theorem mirrors_inOrder {run run' : Stmt → Execution Unit}
    {trace trace' : Context → Stmt → Machine → List Event} {ss : List Stmt}
    (hs : ∀ s ∈ ss, ∀ context context' m m', S m m' →
      Mirrors S (run s m) (trace context s m) (run' s m') (trace' context' s m'))
    (h : S m m') :
    Mirrors S (inOrder run ss m) (traceInOrder run trace context ss m)
      (inOrder run' ss m') (traceInOrder run' trace' context' ss m') := by
  induction ss generalizing context context' m m' with
  | nil => exact .pure h
  | cons s ss ih =>
    refine (hs s List.mem_cons_self context context' m m' h).bind fun _ m m' hm => ?_
    exact ih (fun s hmem => hs s (List.mem_cons_of_mem _ hmem)) hm

theorem mirrors_repeatWhile {condition condition' : Execution Bool}
    {traceCondition traceBody traceCondition' traceBody' : Machine → List Event}
    (hc : ∀ m m', S m m' →
      Mirrors S (condition m) (traceCondition m) (condition' m') (traceCondition' m'))
    (hb : ∀ m m', S m m' → Mirrors S (body m) (traceBody m) (body' m') (traceBody' m'))
    (rounds : Nat) (h : S m m') :
    Mirrors S (repeatWhile condition body rounds m)
      (traceWhile condition body traceCondition traceBody rounds m)
      (repeatWhile condition' body' rounds m')
      (traceWhile condition' body' traceCondition' traceBody' rounds m') := by
  induction rounds generalizing m m' with
  | zero => exact .throw h
  | succ rounds ih =>
    refine (hc m m' h).bind fun holding m m' hm => ?_
    cases holding with
    | false => exact .pure hm
    | true => exact (hb m m' hm).bind fun _ m m' hm => ih hm

end

end Execution

theorem Stmt.PlacedAll.of_mem {s : Stmt} {ss : List Stmt} (h : PlacedAll ss) (hs : s ∈ ss) :
    s.Placed := by
  induction ss with
  | nil => exact absurd hs List.not_mem_nil
  | cons other ss ih =>
    rcases List.mem_cons.1 hs with rfl | hs
    · exact h.1
    · exact ih h.2 hs

/-- A statement does not see empty scopes, unless it declares a variable in one of them. -/
theorem Stmt.mirrors_execute (rounds : Nat) {j d k n : Nat} {context context' : Context}
    {s : Stmt} {m m' : Machine} (hkn : k ≤ n) (hs : s.Placed)
    (hv : s.NoVariable ∨ 0 < d ∨ j = 0) (h : m.Padded j d m') :
    Mirrors (Machine.Padded j d) (s.execute rounds k m) (s.trace rounds k context m)
      (s.execute rounds n m') (s.trace rounds n context' m') := by
  -- on the levels, as a block takes two of them at once
  induction k using Nat.strongRecOn generalizing j d n context context' s m m' with
  | ind k ih =>
    cases k with
    | zero => exact .tooDeep
    | succ k =>
    obtain ⟨n, rfl⟩ : ∃ more, n = more + 1 := ⟨n - 1, by omega⟩
    have hkn : k ≤ n := by omega
    cases s with
    | expression e => exact (mirrors_value hkn e h).bind_quiet fun _ _ _ => .pure
    | print e => exact (mirrors_value hkn e h).bind fun v _ _ => mirrors_emit v
    | declare name initializer =>
      have hd : 0 < d ∨ j = 0 := hv.resolve_left id
      cases initializer with
      | none => exact mirrors_define name.lexeme .nil hd h
      | some e =>
        exact (mirrors_value hkn e h).bind fun v _ _ => mirrors_define name.lexeme v hd
    | block body =>
      cases k with
      | zero => exact .tooDeep
      | succ k =>
        obtain ⟨n, rfl⟩ : ∃ more, n = more + 1 := ⟨n - 1, by omega⟩
        have hbody : PlacedAll body := hs
        refine mirrors_inNewScope (S := Machine.Padded j (d + 1)) (mirrors_inOrder
          (fun s hmem _ _ _ _ hm => ?_) ⟨.under h.scopes, h.printed⟩) fun _ _ hm => hm.leave
        exact ih k (by omega) (by omega) (hbody.of_mem hmem) (Or.inr (Or.inl d.succ_pos)) hm
    | ifThen condition thenBranch =>
      refine (mirrors_holds hkn condition h).bind fun holding m m' hm => ?_
      cases holding with
      | false => exact .pure hm
      | true => exact ih k (by omega) hkn hs.2 (Or.inl hs.1) hm
    | ifElse condition thenBranch elseBranch =>
      refine (mirrors_holds hkn condition h).bind fun holding m m' hm => ?_
      cases holding with
      | false => exact ih k (by omega) hkn hs.2.2 (Or.inl hs.2.1) hm
      | true => exact ih k (by omega) hkn hs.1.2 (Or.inl hs.1.1) hm
    | loop condition body =>
      exact mirrors_repeatWhile (fun _ _ hm => mirrors_holds hkn condition hm)
        (fun _ _ hm => ih k (by omega) hkn hs.2 (Or.inl hs.1) hm) rounds h
    | misfit _ => exact .throw h

end Lox
