import Mathlib.Data.List.Forall2
import Lox.Proofs.Run.Trace

/-!
# What a run can change

However a statement ends, it leaves all scopes but the innermost with the names they had, and adds
to the innermost one only names that the statement declares outside of its blocks.  A value can be
another one only if its name is assigned to in the statement, or, in the innermost scope, declared
there (`frame_execute`).  An expression adds no name at all, and neither does a block.
-/

namespace Lox

open Computing Execution

/-! ## Names that are declared and assigned to -/

/-- The names that an expression assigns to. -/
def Expr.assigned : Expr → List String
  | literal _ | reference _ | misfit _ => []
  | grouping e | unary _ e => e.assigned
  | binary a _ b | logical a _ b => a.assigned ++ b.assigned
  | assign name e => name.lexeme :: e.assigned

namespace Stmt

/-- The names that a statement declares in the scope it runs in: those of its variables outside of
its blocks. -/
def declared : Stmt → List String
  | declare name _ => [name.lexeme]
  | ifThen _ thenBranch => thenBranch.declared
  | ifElse _ thenBranch elseBranch => thenBranch.declared ++ elseBranch.declared
  | loop _ body => body.declared
  | expression _ | print _ | block _ | misfit _ => []

mutual

/-- The names that a statement assigns to, in its blocks, too. -/
def assigned : Stmt → List String
  | expression e | print e | declare _ (some e) => e.assigned
  | declare _ none | misfit _ => []
  | block body => assignedAll body
  | ifThen condition thenBranch => condition.assigned ++ thenBranch.assigned
  | ifElse condition thenBranch elseBranch =>
    condition.assigned ++ (thenBranch.assigned ++ elseBranch.assigned)
  | loop condition body => condition.assigned ++ body.assigned

/-- The names that statements assign to. -/
def assignedAll : List Stmt → List String
  | [] => []
  | s :: ss => s.assigned ++ assignedAll ss

end

end Stmt

/-! ## Changes of a scope -/

variable {declared declared' assigned assigned' : List String} {name : String} {v : Value}

/-- The scope has lost no name and got names from `declared` only, and it has the old value of a
name that is neither among these nor among `assigned`. -/
structure Bindings.Changes (declared assigned : List String) (b b' : Bindings) : Prop where
  keeps : ∀ name, b.binds name = true → b'.binds name = true
  adds : ∀ name, b'.binds name = true → b.binds name = true ∨ name ∈ declared
  value : ∀ name, name ∉ declared → name ∉ assigned → b'.get? name = b.get? name

namespace Bindings

variable {b b' b'' : Bindings}

/-- The scope binds the same names as before, with other values at most for names in `assigned`. -/
structure Keeps (assigned : List String) (b b' : Bindings) : Prop where
  binds : ∀ name, b'.binds name = b.binds name
  value : ∀ name, name ∉ assigned → b'.get? name = b.get? name

namespace Changes

theorem refl (b : Bindings) : Changes declared assigned b b where
  keeps _ h := h
  adds _ h := Or.inl h
  value _ _ _ := rfl

theorem trans (h : Changes declared assigned b b') (h' : Changes declared assigned b' b'') :
    Changes declared assigned b b'' where
  keeps name hb := h'.keeps name (h.keeps name hb)
  adds name hb := (h'.adds name hb).elim (h.adds name) Or.inr
  value name hd ha := (h'.value name hd ha).trans (h.value name hd ha)

theorem mono (h : Changes declared assigned b b') (hd : declared ⊆ declared')
    (ha : assigned ⊆ assigned') : Changes declared' assigned' b b' where
  keeps := h.keeps
  adds name hb := (h.adds name hb).imp_right fun hmem => hd hmem
  value name hnd hna := h.value name (fun hmem => hnd (hd hmem)) fun hmem => hna (ha hmem)

/-- Without names to add, just the same names are bound. -/
theorem to_keeps (h : Changes [] assigned b b') : Keeps assigned b b' where
  binds name := by
    rw [Bool.eq_iff_iff]
    exact ⟨fun hb => (h.adds name hb).resolve_right List.not_mem_nil, h.keeps name⟩
  value name hna := h.value name List.not_mem_nil hna

/-- Binding a name anew changes its value, and adds it if it is among `declared`. -/
theorem define (b : Bindings) (v : Value) (hname : name ∈ declared ∨ b.binds name = true)
    (hmem : name ∈ declared ∨ name ∈ assigned) :
    Changes declared assigned b (b.define name v) where
  keeps other hb := by rw [binds_define, hb, Bool.or_true]
  adds other hb := by
    rw [binds_define, Bool.or_eq_true, decide_eq_true_iff] at hb
    rcases hb with rfl | hb
    · exact hname.symm
    · exact Or.inl hb
  value other hnd hna := by
    have hne : other ≠ name := by
      rintro rfl
      exact hmem.elim hnd hna
    rw [get?_define, if_neg hne]

end Changes

end Bindings

/-! ## Changes of a chain -/

namespace Chain

variable {c c' c'' : Chain}

/-- No scope has got or lost a name. -/
def Preserves (assigned : List String) (c c' : Chain) : Prop :=
  List.Forall₂ (Bindings.Changes [] assigned) c c'

/-- The innermost scope may have got names from `declared`, and no other scope has got or lost
one. -/
inductive Changes (declared assigned : List String) : Chain → Chain → Prop
  | nil : Changes declared assigned [] []
  | cons {b b' outer outer'} (inner : b.Changes declared assigned b')
      (rest : Preserves assigned outer outer') :
      Changes declared assigned (b :: outer) (b' :: outer')

theorem Preserves.refl (c : Chain) : Preserves assigned c c :=
  List.forall₂_same.2 fun b _ => .refl b

theorem Preserves.trans (h : Preserves assigned c c') (h' : Preserves assigned c' c'') :
    Preserves assigned c c'' := by
  induction h generalizing c'' with
  | nil => exact h'
  | cons hb _ ih =>
    cases h' with
    | cons hb' h' => exact .cons (hb.trans hb') (ih h')

theorem Preserves.mono (h : Preserves assigned c c') (ha : assigned ⊆ assigned') :
    Preserves assigned' c c' :=
  List.Forall₂.imp (fun _ _ hb => hb.mono (List.Subset.refl []) ha) h

theorem Preserves.changes (h : Preserves assigned c c') : Changes declared assigned c c' := by
  cases h with
  | nil => exact .nil
  | cons hb ho => exact .cons (hb.mono (List.nil_subset _) (List.Subset.refl _)) ho

theorem Preserves.keeps (h : Preserves assigned c c') :
    List.Forall₂ (Bindings.Keeps assigned) c c' :=
  List.Forall₂.imp (fun _ _ hb => hb.to_keeps) h

namespace Changes

theorem refl (c : Chain) : Changes declared assigned c c := (Preserves.refl c).changes

theorem trans (h : Changes declared assigned c c') (h' : Changes declared assigned c' c'') :
    Changes declared assigned c c'' := by
  cases h with
  | nil => exact h'
  | cons hb ho =>
    cases h' with
    | cons hb' ho' => exact .cons (hb.trans hb') (ho.trans ho')

theorem mono (h : Changes declared assigned c c') (hd : declared ⊆ declared')
    (ha : assigned ⊆ assigned') : Changes declared' assigned' c c' := by
  cases h with
  | nil => exact .nil
  | cons hb ho => exact .cons (hb.mono hd ha) (ho.mono ha)

theorem tail (h : Changes declared assigned c c') : Preserves assigned c.tail c'.tail := by
  cases h with
  | nil => exact .nil
  | cons _ ho => exact ho

end Changes

theorem preserves_assign? (hmem : name ∈ assigned) (hc : c.assign? name v = some c') :
    Preserves assigned c c' := by
  induction c generalizing c' with
  | nil => cases hc
  | cons b outer ih =>
    unfold assign? at hc
    split at hc
    next hb =>
      obtain rfl := Option.some.inj hc
      exact .cons (.define b v (Or.inr hb) (Or.inr hmem)) (Preserves.refl outer)
    next =>
      obtain ⟨outer', ho, rfl⟩ := Option.map_eq_some_iff.1 hc
      exact .cons (.refl b) (ih ho)

theorem changes_define (c : Chain) (v : Value) (hmem : name ∈ declared) :
    Changes declared assigned c (c.define name v) := by
  cases c with
  | nil => exact .nil
  | cons b outer => exact .cons (.define b v (Or.inl hmem) (Or.inl hmem)) (Preserves.refl outer)

end Chain

/-! ## Computations that keep to their names -/

variable {α β : Type} {n rounds : Nat}

/-- However the evaluation ends, no scope has got or lost a name. -/
def Evaluation.Preserves (assigned : List String) (x : Evaluation α) : Prop :=
  ∀ c, Chain.Preserves assigned c (endState (x c))

theorem Evaluation.Preserves.bind {x : Evaluation α} {f : α → Evaluation β}
    (hx : Preserves assigned x) (hf : ∀ a, Preserves assigned (f a)) :
    Preserves assigned (x >>= f) :=
  fun c => endState_bind_of_trans Chain.Preserves.trans (hx c) fun a c' _ => hf a c'

theorem Evaluation.Preserves.mono {x : Evaluation α} (h : Preserves assigned x)
    (ha : assigned ⊆ assigned') : Preserves assigned' x :=
  fun c => (h c).mono ha

/-- However the execution ends, the scopes have changed in these names only. -/
def Execution.Changes (declared assigned : List String) (x : Execution α) : Prop :=
  ∀ m, Chain.Changes declared assigned m.scopes (endState (x m)).scopes

namespace Execution.Changes

variable {x : Execution α} {f : α → Execution β}

theorem bind (hx : Changes declared assigned x) (hf : ∀ a, Changes declared assigned (f a)) :
    Changes declared assigned (x >>= f) := fun m =>
  endState_bind_of_trans (R := fun m m' => m.scopes.Changes declared assigned m'.scopes)
    Chain.Changes.trans (hx m) fun a m' _ => hf a m'

theorem mono (h : Changes declared assigned x) (hd : declared ⊆ declared')
    (ha : assigned ⊆ assigned') : Changes declared' assigned' x :=
  fun m => (h m).mono hd ha

theorem pure (a : α) : Changes declared assigned (pure a) := fun m => .refl m.scopes

theorem throw (halt : Halt) : Changes declared assigned (throw halt : Execution α) :=
  fun m => .refl m.scopes

theorem emit (v : Value) : Changes declared assigned (emit v) := fun m => by
  rw [endState_emit]
  exact .refl m.scopes

theorem define (v : Value) (hmem : name ∈ declared) :
    Changes declared assigned (define name v) :=
  fun m => m.scopes.changes_define v hmem

end Execution.Changes

/-! ## Expressions -/

theorem preserves_write (n : Nat) {name : Token} (v : Value) (hmem : name.lexeme ∈ assigned) :
    Evaluation.Preserves assigned (Evaluation.write n name v) := by
  intro c
  rw [endState_write]
  split
  · exact .refl c
  · cases hc : c.assign? name.lexeme v with
    | none => exact .refl c
    | some c' => exact Chain.preserves_assign? hmem hc

/-- An expression changes the values of names it assigns to, and nothing else. -/
theorem Expr.preserves_evaluate (n : Nat) (e : Expr) :
    Evaluation.Preserves e.assigned (e.evaluate n) := by
  induction n generalizing e with
  | zero => exact fun c => .refl c
  | succ n ih =>
    cases e with
    | literal v => exact fun c => .refl c
    | grouping e => exact ih e
    | reference name =>
      intro c
      have hend : endState (evaluate (n + 1) (.reference name) c) = c := endState_read n name c
      rw [hend]
      exact .refl c
    | assign name e =>
      refine ((ih e).mono (List.subset_cons_self _ _)).bind fun v => ?_
      exact (preserves_write n v List.mem_cons_self).bind fun _ c => .refl c
    | unary operator e =>
      refine (ih e).bind fun v c => ?_
      rw [endState_ofOperator]
      exact .refl c
    | binary a operator b =>
      refine ((ih a).mono (List.subset_append_left _ _)).bind fun u => ?_
      refine ((ih b).mono (List.subset_append_right _ _)).bind fun v c => ?_
      rw [endState_ofOperator]
      exact .refl c
    | logical a operator b =>
      refine ((ih a).mono (List.subset_append_left _ _)).bind fun u => ?_
      split
      · exact fun c => .refl c
      · exact (ih b).mono (List.subset_append_right _ _)
    | misfit node => exact fun c => .refl c

/-! ## Statements -/

namespace Execution

theorem changes_value (n : Nat) (e : Expr) : Changes declared e.assigned (value n e) := by
  intro m
  rw [endState_value]
  exact (e.preserves_evaluate n m.scopes).changes

theorem changes_holds (n : Nat) (e : Expr) : Changes declared e.assigned (holds n e) :=
  (changes_value n e).bind fun _ => .pure _

/-- A new scope is gone in the end, so whatever was declared in it is, too. -/
theorem preserves_inNewScope {body : Execution Unit} (h : Changes declared assigned body)
    (m : Machine) : Chain.Preserves assigned m.scopes (endState (inNewScope body m)).scopes := by
  rw [endState_inNewScope]
  exact (h { m with scopes := {} :: m.scopes }).tail

theorem changes_repeatWhile {condition : Execution Bool} {body : Execution Unit}
    (hc : Changes declared assigned condition) (hb : Changes declared assigned body)
    (rounds : Nat) : Changes declared assigned (repeatWhile condition body rounds) := by
  induction rounds with
  | zero => exact .throw _
  | succ rounds ih =>
    refine hc.bind fun holds => ?_
    cases holds with
    | false => exact .pure ()
    | true => exact hb.bind fun _ => ih

theorem changes_inOrder {run : Stmt → Execution Unit}
    (h : ∀ s : Stmt, Changes s.declared s.assigned (run s)) (ss : List Stmt) :
    Changes (ss.flatMap Stmt.declared) (Stmt.assignedAll ss) (inOrder run ss) := by
  induction ss with
  | nil => exact .pure ()
  | cons s ss ih =>
    refine ((h s).mono (List.subset_append_left _ _) (List.subset_append_left _ _)).bind fun _ => ?_
    exact ih.mono (List.subset_append_right _ _) (List.subset_append_right _ _)

end Execution

/-- A block changes the values of names assigned to in it and nothing else, if each statement
changes what its names allow. -/
theorem Stmt.preserves_block (h : ∀ s : Stmt, Changes s.declared s.assigned (s.execute rounds n))
    (body : List Stmt) (m : Machine) :
    Chain.Preserves (assignedAll body) m.scopes
      (endState (execute rounds (n + 2) (.block body) m)).scopes :=
  preserves_inNewScope (changes_inOrder h body) m

/-- A statement changes what its names allow, however it ends. -/
theorem Stmt.changes_execute (rounds n : Nat) (s : Stmt) :
    Changes s.declared s.assigned (s.execute rounds n) := by
  induction n using Nat.strongRecOn generalizing s with
  | ind n ih =>
    match n, s with
    | 0, _ => exact .throw _
    | n + 1, .expression e => exact (changes_value n e).bind fun _ => .pure ()
    | n + 1, .print e => exact (changes_value n e).bind fun v => .emit v
    | n + 1, .declare name none => exact .define .nil List.mem_cons_self
    | n + 1, .declare name (some e) =>
      exact (changes_value n e).bind fun v => .define v List.mem_cons_self
    | 1, .block _ => exact .throw _
    | n + 2, .block body => exact fun m => (preserves_block (ih n (by omega)) body m).changes
    | n + 1, .ifThen condition thenBranch =>
      refine ((changes_holds n condition).mono (List.Subset.refl _)
        (List.subset_append_left _ _)).bind fun holds => ?_
      cases holds with
      | false => exact .pure ()
      | true =>
        exact (ih n (by omega) thenBranch).mono (List.Subset.refl _) (List.subset_append_right _ _)
    | n + 1, .ifElse condition thenBranch elseBranch =>
      refine ((changes_holds n condition).mono (List.Subset.refl _)
        (List.subset_append_left _ _)).bind fun holds => ?_
      have hbranches : thenBranch.assigned ++ elseBranch.assigned ⊆
          (ifElse condition thenBranch elseBranch).assigned := List.subset_append_right _ _
      cases holds with
      | false =>
        exact (ih n (by omega) elseBranch).mono (List.subset_append_right _ _)
          (List.Subset.trans (List.subset_append_right _ _) hbranches)
      | true =>
        exact (ih n (by omega) thenBranch).mono (List.subset_append_left _ _)
          (List.Subset.trans (List.subset_append_left _ _) hbranches)
    | n + 1, .loop condition body =>
      exact changes_repeatWhile
        ((changes_holds n condition).mono (List.Subset.refl _) (List.subset_append_left _ _))
        ((ih n (by omega) body).mono (List.Subset.refl _) (List.subset_append_right _ _)) rounds
    | n + 1, .misfit node => exact .throw _

theorem Stmt.preserves_execute_block (rounds n : Nat) (body : List Stmt) (m : Machine) :
    Chain.Preserves (assignedAll body) m.scopes
      (endState (execute rounds n (.block body) m)).scopes := by
  match n with
  | 0 | 1 => exact .refl m.scopes
  | n + 2 => exact preserves_block (changes_execute rounds n) body m

/-- A run touches only the scopes and names it should, however it ends: well, with a failure, at a
misfit, at the limit on nesting, or with its rounds used up.  The scopes of the machine are all
there are.  A statement adds to the scope it runs in the names it declares outside of its blocks and
no others; the scopes outward bind the same names as before; and a value is the old one unless its
name is assigned to in the statement or, in the innermost scope, is among those declared.
Evaluating an expression and running a block leave every scope with just the names it had. -/
theorem frame_execute (rounds n : Nat) (inner : Bindings) (outer : Chain)
    (printed : Array String) :
    (∀ s : Stmt, ∃ inner' outer',
      (endState (s.execute rounds n ⟨inner :: outer, printed⟩)).scopes = inner' :: outer' ∧
        inner.Changes s.declared s.assigned inner' ∧
        List.Forall₂ (Bindings.Keeps s.assigned) outer outer') ∧
      (∀ e : Expr, List.Forall₂ (Bindings.Keeps e.assigned) (inner :: outer)
        (endState (e.evaluate n (inner :: outer)))) ∧
      ∀ body, List.Forall₂ (Bindings.Keeps (Stmt.assignedAll body)) (inner :: outer)
        (endState ((Stmt.block body).execute rounds n ⟨inner :: outer, printed⟩)).scopes := by
  refine ⟨fun s => ?_, fun e => ?_, fun body => ?_⟩
  · have h := s.changes_execute rounds n ⟨inner :: outer, printed⟩
    generalize (endState (s.execute rounds n ⟨inner :: outer, printed⟩)).scopes = c' at h
    cases h with
    | cons hinner houter => exact ⟨_, _, rfl, hinner, houter.keeps⟩
  · exact (e.preserves_evaluate n _).keeps
  · exact (Stmt.preserves_execute_block rounds n body ⟨inner :: outer, printed⟩).keeps

end Lox
