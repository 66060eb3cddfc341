import Lox.Proofs.Computation
import Lox.Session

/-!
# Rounds

Each loop is given a number of rounds.  A run that ends without using them up ends in the same way
with any more of them (`orStops_execute`).  So a program either is unfinished with any number of
rounds, that is, it runs forever, or from some number on its outcome is the same
(`Session.perform_settles`).
-/

namespace Lox

open Computing Execution

namespace Execution

variable {halt : Halt} {m : Machine}

/-! ## Composed executions up to a halt -/

theorem orStops_inNewScope {body body' : Execution Unit}
    (h : OrStops halt (body { m with scopes := {} :: m.scopes })
      (body' { m with scopes := {} :: m.scopes })) :
    OrStops halt (inNewScope body m) (inNewScope body' m) := by
  unfold inNewScope
  rcases h with h | ⟨m', h⟩
  · rw [h]
    exact .rfl
  · rw [h]
    exact .stop

theorem orStops_inOrder {run run' : Stmt → Execution Unit}
    (h : ∀ s m, OrStops halt (run s m) (run' s m)) (ss : List Stmt) (m : Machine) :
    OrStops halt (inOrder run ss m) (inOrder run' ss m) := by
  induction ss generalizing m with
  | nil => exact .rfl
  | cons s ss ih =>
    unfold inOrder
    exact (h s m).bind fun _ m' _ => ih m'

theorem orStops_repeatWhile {condition : Execution Bool} {body body' : Execution Unit}
    (h : ∀ m, OrStops .unfinished (body m) (body' m)) {rounds rounds' : Nat}
    (hr : rounds ≤ rounds') (m : Machine) :
    OrStops .unfinished (repeatWhile condition body rounds m)
      (repeatWhile condition body' rounds' m) := by
  induction rounds generalizing rounds' m with
  | zero => exact .stop
  | succ rounds ih =>
    obtain ⟨more, rfl⟩ : ∃ more, rounds' = more + 1 := ⟨rounds' - 1, by omega⟩
    unfold repeatWhile
    refine OrStops.rfl.bind fun holds m' _ => ?_
    cases holds with
    | false => exact .rfl
    | true => exact (h m').bind fun _ m'' _ => ih (by omega) m''

end Execution

/-! ## More rounds -/

variable {rounds rounds' : Nat}

/-- A statement that ends within the rounds ends so with more of them. -/
theorem Stmt.orStops_execute (hr : rounds ≤ rounds') (n : Nat) (s : Stmt) (m : Machine) :
    OrStops .unfinished (s.execute rounds n m) (s.execute rounds' n m) := by
  -- On the levels, not on the tree: a block takes two of them at once.
  induction n using Nat.strongRecOn generalizing s m with
  | ind n ih =>
    match n, s with
    | 0, _ => exact .rfl
    | n + 1, .expression _ | n + 1, .print _ | n + 1, .misfit _ => exact .rfl
    | n + 1, .declare _ none | n + 1, .declare _ (some _) => exact .rfl
    | 1, .block _ => exact .rfl
    | n + 2, .block body =>
      exact orStops_inNewScope (orStops_inOrder (ih n (by omega)) body _)
    | n + 1, .ifThen condition thenBranch =>
      refine OrStops.rfl.bind fun holds m' _ => ?_
      cases holds with
      | false => exact .rfl
      | true => exact ih n (by omega) thenBranch m'
    | n + 1, .ifElse condition thenBranch elseBranch =>
      refine OrStops.rfl.bind fun holds m' _ => ?_
      cases holds with
      | false => exact ih n (by omega) elseBranch m'
      | true => exact ih n (by omega) thenBranch m'
    | n + 1, .loop condition body =>
      exact orStops_repeatWhile (ih n (by omega) body) hr m

theorem orStops_execute (hr : rounds ≤ rounds') (program : List Stmt) (m : Machine) :
    OrStops .unfinished (execute rounds program m) (execute rounds' program m) :=
  orStops_inOrder (Stmt.orStops_execute hr nestingLimit) program m

/-! ## Outcomes -/

namespace Session

variable {s : Session} {program : List Stmt}

/-- A run is unfinished just if its execution is. -/
theorem halt?_perform_eq_unfinished :
    (s.perform rounds program).halt? = some .unfinished ↔
      ∃ m, execute rounds program { scopes := [s.globals] } = .error .unfinished m := by
  unfold perform
  cases h : execute rounds program { scopes := [s.globals] } with
  | ok u m => simp [settle]
  | error halt m => cases halt <;> simp [settle, Halt.failure?]

/-- An outcome that is not unfinished stays the same with more rounds. -/
theorem perform_eq_of_le (hr : rounds ≤ rounds')
    (h : (s.perform rounds program).halt? ≠ some .unfinished) :
    s.perform rounds' program = s.perform rounds program := by
  have hex := (orStops_execute hr program { scopes := [s.globals] }).eq fun m hm =>
    h (halt?_perform_eq_unfinished.2 ⟨m, hm⟩)
  unfold perform
  rw [hex]

/-- A program runs forever, or it comes to one outcome with any sufficient number of rounds. -/
theorem perform_settles (s : Session) (program : List Stmt) :
    (∀ rounds, (s.perform rounds program).halt? = some .unfinished) ∨
      ∃ enough, ∀ rounds, enough ≤ rounds →
        s.perform rounds program = s.perform enough program ∧
          (s.perform enough program).halt? ≠ some .unfinished := by
  by_cases h : ∀ rounds, (s.perform rounds program).halt? = some .unfinished
  · exact Or.inl h
  · obtain ⟨enough, he⟩ := Classical.not_forall.1 h
    exact Or.inr ⟨enough, fun rounds hr => ⟨perform_eq_of_le hr he, he⟩⟩

end Session

end Lox
