import Lox.Proofs.Grammar.Sound
import Lox.Proofs.Run.Padding

/-!
# For loops

A `for` loop is read as other statements: a block with the initializer and a loop, and the body of
that loop is a block with the body and the increment.  Run like this it does what its clauses say,
one after the other (`ForLoop.runs_directly_of_readFor`).  The block around body and increment opens
a scope in each round that the direct loop does not have; as a body is never a bare variable, that
scope stays empty, and no look-up can tell.
-/

namespace Lox

open Computing Execution Grammar

/-- The clauses of a `for` loop, of which each may be missing, and its body. -/
structure ForLoop where
  initializer : Option Stmt
  condition : Option Expr
  increment : Option Expr
  body : Stmt

namespace ForLoop

/-! ## Direct runs -/

section

variable (rounds levels : Nat) (context : Context) (l : ForLoop)

/-- The statement that the loop is read as. -/
def tree : Stmt := .forLoop l.initializer l.condition l.increment l.body

/-- Does the condition hold?  A missing one always does. -/
def condHolds : Execution Bool :=
  match l.condition with
  | none => pure true
  | some e => holds levels e

/-- Runs the body, and then evaluates the increment. -/
def round : Execution Unit :=
  match l.increment with
  | none => l.body.execute rounds levels
  | some e => do
    l.body.execute rounds levels
    discard (value levels e)

/-- Runs the rounds of the loop as long as the condition holds. -/
def repeated : Execution Unit :=
  repeatWhile (l.condHolds levels) (l.round rounds levels) rounds

/-- Runs the loop by its clauses.  An initializer has a new scope, in which it runs first. -/
def run : Execution Unit :=
  match l.initializer with
  | none => l.repeated rounds levels
  | some s => inNewScope do
    s.execute rounds levels
    l.repeated rounds levels

/-! ### Their traces -/

/-- The trace of the condition. -/
def traceCondition (m : Machine) : List Event :=
  match l.condition with
  | none => []
  | some e => e.trace context levels m.scopes

/-- The trace of a round. -/
def traceRound (m : Machine) : List Event :=
  match l.increment with
  | none => l.body.trace rounds levels context m
  | some e =>
    followed (l.body.trace rounds levels context m) (l.body.execute rounds levels m) fun _ m =>
      e.trace context levels m.scopes

/-- The trace of the rounds. -/
def traceRepeated (m : Machine) : List Event :=
  traceWhile (l.condHolds levels) (l.round rounds levels) (l.traceCondition levels context)
    (l.traceRound rounds levels context) rounds m

/-- The trace of the loop when it runs by its clauses. -/
def trace (m : Machine) : List Event :=
  match l.initializer with
  | none => l.traceRepeated rounds levels context m
  | some s =>
    let inner : Machine := { m with scopes := {} :: m.scopes }
    .enter :: followed (s.trace rounds levels ([] :: context) inner) (s.execute rounds levels inner)
      (fun _ m => l.traceRepeated rounds levels (Context.after ([] :: context) s) m) ++ [.leave]

end

variable {rounds levels k n : Nat} {context context' : Context} {l : ForLoop} {m : Machine}

theorem replays_condition (l : ForLoop) (m : Machine) :
    Replays m (l.traceCondition levels context m) (endState (l.condHolds levels m)) := by
  unfold traceCondition condHolds
  cases l.condition with
  | none => exact .nil
  | some e => exact replays_holds context levels e m

theorem replays_round (l : ForLoop) (m : Machine) :
    Replays m (l.traceRound rounds levels context m) (endState (l.round rounds levels m)) := by
  unfold traceRound round
  cases l.increment with
  | none => exact l.body.replays_trace rounds levels context m
  | some e =>
    refine Replays.followed id (l.body.replays_trace rounds levels context m) fun _ m' _ => ?_
    exact (endState_map (x := value levels e) (s := m') _).symm ▸ replays_value context levels e m'

theorem replays_repeated (l : ForLoop) (m : Machine) :
    Replays m (l.traceRepeated rounds levels context m) (endState (l.repeated rounds levels m)) :=
  replays_repeatWhile l.replays_condition l.replays_round rounds m

/-- The trace is all there is to the run by the clauses. -/
theorem replays_trace (l : ForLoop) (m : Machine) :
    Replays m (l.trace rounds levels context m) (endState (l.run rounds levels m)) := by
  unfold trace run
  cases l.initializer with
  | none => exact l.replays_repeated m
  | some s =>
    dsimp only
    rw [endState_inNewScope]
    refine .cons trivial (.append ?_ (.single trivial))
    exact Replays.followed id (s.replays_trace rounds levels _ _) fun _ m' _ =>
      l.replays_repeated m'

/-! ## The tree runs like the loop -/

/-- A machine without scopes put in is the same machine. -/
theorem mirrors_of_padded {α : Type} {d : Nat} {r r' : EStateM.Result Halt Machine α}
    {events events' : List Event} (h : Mirrors (Machine.Padded 0 d) r events r' events') :
    Mirrors Eq r events r' events' := h.mono fun _ _ hm => hm.eq

/-- One statement in order is the statement. -/
theorem inOrder_singleton (run : Stmt → Execution Unit) (s : Stmt) : inOrder run [s] = run s :=
  bind_pure_unit

theorem traceInOrder_singleton (run : Stmt → Execution Unit)
    (trace : Context → Stmt → Machine → List Event) (s : Stmt) (m : Machine) :
    traceInOrder run trace context [s] m = trace context s m := followed_nil _ _

/-- The condition of the tree; a missing one is the literal that is true. -/
def treeCondition (l : ForLoop) : Expr := l.condition.getD (.literal (.bool true))

/-- The body of the tree: a block with the body and the increment, if there is one. -/
def treeBody (l : ForLoop) : Stmt :=
  match l.increment with
  | none => l.body
  | some e => .block [l.body, .expression e]

theorem mirrors_condition (hkn : k ≤ n) (l : ForLoop) (m : Machine) :
    Mirrors Eq (holds k l.treeCondition m) (l.treeCondition.trace context k m.scopes)
      (l.condHolds n m) (l.traceCondition n context' m) := by
  unfold treeCondition condHolds traceCondition
  cases l.condition with
  | none =>
    cases k with
    | zero => exact .tooDeep
    | succ k => exact .ok rfl .nil
  | some e => exact mirrors_of_padded (mirrors_holds hkn e (.refl m))

/-- In the scope of its own, the body and the increment run as they would without it. -/
theorem mirrors_inOrder_round (hkn : k ≤ n) {e : Expr} {body : Stmt}
    (hb : body.NoVariable ∧ body.Placed) (m : Machine) :
    Mirrors (Machine.Padded 1 0)
      (inOrder (Stmt.execute rounds k) [body, .expression e] { m with scopes := {} :: m.scopes })
      (traceInOrder (Stmt.execute rounds k) (Stmt.trace rounds k) context [body, .expression e]
        { m with scopes := {} :: m.scopes })
      ((do body.execute rounds n; discard (value n e) : Execution Unit) m)
      (followed (body.trace rounds n context' m) (body.execute rounds n m) fun _ m =>
        e.trace context' n m.scopes) := by
  have hm : Machine.Padded 1 0 { m with scopes := {} :: m.scopes } m := ⟨.here, rfl⟩
  refine (body.mirrors_execute rounds hkn hb.2 (Or.inl hb.1) hm).bind fun _ m m' hm => ?_
  rw [inOrder_singleton, traceInOrder_singleton]
  cases k with
  | zero => exact .tooDeep
  | succ k => exact (mirrors_value (by omega) e hm).bind_quiet fun _ _ _ => .pure

/-- A round of the tree is a round of the loop: the scope in which the tree runs it stays empty. -/
theorem mirrors_round (hkn : k ≤ n) (hb : l.body.NoVariable ∧ l.body.Placed) (m : Machine) :
    Mirrors Eq (l.treeBody.execute rounds k m) (l.treeBody.trace rounds k context m)
      (l.round rounds n m) (l.traceRound rounds n context' m) := by
  unfold treeBody round traceRound
  cases l.increment with
  | none =>
    exact mirrors_of_padded (l.body.mirrors_execute rounds hkn hb.2 (Or.inl hb.1) (.refl m))
  | some e =>
    match k with
    | 0 => exact .tooDeep
    | 1 => exact .tooDeep
    | k + 2 =>
      exact mirrors_inNewScope_left (mirrors_inOrder_round (by omega) hb m) fun _ _ hm =>
        hm.leave_left.eq

theorem mirrors_repeated (hkn : k ≤ n) (hb : l.body.NoVariable ∧ l.body.Placed) (m : Machine) :
    Mirrors Eq ((Stmt.loop l.treeCondition l.treeBody).execute rounds k m)
      ((Stmt.loop l.treeCondition l.treeBody).trace rounds k context m)
      (l.repeated rounds n m) (l.traceRepeated rounds n context' m) := by
  cases k with
  | zero => exact .tooDeep
  | succ k =>
    refine mirrors_repeatWhile ?_ ?_ rounds rfl
    · rintro m _ rfl
      exact l.mirrors_condition (by omega) m
    · rintro m _ rfl
      exact mirrors_round (by omega) hb m

/-- The tree does what the loop does by its clauses, with at least as many levels left. -/
theorem mirrors_tree (hkn : k ≤ n) (hi : ∀ s ∈ l.initializer, s.Placed)
    (hb : l.body.NoVariable ∧ l.body.Placed) (m : Machine) :
    Mirrors Eq (l.tree.execute rounds k m) (l.tree.trace rounds k context m)
      (l.run rounds n m) (l.trace rounds n context' m) := by
  have hwhole : l.tree = match l.initializer with
      | none => .loop l.treeCondition l.treeBody
      | some s => .block [s, .loop l.treeCondition l.treeBody] := rfl
  rw [hwhole]
  unfold run trace
  cases hinitializer : l.initializer with
  | none => exact mirrors_repeated hkn hb m
  | some s =>
    match k with
    | 0 => exact .tooDeep
    | 1 => exact .tooDeep
    | k + 2 =>
      refine mirrors_inNewScope (S := Eq) (Mirrors.bind ?_ ?_) fun _ _ hm => hm ▸ rfl
      · exact mirrors_of_padded (s.mirrors_execute rounds (by omega) (hi s hinitializer)
          (Or.inr (Or.inr rfl)) (.refl _))
      · rintro _ m _ rfl
        rw [inOrder_singleton, traceInOrder_singleton]
        exact mirrors_repeated (by omega) hb m

/-! ## For loops that are read -/

/-- The first tokens, from the parenthesis on, are the clauses and the body of the loop, and the
last ones are what is behind it. -/
inductive Phrase : List Token → ForLoop → List Token → Prop
  | mk {p ts initializer us condition close vs increment r ws dangling body rs}
      (hp : p.kind = .leftParen) (hinitializer : InitializerPhrase ts initializer us)
      (hcondition : OptionalPhrase us condition (close :: vs)) (hclose : close.kind = .semicolon)
      (hincrement : OptionalPhrase vs increment (r :: ws)) (hr : r.kind = .rightParen)
      (hbody : StmtPhrase dangling ws body rs) :
      Phrase (p :: ts) ⟨initializer, condition, increment, body⟩ rs

variable {ts rs : List Token} {s s' : Reading} {stmt : Stmt}

theorem Phrase.placed (h : Phrase ts l rs) :
    (∀ s ∈ l.initializer, s.Placed) ∧ l.body.NoVariable ∧ l.body.Placed := by
  cases h with
  | mk _ hinitializer _ _ _ _ hbody => exact ⟨hinitializer.placed, hbody.placed⟩

/-- Behind the word `for`, a statement is a `for` loop. -/
theorem exists_phrase {dangling : Bool} {word : Token} (hword : word.kind = .forWord)
    (h : StmtPhrase dangling (word :: ts) stmt rs) : ∃ l, Phrase ts l rs ∧ stmt = l.tree := by
  cases h with
  | effect inner =>
    obtain ⟨t, r, hts, ht⟩ := inner.starts
    obtain ⟨rfl, -⟩ := List.cons.inj hts
    rw [hword] at ht
    cases ht
  | forLoop _ hp hinitializer hcondition hclose hincrement hr hbody =>
    exact ⟨_, .mk hp hinitializer hcondition hclose hincrement hr hbody, rfl⟩
  | print hother | block hother | ifThen hother | ifElse hother | whileLoop hother =>
    rw [hword] at hother
    cases hother

/-- A `for` loop that is read without a report, here from behind its word on, does what its clauses
say.  In any scopes, as long as it is not nested too deep, its tree comes to the same end as the
loop that runs by its clauses: it prints the same lines, halts or fails alike or uses up its rounds
alike, and leaves the same bindings in all scopes.  And the look-ups of the two runs are the same,
one by one: each name resolves to the same binding, whether or not an empty scope is on the way. -/
theorem runs_directly_of_readFor (h : readFor levels s = .ok stmt s')
    (quiet : s'.reports = s.reports) :
    ∃ l : ForLoop, Phrase s.ahead l s'.ahead ∧ stmt = l.tree ∧
      ∀ (rounds k n : Nat) (context : Context) (m : Machine), k ≤ n →
        (∀ m', stmt.execute rounds k m ≠ .error .tooDeep m') →
        stmt.execute rounds k m = l.run rounds n m ∧
        Replays m (stmt.trace rounds k context m) (endState (stmt.execute rounds k m)) ∧
        Replays m (l.trace rounds n context m) (endState (l.run rounds n m)) ∧
        List.Forall₂ SameLookUp (lookUps (stmt.trace rounds k context m))
          (lookUps (l.trace rounds n context m)) := by
  let word : Token := ⟨.forWord, "for", .nil, 1⟩
  have hword : word.kind = .forWord := rfl
  have hcount : s'.count ≤ s.count := Nat.le_of_eq (Reading.count_congr quiet)
  obtain ⟨dangling, hstmt, -⟩ := (SoundStatements.all levels).forLoop h hcount hword
  obtain ⟨l, hphrase, rfl⟩ := exists_phrase hword hstmt
  refine ⟨l, hphrase, rfl, fun rounds k n context m hkn runs => ?_⟩
  obtain ⟨hi, hb⟩ := hphrase.placed
  have hmirrors : Mirrors Eq (l.tree.execute rounds k m) (l.tree.trace rounds k context m)
      (l.run rounds n m) (l.trace rounds n context m) := mirrors_tree hkn hi hb m
  obtain ⟨hresult, hlook⟩ := hmirrors.eq runs
  exact ⟨hresult, l.tree.replays_trace rounds k context m, l.replays_trace m, hlook⟩

/-- A loop that its increment ends prints one line, run by its clauses. -/
theorem runs_directly_of_readFor_flag :
    let i : Token := ⟨.identifier, "i", .nil, 1⟩
    let equal : Token := ⟨.equal, "=", .nil, 1⟩
    let semicolon : Token := ⟨.semicolon, ";", .nil, 1⟩
    ∃ l : ForLoop,
      Phrase [⟨.leftParen, "(", .nil, 1⟩, ⟨.varWord, "var", .nil, 1⟩, i, equal,
        ⟨.trueWord, "true", .nil, 1⟩, semicolon, i, semicolon, i, equal, ⟨.nilWord, "nil", .nil, 1⟩,
        ⟨.rightParen, ")", .nil, 1⟩, ⟨.printWord, "print", .nil, 1⟩, i, semicolon, .eof 1]
        l [.eof 1] ∧
      l.run 2 20 { scopes := [{}] } = .ok () { scopes := [{}], printed := #["true"] } := by
  intro i equal semicolon
  have hread : readFor 15 ⟨[⟨.leftParen, "(", .nil, 1⟩, ⟨.varWord, "var", .nil, 1⟩, i, equal,
      ⟨.trueWord, "true", .nil, 1⟩, semicolon, i, semicolon, i, equal, ⟨.nilWord, "nil", .nil, 1⟩,
      ⟨.rightParen, ")", .nil, 1⟩, ⟨.printWord, "print", .nil, 1⟩, i, semicolon, .eof 1], []⟩ =
      .ok (.forLoop (some (.declare i (some (.literal (.bool true))))) (some (.reference i))
        (some (.assign i (.literal .nil))) (.print (.reference i))) ⟨[.eof 1], []⟩ := rfl
  obtain ⟨l, hphrase, htree, hruns⟩ := runs_directly_of_readFor hread rfl
  have hrun : l.tree.execute 2 20 { scopes := [{}] } =
      .ok () { scopes := [{}], printed := #["true"] } := htree ▸ rfl
  obtain ⟨hdirect, -⟩ := hruns 2 20 20 [] { scopes := [{}] } (Nat.le_refl 20) fun m' => by
    rw [htree, hrun]
    exact nofun
  exact ⟨l, hphrase, hdirect.symm.trans (htree ▸ hrun)⟩

end ForLoop

end Lox
