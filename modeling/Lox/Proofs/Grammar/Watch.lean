import Lox.Proofs.Grammar.Once
import Lox.Proofs.Grammar.Termination

/-!
# Blocks that are open at the end

Reading is watched: the rules for statements are written once more, with a note of each block that
is left at a fault while the end is next, and of each block whose closing brace is reported missing
in writing.  Without the notes they are the rules (`follows_readProgram`).
-/

namespace Lox.Grammar

open Computing
open scoped List

variable {α β : Type}

/-! ## Watched rules -/

/-- A reading with notes of blocks, each told by its opening brace: those that were open at the end,
and those whose closing brace was reported missing. -/
structure Watch where
  reading : Reading
  openAtEnd : List Token
  unclosed : List Token

/-- A rule with notes. -/
abbrev WatchedRule := EStateM Stop Watch

/-- Is the end next? -/
def Reading.isAtEnd (s : Reading) : Bool := s.ahead.head?.any (·.kind = .eof)

namespace Watched

/-- A rule that holds no blocks. -/
def lift (rule : Rule α) : WatchedRule α := fun s =>
  match rule s.reading with
  | .ok a reading => .ok a { s with reading }
  | .error stop reading => .error stop { s with reading }

/-- A block that is left at a fault, before its closing brace, while the end is next was open at the
end.  A block that is left because of nesting too deep is lost with what it holds. -/
def inBlock (brace : Token) (rule : WatchedRule α) : WatchedRule α := fun s =>
  match rule s with
  | .error (.fault fault) s =>
    .error (.fault fault)
      (if s.reading.isAtEnd then { s with openAtEnd := s.openAtEnd ++ [brace] } else s)
  | result => result

/-- Reads the closing brace of a block. -/
def closeBlock (levels : Nat) (brace : Token) : WatchedRule Token := fun s =>
  match expect levels .endOfBlock s.reading with
  | .ok t reading => .ok t { s with reading }
  | .error (.fault fault) reading =>
    .error (.fault fault) { s with reading, unclosed := s.unclosed ++ [brace] }
  | .error stop reading => .error stop { s with reading }

/-- Reads a statement and goes on behind a fault. -/
def recover (levels : Nat) (rule : WatchedRule Stmt) : WatchedRule (Option Stmt) := fun s =>
  match rule s with
  | .ok stmt s => .ok (some stmt) s
  | .error .ranOut s => .error .ranOut s
  | .error (.fault _) s => lift (do synchronize; return none) s
  | .error .tooDeep s => lift (do report levels (← peek) .tooDeep; synchronize; return none) s

/-- Reads statements up to a token of a closing kind. -/
def gather (closes : Kind → Bool) (item : WatchedRule (Option Stmt)) :
    List Token → WatchedRule (List Stmt)
  | [] => throw .ranOut
  | _ :: bound => do
    if closes (← lift peek).kind then return []
    let stmt ← item
    let stmts ← gather closes item bound
    return stmt.toList ++ stmts

mutual

/-- Reads a declaration. -/
def readDeclaration : Nat → WatchedRule (Option Stmt)
  | 0 => throw .tooDeep
  | n + 1 => recover n do
    match ← lift (accept [.varWord]) with
    | some _ => lift (readVariable n)
    | none => readStatement n

/-- Reads a statement. -/
def readStatement : Nat → WatchedRule Stmt
  | 0 => throw .tooDeep
  | n + 1 => do
    let t ← lift peek
    match t.kind with
    | .printWord => lift skip; lift (readPrint n)
    | .ifWord => lift skip; readIf n
    | .whileWord => lift skip; readWhile n
    | .forWord => lift skip; readFor n
    | .leftBrace => lift skip; .block <$> readBlock t n
    | _ => lift (readEffect n)

/-- Reads what follows the word `if`. -/
def readIf : Nat → WatchedRule Stmt
  | 0 => throw .tooDeep
  | n + 1 => do
    let _ ← lift (expect n .startOfIf)
    let condition ← lift (readExpression n)
    let _ ← lift (expect n .endOfIf)
    let thenBranch ← readStatement n
    match ← lift (accept [.elseWord]) with
    | none => return .ifThen condition thenBranch
    | some _ => return .ifElse condition thenBranch (← readStatement n)

/-- Reads what follows the word `while`. -/
def readWhile : Nat → WatchedRule Stmt
  | 0 => throw .tooDeep
  | n + 1 => do
    let _ ← lift (expect n .startOfWhile)
    let condition ← lift (readExpression n)
    let _ ← lift (expect n .endOfWhile)
    return .loop condition (← readStatement n)

/-- Reads what follows the word `for`. -/
def readFor : Nat → WatchedRule Stmt
  | 0 => throw .tooDeep
  | n + 1 => do
    let _ ← lift (expect n .startOfFor)
    let initializer ← lift (readInitializer n)
    let condition ← lift (readOptional .semicolon n)
    let _ ← lift (expect n .endOfLoopCondition)
    let increment ← lift (readOptional .rightParen n)
    let _ ← lift (expect n .endOfClauses)
    return .forLoop initializer condition increment (← readStatement n)

/-- Reads the declarations of a block and its closing brace.  Where the limit on nesting keeps the
rule from going into the block, the block is not open. -/
def readBlock (brace : Token) : Nat → WatchedRule (List Stmt)
  | 0 => throw .tooDeep
  | n + 1 => inBlock brace do
    let body ← gather closesBlock (readDeclaration n) (← get).reading.ahead
    let _ ← closeBlock n brace
    return body

end

/-- Reads declarations up to the end. -/
def readProgram (levels : Nat) : WatchedRule (List Stmt) := do
  gather (· = .eof) (readDeclaration levels) (← get).reading.ahead

/-! ## Without the notes they are the rules -/

/-- The result without the notes. -/
def forget : EStateM.Result Stop Watch α → EStateM.Result Stop Reading α
  | .ok a s => .ok a s.reading
  | .error stop s => .error stop s.reading

/-- Without the notes the watched rule is the rule. -/
def Follows (watched : WatchedRule α) (rule : Rule α) : Prop :=
  ∀ s, forget (watched s) = rule s.reading

variable {x : WatchedRule α} {rule : Rule α} {next : α → WatchedRule β} {next' : α → Rule β}
  {n : Nat} {brace : Token} {s s' : Watch} {a : α} {stop : Stop}

theorem Follows.of_ok (h : Follows x rule) (hx : x s = .ok a s') :
    rule s.reading = .ok a s'.reading := by
  rw [← h s, hx]
  rfl

theorem Follows.of_error (h : Follows x rule) (hx : x s = .error stop s') :
    rule s.reading = .error stop s'.reading := by
  rw [← h s, hx]
  rfl

theorem Follows.exists_ok (h : Follows x rule) {reading : Reading}
    (hr : rule s.reading = .ok a reading) : ∃ s', x s = .ok a s' ∧ s'.reading = reading := by
  cases hx : x s with
  | ok a' s' =>
    obtain ⟨rfl, rfl⟩ := EStateM.Result.ok.inj ((h.of_ok hx).symm.trans hr)
    exact ⟨s', rfl, rfl⟩
  | error stop s' => cases (h.of_error hx).symm.trans hr

theorem follows_pure (a : α) : Follows (pure a) (pure a) := fun _ => rfl

theorem follows_throw (stop : Stop) : Follows (throw stop : WatchedRule α) (throw stop) :=
  fun _ => rfl

theorem follows_lift (rule : Rule α) : Follows (lift rule) rule := by
  intro s
  unfold lift
  cases rule s.reading <;> rfl

theorem Follows.bind (hx : Follows x rule) (hn : ∀ a, Follows (next a) (next' a)) :
    Follows (x >>= next) (rule >>= next') := by
  intro s
  cases h : x s with
  | ok a s' =>
    rw [bind_of_ok h, bind_of_ok (hx.of_ok h)]
    exact hn a s'
  | error stop s' =>
    rw [bind_of_error h, bind_of_error (hx.of_error h)]
    rfl

theorem Follows.map (hx : Follows x rule) (g : α → β) : Follows (g <$> x) (g <$> rule) :=
  hx.bind fun a => follows_pure (g a)

theorem follows_inBlock (hx : Follows x rule) : Follows (inBlock brace x) rule := by
  intro s
  rw [← hx s]
  unfold inBlock
  cases x s with
  | ok a s' => rfl
  | error stop s' =>
    cases stop with
    | fault fault => cases h : s'.reading.isAtEnd <;> simp [forget, h]
    | tooDeep => rfl
    | ranOut => rfl

theorem follows_closeBlock (brace : Token) :
    Follows (closeBlock n brace) (expect n .endOfBlock) := by
  intro s
  unfold closeBlock
  cases expect n .endOfBlock s.reading with
  | ok t s' => rfl
  | error stop s' => cases stop <;> rfl

theorem follows_recover {x : WatchedRule Stmt} {rule : Rule Stmt} (hx : Follows x rule) :
    Follows (recover n x) (Grammar.recover n rule) := by
  intro s
  unfold recover
  cases h : x s with
  | ok stmt s' =>
    rw [recover_of_ok (hx.of_ok h)]
    rfl
  | error stop s' =>
    have hs := hx.of_error h
    cases stop with
    | ranOut =>
      rw [recover_of_ranOut hs]
      rfl
    | fault fault =>
      rw [recover_of_fault hs]
      exact follows_lift _ s'
    | tooDeep =>
      rw [recover_of_tooDeep hs]
      exact follows_lift _ s'

theorem follows_gather {closes : Kind → Bool} {item : WatchedRule (Option Stmt)}
    {item' : Rule (Option Stmt)} (hitem : Follows item item') (bound : List Token) :
    Follows (gather closes item bound) (Grammar.gather closes item' bound) := by
  induction bound with
  | nil => exact follows_throw _
  | cons _ bound ih =>
    refine (follows_lift peek).bind fun t => ?_
    split
    · exact follows_pure []
    · exact hitem.bind fun stmt => ih.bind fun stmts => follows_pure _

/-- The rounds are as many as there are tokens ahead. -/
theorem follows_gather_ahead {closes : Kind → Bool} {item : WatchedRule (Option Stmt)}
    {item' : Rule (Option Stmt)} (hitem : Follows item item') :
    Follows (do gather closes item (← get).reading.ahead)
      (do Grammar.gather closes item' (← get).ahead) :=
  fun s => follows_gather hitem s.reading.ahead s

/-- What is kept at one depth: without the notes, the watched rules for statements are the rules. -/
structure FollowsStatements (n : Nat) : Prop where
  declaration : Follows (readDeclaration n) (Grammar.readDeclaration n)
  statement : Follows (readStatement n) (Grammar.readStatement n)
  conditional : Follows (readIf n) (Grammar.readIf n)
  whileLoop : Follows (readWhile n) (Grammar.readWhile n)
  forLoop : Follows (readFor n) (Grammar.readFor n)
  block : ∀ brace, Follows (readBlock brace n) (Grammar.readBlock n)

namespace FollowsStatements

theorem zero : FollowsStatements 0 :=
  ⟨follows_throw _, follows_throw _, follows_throw _, follows_throw _, follows_throw _,
    fun _ => follows_throw _⟩

variable (ih : FollowsStatements n)

include ih

theorem readDeclaration_succ :
    Follows (readDeclaration (n + 1)) (Grammar.readDeclaration (n + 1)) := by
  refine follows_recover ((follows_lift (accept [.varWord])).bind fun o => ?_)
  cases o with
  | none => exact ih.statement
  | some word => exact follows_lift _

theorem readStatement_succ :
    Follows (readStatement (n + 1)) (Grammar.readStatement (n + 1)) := by
  unfold readStatement Grammar.readStatement
  refine (follows_lift peek).bind fun t => ?_
  generalize t.kind = kind
  cases kind with
  | printWord => exact (follows_lift skip).bind fun _ => follows_lift _
  | ifWord => exact (follows_lift skip).bind fun _ => ih.conditional
  | whileWord => exact (follows_lift skip).bind fun _ => ih.whileLoop
  | forWord => exact (follows_lift skip).bind fun _ => ih.forLoop
  | leftBrace => exact (follows_lift skip).bind fun _ => (ih.block t).map Stmt.block
  | _ => exact follows_lift _

theorem readIf_succ : Follows (readIf (n + 1)) (Grammar.readIf (n + 1)) := by
  refine (follows_lift _).bind fun _ => (follows_lift _).bind fun condition =>
    (follows_lift _).bind fun _ => ih.statement.bind fun thenBranch =>
    (follows_lift (accept [.elseWord])).bind fun o => ?_
  cases o with
  | none => exact follows_pure _
  | some word => exact ih.statement.bind fun _ => follows_pure _

theorem readWhile_succ : Follows (readWhile (n + 1)) (Grammar.readWhile (n + 1)) :=
  (follows_lift _).bind fun _ => (follows_lift _).bind fun _ => (follows_lift _).bind fun _ =>
    ih.statement.bind fun _ => follows_pure _

theorem readFor_succ : Follows (readFor (n + 1)) (Grammar.readFor (n + 1)) :=
  (follows_lift _).bind fun _ => (follows_lift _).bind fun _ => (follows_lift _).bind fun _ =>
    (follows_lift _).bind fun _ => (follows_lift _).bind fun _ => (follows_lift _).bind fun _ =>
    ih.statement.bind fun _ => follows_pure _

theorem readBlock_succ (brace : Token) :
    Follows (readBlock brace (n + 1)) (Grammar.readBlock (n + 1)) :=
  follows_inBlock (fun s => ((follows_gather ih.declaration s.reading.ahead).bind fun body =>
    (follows_closeBlock brace).bind fun _ => follows_pure body) s)

omit ih in
theorem all (n : Nat) : FollowsStatements n := by
  induction n with
  | zero => exact zero
  | succ n ih =>
    exact {
      declaration := ih.readDeclaration_succ
      statement := ih.readStatement_succ
      conditional := ih.readIf_succ
      whileLoop := ih.readWhile_succ
      forLoop := ih.readFor_succ
      block := ih.readBlock_succ }

end FollowsStatements

theorem follows_readProgram (levels : Nat) :
    Follows (readProgram levels) (Grammar.readProgram levels) :=
  follows_gather_ahead (FollowsStatements.all levels).declaration

end Watched

end Lox.Grammar
