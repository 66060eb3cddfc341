import Lox.Report
import Lox.Tree

/-!
# Rules of the grammar

A rule reads from the front of a list of tokens.  It ends with what it read, or it stops: at a fault
that it has reported, at the limit on nesting, or behind the last token of a list that has no end
token.  In any case it leaves the tokens that are still ahead and the reports so far.
-/

namespace Lox.Grammar

/-- Why a rule stops. -/
inductive Stop
  | fault (fault : Fault)
  | tooDeep
  | ranOut
deriving DecidableEq, Repr

/-- Where reading stands: the tokens ahead, and the reports so far. -/
structure Reading where
  ahead : List Token
  reports : List Report
deriving DecidableEq

/-- A rule of the grammar. -/
abbrev Rule := EStateM Stop Reading

/-! ## Steps -/

/-- The next token, which stays ahead. -/
def peek : Rule Token := fun s =>
  match s.ahead with
  | [] => .error .ranOut s
  | t :: _ => .ok t s

/-- Drops the next token. -/
def skip : Rule Unit := fun s =>
  match s.ahead with
  | [] => .error .ranOut s
  | _ :: r => .ok () { s with ahead := r }

/-- Is the next token of one of these kinds?  The end counts as none of them. -/
def isNext (kinds : List Kind) : Rule Bool := fun s =>
  match s.ahead with
  | [] => .error .ranOut s
  | t :: _ => .ok (t.kind ≠ .eof && kinds.contains t.kind) s

/-- Reads the next token if it is of one of these kinds.  The end is never read. -/
def accept (kinds : List Kind) : Rule (Option Token) := fun s =>
  match s.ahead with
  | [] => .error .ranOut s
  | t :: r =>
    if t.kind ≠ .eof ∧ kinds.contains t.kind then .ok (some t) { s with ahead := r }
    else .ok none s

/-- Reports a fault at a token and goes on.  Writing the report takes a level of nesting; without one
it is listed all the same, and reading stops. -/
def report (levels : Nat) (t : Token) (fault : Fault) : Rule Unit := fun s =>
  match levels with
  | 0 => .error .tooDeep { s with reports := s.reports ++ [.unwrittenAt t fault] }
  | _ + 1 => .ok () { s with reports := s.reports ++ [.atToken t fault] }

theorem report_zero (t : Token) (fault : Fault) (s : Reading) : report 0 t fault s =
    .error .tooDeep { s with reports := s.reports ++ [.unwrittenAt t fault] } := rfl

theorem report_succ (n : Nat) (t : Token) (fault : Fault) (s : Reading) :
    report (n + 1) t fault s = .ok () { s with reports := s.reports ++ [.atToken t fault] } := rfl

theorem peek_of_ahead {s : Reading} {t : Token} {r : List Token} (h : s.ahead = t :: r) :
    peek s = .ok t s := by
  simp [peek, h]

theorem skip_of_ahead {s : Reading} {t : Token} {r : List Token} (h : s.ahead = t :: r) :
    skip s = .ok () { s with ahead := r } := by
  simp [skip, h]

/-- A token of one of the kinds is read. -/
theorem accept_of_mem {s : Reading} {t : Token} {r : List Token} {kinds : List Kind}
    (h : s.ahead = t :: r) (eof : t.kind ≠ .eof) (mem : t.kind ∈ kinds) :
    accept kinds s = .ok (some t) { s with ahead := r } := by
  simp [accept, h, eof, mem]

/-- Any other token stays ahead. -/
theorem accept_of_not_mem {s : Reading} {t : Token} {r : List Token} {kinds : List Kind}
    (h : s.ahead = t :: r) (mem : t.kind ∉ kinds) : accept kinds s = .ok none s := by
  simp [accept, h, mem]

/-- The end stays ahead. -/
theorem accept_of_eof {s : Reading} {t : Token} {r : List Token} {kinds : List Kind}
    (h : s.ahead = t :: r) (eof : t.kind = .eof) : accept kinds s = .ok none s := by
  simp [accept, h, eof]

/-- Reports a fault at the next token and stops. -/
def fail {α : Type} (levels : Nat) (fault : Fault) : Rule α := do
  report levels (← peek) fault
  throw (.fault fault)

/-- Reports a fault at the next token, from one level further down, and stops. -/
def failBelow {α : Type} : Nat → Fault → Rule α
  | 0, _ => throw .tooDeep
  | n + 1, fault => fail n fault

/-- Reads the next token if it is of this kind, and stops with the fault otherwise. -/
def consume (levels : Nat) (kind : Kind) (fault : Fault) : Rule Token := do
  match ← accept [kind] with
  | some t => return t
  | none => failBelow levels fault

/-- Reads an expected token. -/
def expect (levels : Nat) (e : Expectation) : Rule Token := consume levels e.kind (.missing e)

/-! ## Recovery -/

/-- Drops tokens until after a semicolon or before a word that starts a statement; `last` is the
token dropped before. -/
def dropToBoundary (last : Token) : List Token → List Token
  | [] => []
  | t :: r =>
    if t.kind = .eof ∨ last.kind = .semicolon ∨ t.kind.startsStatement then t :: r
    else dropToBoundary t r

/-- The tokens from the next boundary of statements on; the first token never begins there. -/
def afterFault : List Token → List Token
  | [] => []
  | t :: r => if t.kind = .eof then t :: r else dropToBoundary t r

theorem dropToBoundary_suffix (last : Token) (ts : List Token) : dropToBoundary last ts <:+ ts := by
  induction ts generalizing last with
  | nil => exact List.suffix_rfl
  | cons t r ih =>
    simp only [dropToBoundary]
    split
    · exact List.suffix_rfl
    · exact (ih t).trans (List.suffix_cons t r)

theorem afterFault_suffix (ts : List Token) : afterFault ts <:+ ts := by
  cases ts with
  | nil => exact List.suffix_rfl
  | cons t r =>
    simp only [afterFault]
    split
    · exact List.suffix_rfl
    · exact (dropToBoundary_suffix t r).trans (List.suffix_cons t r)

/-- Recovery drops at least one token before the end. -/
theorem length_afterFault_lt {t : Token} {r : List Token} (h : t.kind ≠ .eof) :
    (afterFault (t :: r)).length < (t :: r).length := by
  have := (dropToBoundary_suffix t r).length_le
  simp only [afterFault, h, if_false, List.length_cons]
  omega

/-- Goes on at the next boundary of statements. -/
def synchronize : Rule Unit := fun s =>
  match afterFault s.ahead with
  | [] => .error .ranOut { s with ahead := [] }
  | ahead => .ok () { s with ahead }

/-- Reads a statement.  After a fault there is none, and reading goes on at the next boundary.
Nesting too deep is a fault at the next token; where that cannot be written either, reading stops
once more, and the fault is found again around here. -/
def recover (levels : Nat) (rule : Rule Stmt) : Rule (Option Stmt) := fun s =>
  match rule s with
  | .ok stmt s => .ok (some stmt) s
  | .error .ranOut s => .error .ranOut s
  | .error (.fault _) s => (do synchronize; return none : Rule (Option Stmt)) s
  | .error .tooDeep s =>
    (do report levels (← peek) .tooDeep; synchronize; return none : Rule (Option Stmt)) s

/-- Reads statements up to a token of a closing kind.  Each takes at least one token, so `bound`,
the tokens ahead at the start, counts enough rounds. -/
def gather (closes : Kind → Bool) (item : Rule (Option Stmt)) : List Token → Rule (List Stmt)
  | [] => throw .ranOut
  | _ :: bound => do
    if closes (← peek).kind then return []
    let stmt ← item
    let stmts ← gather closes item bound
    return stmt.toList ++ stmts

/-- Reads an operand, and then operators with an operand each, gathering them to the left.  Each
round takes at least one token, so `bound` counts enough rounds. -/
def chain (operators : List Kind) (join : Expr → Token → Expr → Expr) (operand : Rule Expr) :
    List Token → Expr → Rule Expr
  | [], _ => throw .ranOut
  | _ :: bound, left => do
    match ← accept operators with
    | none => return left
    | some operator =>
      let right ← operand
      chain operators join operand bound (join left operator right)

/-- Operands with operators between them, joined from the left. -/
def leftJoined (operators : List Kind) (join : Expr → Token → Expr → Expr) (operand : Rule Expr) :
    Rule Expr := do
  let first ← operand
  chain operators join operand (← get).ahead first

end Lox.Grammar
