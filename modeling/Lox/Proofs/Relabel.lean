import Lox.Halt
import Lox.Tree

/-!
# Other texts and other lines

A relabeling gives tokens other texts and other lines, and leaves their kinds and values as they
are.  It carries over to all that is made of tokens: trees, reports, and the ways to halt.
-/

namespace Lox

/-- A change of the texts of tokens and of their lines. -/
structure Relabeling where
  text : String → String
  line : Int → Int

namespace Relabeling

/-- The change that changes nothing. -/
def none : Relabeling := ⟨fun text => text, fun line => line⟩

/-- All lines are moved down by so many. -/
def down (lines : Int) : Relabeling := ⟨fun text => text, (· + lines)⟩

end Relabeling

variable (ρ : Relabeling)

/-- The token with another text, on another line. -/
def Token.relabel (t : Token) : Token := { t with lexeme := ρ.text t.lexeme, line := ρ.line t.line }

namespace Token

@[simp] theorem kind_relabel (t : Token) : (t.relabel ρ).kind = t.kind := rfl
@[simp] theorem lexeme_relabel (t : Token) : (t.relabel ρ).lexeme = ρ.text t.lexeme := rfl
@[simp] theorem literal_relabel (t : Token) : (t.relabel ρ).literal = t.literal := rfl
@[simp] theorem line_relabel (t : Token) : (t.relabel ρ).line = ρ.line t.line := rfl
@[simp] theorem relabel_none (t : Token) : t.relabel .none = t := rfl

theorem relabel_none_eq_id : Token.relabel .none = id := rfl

end Token

/-! ## Trees -/

/-- The expression with its tokens relabeled. -/
def Expr.relabel : Expr → Expr
  | literal v => .literal v
  | grouping e => .grouping e.relabel
  | unary operator e => .unary (operator.relabel ρ) e.relabel
  | binary a operator b => .binary a.relabel (operator.relabel ρ) b.relabel
  | logical a operator b => .logical a.relabel (operator.relabel ρ) b.relabel
  | reference name => .reference (name.relabel ρ)
  | assign name e => .assign (name.relabel ρ) e.relabel
  | misfit node => .misfit node

theorem Expr.relabel_none (e : Expr) : e.relabel .none = e := by
  induction e with
  | literal | reference | misfit => rfl
  | grouping e ih | unary operator e ih | assign name e ih => simp [relabel, ih]
  | binary a operator b iha ihb | logical a operator b iha ihb => simp [relabel, iha, ihb]

namespace Stmt

mutual

/-- The statement with its tokens relabeled. -/
def relabel : Stmt → Stmt
  | expression e => .expression (e.relabel ρ)
  | print e => .print (e.relabel ρ)
  | declare name initializer => .declare (name.relabel ρ) (initializer.map (Expr.relabel ρ))
  | block body => .block (relabelAll body)
  | ifThen condition thenBranch => .ifThen (condition.relabel ρ) thenBranch.relabel
  | ifElse condition thenBranch elseBranch =>
    .ifElse (condition.relabel ρ) thenBranch.relabel elseBranch.relabel
  | loop condition body => .loop (condition.relabel ρ) body.relabel
  | misfit node => .misfit node

/-- The statements with their tokens relabeled. -/
def relabelAll : List Stmt → List Stmt
  | [] => []
  | s :: ss => s.relabel :: relabelAll ss

end

theorem relabelAll_eq_map (ss : List Stmt) : relabelAll ρ ss = ss.map (relabel ρ) := by
  induction ss with
  | nil => rfl
  | cons s ss ih => rw [relabelAll, ih, List.map_cons]

theorem relabel_block (body : List Stmt) :
    (block body).relabel ρ = block (body.map (relabel ρ)) := by
  rw [relabel, relabelAll_eq_map]

theorem relabel_forLoop (initializer : Option Stmt) (condition increment : Option Expr)
    (body : Stmt) :
    (forLoop initializer condition increment body).relabel ρ =
      forLoop (initializer.map (relabel ρ)) (condition.map (Expr.relabel ρ))
        (increment.map (Expr.relabel ρ)) (body.relabel ρ) := by
  cases initializer <;> cases condition <;> cases increment <;> rfl

mutual

theorem relabel_none (s : Stmt) : s.relabel .none = s := by
  match s with
  | expression e | print e => rw [relabel, e.relabel_none]
  | declare name none => rfl
  | declare name (some e) => rw [relabel, Option.map_some, e.relabel_none]; rfl
  | block body => rw [relabel, relabelAll_none body]
  | ifThen condition thenBranch =>
    rw [relabel, condition.relabel_none, relabel_none thenBranch]
  | ifElse condition thenBranch elseBranch =>
    rw [relabel, condition.relabel_none, relabel_none thenBranch, relabel_none elseBranch]
  | loop condition body => rw [relabel, condition.relabel_none, relabel_none body]
  | misfit node => rfl

theorem relabelAll_none (ss : List Stmt) : relabelAll .none ss = ss := by
  match ss with
  | [] => rfl
  | s :: ss => rw [relabelAll, relabel_none s, relabelAll_none ss]

end

theorem relabel_none_eq_id : relabel .none = id := funext relabel_none

end Stmt

/-! ## Reports -/

/-- The place with another text. -/
def Place.relabel : Place → Place
  | unsaid => .unsaid
  | atEnd => .atEnd
  | atLexeme lexeme => .atLexeme (ρ.text lexeme)
  | other text => .other text

@[simp] theorem Place.ofToken_relabel (t : Token) :
    Place.ofToken (t.relabel ρ) = (Place.ofToken t).relabel ρ := by
  unfold ofToken
  rw [Token.kind_relabel]
  split <;> rfl

/-- The failure with its token relabeled. -/
def Failure.relabel : Failure → Failure
  | undefined name => .undefined (name.relabel ρ)
  | operand operator => .operand (operator.relabel ρ)
  | operands operator => .operands (operator.relabel ρ)
  | mixedOperands operator => .mixedOperands (operator.relabel ρ)
  | unknownUnary operator => .unknownUnary (operator.relabel ρ)
  | unknownBinary operator => .unknownBinary (operator.relabel ρ)
  | tooDeep => .tooDeep
  | other t text => .other (t.map (Token.relabel ρ)) text

/-- The report with another line, and with another text for the token it is about. -/
def Report.relabel : Report → Report
  | ofFault line place fault => .ofFault (ρ.line line) (place.relabel ρ) fault
  | unwritten line place fault => .unwritten (ρ.line line) (place.relabel ρ) fault
  | ofFailure failure => .ofFailure (failure.relabel ρ)

namespace Report

@[simp] theorem atToken_relabel (t : Token) (fault : Fault) :
    atToken (t.relabel ρ) fault = (atToken t fault).relabel ρ := by
  unfold atToken relabel
  rw [Place.ofToken_relabel, Token.line_relabel]

@[simp] theorem unwrittenAt_relabel (t : Token) (fault : Fault) :
    unwrittenAt (t.relabel ρ) fault = (unwrittenAt t fault).relabel ρ := by
  unfold unwrittenAt relabel
  rw [Place.ofToken_relabel, Token.line_relabel]

@[simp] theorem isFault_relabel (r : Report) : (r.relabel ρ).isFault = r.isFault := by
  cases r <;> rfl

theorem relabel_relabel (ρ σ : Relabeling) (r : Report) :
    (r.relabel ρ).relabel σ = r.relabel ⟨σ.text ∘ ρ.text, σ.line ∘ ρ.line⟩ := by
  cases r with
  | ofFault line place fault | unwritten line place fault => cases place <;> rfl
  | ofFailure failure =>
    cases failure with
    | other t text => cases t <;> rfl
    | _ => rfl

/-- With the lines forgotten it does not matter which lines there were. -/
theorem forget_lines (rename : String → String) (lines lines' : Int → Int) (r : Report) :
    (r.relabel ⟨rename, lines'⟩).relabel ⟨id, fun _ => 0⟩ =
      (r.relabel ⟨id, lines⟩).relabel ⟨rename, fun _ => 0⟩ := by
  rw [relabel_relabel, relabel_relabel]
  rfl

theorem relabel_none (r : Report) : r.relabel .none = r := by
  cases r with
  | ofFault line place fault | unwritten line place fault => cases place <;> rfl
  | ofFailure failure =>
    cases failure with
    | other t text => cases t <;> rfl
    | _ => rfl

theorem relabel_none_eq_id : relabel .none = id := funext relabel_none

end Report

/-- The halt with the token to blame relabeled. -/
def Halt.relabel : Halt → Halt
  | failure f => .failure (f.relabel ρ)
  | halt => halt

end Lox
