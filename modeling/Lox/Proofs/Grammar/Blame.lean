import Lox.Proofs.Grammar.Step

/-!
# What reading reports

All that a rule does to a reading is to read a token, to report a fault at a token, written or not,
and to go on behind a fault.  So what holds along each of these moves holds along every rule
(`Moves.readProgram`).  It follows that reading reports nothing but faults (`isFault_of_mem_parse`).
-/

namespace Lox.Grammar

open Computing

variable {α β : Type} {R : Reading → Reading → Prop} {s : Reading}

/-! ## Moves -/

/-- The relation holds along every move, and from one move to the next. -/
structure Moves (R : Reading → Reading → Prop) : Prop where
  refl : ∀ s, R s s
  trans : ∀ {s s' s''}, R s s' → R s' s'' → R s s''
  read : ∀ {s : Reading} {t r}, s.ahead = t :: r → R s { s with ahead := r }
  report : ∀ (s : Reading) (t : Token) (fault : Fault),
    R s { s with reports := s.reports ++ [.atToken t fault] }
  lose : ∀ (s : Reading) (t : Token) (fault : Fault),
    R s { s with reports := s.reports ++ [.unwrittenAt t fault] }
  resume : ∀ s : Reading, R s { s with ahead := afterFault s.ahead }

/-- The relation holds between where the rule begins and where it ends or stops. -/
def Along (R : Reading → Reading → Prop) (rule : Rule α) : Prop := ∀ s, R s (endState (rule s))

namespace Moves

variable (h : Moves R) {x : Rule α} {next : α → Rule β} {n : Nat}

include h

/-! ## Single steps -/

theorem pure (a : α) : Along R (pure a : Rule α) := fun s => h.refl s

theorem throw (stop : Stop) : Along R (throw stop : Rule α) := fun s => h.refl s

theorem get : Along R (get : Rule Reading) := fun s => h.refl s

/-- The relation holds along a composed rule from here if it holds along the parts. -/
theorem bind_from (hx : R s (endState (x s)))
    (hn : ∀ a s', x s = .ok a s' → R s' (endState (next a s'))) :
    R s (endState ((x >>= next) s)) := by
  cases hr : x s with
  | ok a s' =>
    rw [hr] at hx
    rw [bind_of_ok hr]
    exact h.trans hx (hn a s' hr)
  | error stop s' =>
    rw [hr] at hx
    rw [bind_of_error hr]
    exact hx

theorem bind (hx : Along R x) (hn : ∀ a, Along R (next a)) : Along R (x >>= next) :=
  fun s => h.bind_from (hx s) fun a s' _ => hn a s'

theorem map (hx : Along R x) (g : α → β) : Along R (g <$> x) := h.bind hx fun a => h.pure (g a)

theorem peek : Along R peek := by
  intro s
  unfold Grammar.peek
  split <;> exact h.refl s

theorem skip : Along R skip := by
  intro s
  unfold Grammar.skip
  split
  · exact h.refl s
  next hs => exact h.read hs

theorem isNext (kinds : List Kind) : Along R (isNext kinds) := by
  intro s
  unfold Grammar.isNext
  split <;> exact h.refl s

theorem accept (kinds : List Kind) : Along R (accept kinds) := by
  intro s
  unfold Grammar.accept
  split
  · exact h.refl s
  next hs =>
    split
    · exact h.read hs
    · exact h.refl s

theorem reportAt (n : Nat) (t : Token) (fault : Fault) : Along R (Grammar.report n t fault) := by
  intro s
  cases n with
  | zero => exact h.lose s t fault
  | succ n => exact h.report s t fault

theorem fail (n : Nat) (fault : Fault) : Along R (fail n fault : Rule α) :=
  h.bind h.peek fun t => h.bind (h.reportAt n t fault) fun _ => h.throw _

theorem failBelow (n : Nat) (fault : Fault) : Along R (failBelow n fault : Rule α) := by
  cases n with
  | zero => exact h.throw _
  | succ n => exact h.fail n fault

theorem expect (n : Nat) (e : Expectation) : Along R (expect n e) := by
  refine h.bind (h.accept _) fun o => ?_
  cases o with
  | none => exact h.failBelow n _
  | some t => exact h.pure t

theorem synchronize : Along R synchronize := by
  intro s
  have hresume := h.resume s
  unfold Grammar.synchronize
  split
  next hnil => rwa [hnil] at hresume
  next => exact hresume

theorem recover {rule : Rule Stmt} (hrule : Along R rule) : Along R (recover n rule) := by
  have hsync := h.bind h.synchronize fun _ => h.pure (none : Option Stmt)
  intro s
  have hs := hrule s
  cases hr : rule s with
  | ok stmt s' =>
    rw [hr] at hs
    rwa [recover_of_ok hr]
  | error stop s' =>
    rw [hr] at hs
    cases stop with
    | ranOut => rwa [recover_of_ranOut hr]
    | fault fault =>
      rw [recover_of_fault hr]
      exact h.trans hs (hsync s')
    | tooDeep =>
      rw [recover_of_tooDeep hr]
      exact h.trans hs (h.bind h.peek (fun t => h.bind (h.reportAt n t .tooDeep) fun _ => hsync) s')

/-! ## Repetitions -/

theorem chain {operators : List Kind} {join : Expr → Token → Expr → Expr} {operand : Rule Expr}
    (hoperand : Along R operand) (bound : List Token) (left : Expr) :
    Along R (chain operators join operand bound left) := by
  induction bound generalizing left with
  | nil => exact h.throw _
  | cons _ bound ih =>
    refine h.bind (h.accept _) fun o => ?_
    cases o with
    | none => exact h.pure left
    | some operator => exact h.bind hoperand fun right => ih _

theorem leftJoined {operators : List Kind} {join : Expr → Token → Expr → Expr} {operand : Rule Expr}
    (hoperand : Along R operand) : Along R (leftJoined operators join operand) :=
  h.bind hoperand fun first => h.bind h.get fun _ => h.chain hoperand _ first

theorem gather {closes : Kind → Bool} {item : Rule (Option Stmt)} (hitem : Along R item)
    (bound : List Token) : Along R (gather closes item bound) := by
  induction bound with
  | nil => exact h.throw _
  | cons _ bound ih =>
    refine h.bind h.peek fun t => ?_
    split
    · exact h.pure []
    · exact h.bind hitem fun o => h.bind ih fun ss => h.pure _

/-! ## Expressions -/

theorem readTier (n : Nat) (tier : Tier) : Along R (readTier n tier) := by
  induction n generalizing tier with
  | zero => exact h.throw _
  | succ n ih =>
    cases tier with
    | expression => exact ih .assignment
    | assignment =>
      refine h.bind (ih .or) fun target => h.bind (h.accept _) fun o => ?_
      cases o with
      | none => exact h.pure target
      | some equal =>
        refine h.bind (ih .assignment) fun value => ?_
        split
        · exact h.pure _
        · exact h.bind (h.reportAt n equal .badTarget) fun _ => h.pure target
    | or => exact h.leftJoined (ih .and)
    | and => exact h.leftJoined (ih .equality)
    | equality => exact h.leftJoined (ih .comparison)
    | comparison => exact h.leftJoined (ih .term)
    | term => exact h.leftJoined (ih .factor)
    | factor => exact h.leftJoined (ih .unary)
    | unary =>
      refine h.bind (h.accept _) fun o => ?_
      cases o with
      | none => exact ih .primary
      | some operator => exact h.bind (ih .unary) fun e => h.pure _
    | primary =>
      refine h.bind h.peek fun t => ?_
      split
      iterate 6
        next => exact h.bind h.skip fun _ => h.pure _
      next =>
        exact h.bind h.skip fun _ => h.bind (ih .expression) fun inner =>
          h.bind (h.expect n _) fun _ => h.pure _
      next => exact h.fail n _

theorem readExpression (n : Nat) : Along R (readExpression n) := h.readTier n .expression

/-! ## Statements -/

theorem readVariable (n : Nat) : Along R (readVariable n) := by
  cases n with
  | zero => exact h.throw _
  | succ n =>
    refine h.bind (h.expect n _) fun name => h.bind (h.accept _) fun o => ?_
    cases o with
    | none => exact h.bind (h.pure _) fun _ => h.bind (h.expect n _) fun _ => h.pure _
    | some equal =>
      exact h.bind (h.map (h.readExpression n) some) fun _ =>
        h.bind (h.expect n _) fun _ => h.pure _

theorem readPrint (n : Nat) : Along R (readPrint n) := by
  cases n with
  | zero => exact h.throw _
  | succ n => exact h.bind (h.readExpression n) fun e => h.bind (h.expect n _) fun _ => h.pure _

theorem readEffect (n : Nat) : Along R (readEffect n) := by
  cases n with
  | zero => exact h.throw _
  | succ n => exact h.bind (h.readExpression n) fun e => h.bind (h.expect n _) fun _ => h.pure _

theorem readInitializer (n : Nat) : Along R (readInitializer n) := by
  refine h.bind (h.accept _) fun o => ?_
  split
  · exact h.pure none
  · refine h.bind (h.accept _) fun o => ?_
    split
    · exact h.map (h.readVariable n) some
    · exact h.map (h.readEffect n) some

theorem readOptional (closing : Kind) (n : Nat) : Along R (readOptional closing n) := by
  refine h.bind (h.isNext _) fun b => ?_
  split
  · exact h.pure none
  · exact h.map (h.readExpression n) some

omit h in
/-- What is kept at one depth: the relation holds along all rules for statements. -/
structure Statements (R : Reading → Reading → Prop) (n : Nat) : Prop where
  declaration : Along R (readDeclaration n)
  statement : Along R (readStatement n)
  conditional : Along R (readIf n)
  whileLoop : Along R (readWhile n)
  forLoop : Along R (readFor n)
  block : Along R (readBlock n)

theorem readDeclaration_succ (ih : Statements R n) : Along R (readDeclaration (n + 1)) := by
  refine h.recover (h.bind (h.accept _) fun o => ?_)
  cases o with
  | none => exact ih.statement
  | some word => exact h.readVariable n

theorem readStatement_succ (ih : Statements R n) : Along R (readStatement (n + 1)) := by
  unfold readStatement
  refine h.bind h.peek fun t => ?_
  split
  · exact h.bind h.skip fun _ => h.readPrint n
  · exact h.bind h.skip fun _ => ih.conditional
  · exact h.bind h.skip fun _ => ih.whileLoop
  · exact h.bind h.skip fun _ => ih.forLoop
  · exact h.bind h.skip fun _ => h.map ih.block _
  · exact h.readEffect n

theorem readIf_succ (ih : Statements R n) : Along R (readIf (n + 1)) := by
  refine h.bind (h.expect n _) fun _ => h.bind (h.readExpression n) fun condition =>
    h.bind (h.expect n _) fun _ => h.bind ih.statement fun thenBranch =>
    h.bind (h.accept _) fun o => ?_
  cases o with
  | none => exact h.pure _
  | some word => exact h.bind ih.statement fun _ => h.pure _

theorem readWhile_succ (ih : Statements R n) : Along R (readWhile (n + 1)) :=
  h.bind (h.expect n _) fun _ => h.bind (h.readExpression n) fun _ =>
    h.bind (h.expect n _) fun _ => h.bind ih.statement fun _ => h.pure _

theorem readFor_succ (ih : Statements R n) : Along R (readFor (n + 1)) :=
  h.bind (h.expect n _) fun _ => h.bind (h.readInitializer n) fun _ =>
    h.bind (h.readOptional _ n) fun _ => h.bind (h.expect n _) fun _ =>
    h.bind (h.readOptional _ n) fun _ => h.bind (h.expect n _) fun _ =>
    h.bind ih.statement fun _ => h.pure _

theorem readBlock_succ (ih : Statements R n) : Along R (readBlock (n + 1)) :=
  h.bind h.get fun _ => h.bind (h.gather ih.declaration _) fun body =>
    h.bind (h.expect n _) fun _ => h.pure body

theorem statements (n : Nat) : Statements R n := by
  induction n with
  | zero => exact ⟨h.throw _, h.throw _, h.throw _, h.throw _, h.throw _, h.throw _⟩
  | succ n ih =>
    exact {
      declaration := h.readDeclaration_succ ih
      statement := h.readStatement_succ ih
      conditional := h.readIf_succ ih
      whileLoop := h.readWhile_succ ih
      forLoop := h.readFor_succ ih
      block := h.readBlock_succ ih }

theorem readProgram (n : Nat) : Along R (readProgram n) :=
  h.bind h.get fun _ => h.gather (h.statements n).declaration _

end Moves

/-! ## Reports -/

/-- One reading has the reports of the other and, behind them, faults at tokens. -/
def Reading.Blames (s s' : Reading) : Prop :=
  ∃ rs : List Report, s'.reports = s.reports ++ rs ∧
    ∀ r ∈ rs, ∃ t fault, r = .atToken t fault ∨ r = .unwrittenAt t fault

theorem moves_blames : Moves Reading.Blames where
  refl s := ⟨[], (List.append_nil _).symm, by simp⟩
  trans h h' := by
    obtain ⟨rs, hr, hrs⟩ := h
    obtain ⟨rs', hr', hrs'⟩ := h'
    exact ⟨rs ++ rs', by rw [hr', hr, List.append_assoc], List.forall_mem_append.2 ⟨hrs, hrs'⟩⟩
  read _ := ⟨[], (List.append_nil _).symm, by simp⟩
  report s t fault := ⟨[.atToken t fault], rfl, List.forall_mem_singleton.2 ⟨t, fault, Or.inl rfl⟩⟩
  lose s t fault := ⟨[.unwrittenAt t fault], rfl, List.forall_mem_singleton.2 ⟨t, fault, Or.inr rfl⟩⟩
  resume s := ⟨[], (List.append_nil _).symm, by simp⟩

end Lox.Grammar

namespace Lox

open Grammar Computing

/-- Reading tokens reports faults at tokens. -/
theorem blames_parse (tokens : List Token) :
    ∀ r ∈ (parse tokens).reports, ∃ t fault, r = .atToken t fault ∨ r = .unwrittenAt t fault := by
  obtain ⟨rs, hr, hrs⟩ := moves_blames.readProgram nestingLimit ⟨closed tokens, []⟩
  have hreports : (parse tokens).reports = rs := by
    unfold parse
    cases h : readProgram nestingLimit ⟨closed tokens, []⟩ with
    | ok program s => rwa [h] at hr
    | error stop s => rwa [h] at hr
  rwa [hreports]

/-- Reading tokens reports nothing but faults. -/
theorem isFault_of_mem_parse {tokens : List Token} {r : Report} (h : r ∈ (parse tokens).reports) :
    r.isFault = true := by
  obtain ⟨t, fault, rfl | rfl⟩ := blames_parse tokens r h <;> rfl

end Lox
