import Lox.Proofs.Grammar.Origin
import Lox.Proofs.Run.Prompt
import Lox.Proofs.Scan.Line

/-!
# The culprit of a failure

A run goes through the expressions of its program.  Where it fails, it has come to one that fails by
itself: its operands have values, or it has none, and its operator does not take them, or its name
is bound nowhere (`Stmt.exists_culprit`).  The failure carries the token of that operator or name;
that token is one of those scanned, and so the line in the report is the line of the source on which
the operator or the name stands (`Session.lines_right`).
-/

namespace Lox

open Computing Execution

/-! ## Points of a run -/

/-- A point of a run: an expression that is to be evaluated in some scopes, with so many levels
left. -/
structure Point where
  levels : Nat
  expression : Expr
  scopes : Chain

/-- The evaluation comes to the point: all operands in front of it have values. -/
inductive Expr.Reaches (p : Point) : Nat → Expr → Chain → Prop
  | here : Reaches p p.levels p.expression p.scopes
  | grouping {n e c} (h : Reaches p n e c) : Reaches p (n + 1) (.grouping e) c
  | assign {n name e c} (h : Reaches p n e c) : Reaches p (n + 1) (.assign name e) c
  | unary {n operator e c} (h : Reaches p n e c) : Reaches p (n + 1) (.unary operator e) c
  | binaryLeft {n a operator b c} (h : Reaches p n a c) :
      Reaches p (n + 1) (.binary a operator b) c
  | binaryRight {n a operator b c v c'} (ha : a.evaluate n c = .ok v c') (h : Reaches p n b c') :
      Reaches p (n + 1) (.binary a operator b) c
  | logicalLeft {n a operator b c} (h : Reaches p n a c) :
      Reaches p (n + 1) (.logical a operator b) c
  | logicalRight {n a operator b c v c'} (ha : a.evaluate n c = .ok v c')
      (hd : decidesLogical operator v = false) (h : Reaches p n b c') :
      Reaches p (n + 1) (.logical a operator b) c

/-- The execution comes to the point: all that is in front of it is done. -/
inductive Stmt.Reaches (rounds : Nat) (p : Point) : Nat → Stmt → Machine → Prop
  | expression {n e m} (h : e.Reaches p n m.scopes) : Reaches rounds p (n + 1) (.expression e) m
  | print {n e m} (h : e.Reaches p n m.scopes) : Reaches rounds p (n + 1) (.print e) m
  | declare {n name e m} (h : e.Reaches p n m.scopes) :
      Reaches rounds p (n + 1) (.declare name (some e)) m
  | block {n done s rest m m'}
      (hdone : inOrder (Stmt.execute rounds n) done { m with scopes := {} :: m.scopes } = .ok () m')
      (h : Reaches rounds p n s m') : Reaches rounds p (n + 2) (.block (done ++ s :: rest)) m
  | ifThen {n condition s m} (h : condition.Reaches p n m.scopes) :
      Reaches rounds p (n + 1) (.ifThen condition s) m
  | thenBranch {n condition s m m'} (hc : holds n condition m = .ok true m')
      (h : Reaches rounds p n s m') : Reaches rounds p (n + 1) (.ifThen condition s) m
  | ifElse {n condition s other m} (h : condition.Reaches p n m.scopes) :
      Reaches rounds p (n + 1) (.ifElse condition s other) m
  | firstBranch {n condition s other m m'} (hc : holds n condition m = .ok true m')
      (h : Reaches rounds p n s m') : Reaches rounds p (n + 1) (.ifElse condition s other) m
  | elseBranch {n condition s other m m'} (hc : holds n condition m = .ok false m')
      (h : Reaches rounds p n other m') : Reaches rounds p (n + 1) (.ifElse condition s other) m
  | loop {n condition body m} (h : condition.Reaches p n m.scopes) :
      Reaches rounds p (n + 1) (.loop condition body) m
  | round {n condition body m m'} (hc : holds n condition m = .ok true m')
      (h : Reaches rounds p n body m') : Reaches rounds p (n + 1) (.loop condition body) m
  | nextRound {n condition body m m' m''} (hc : holds n condition m = .ok true m')
      (hb : body.execute rounds n m' = .ok () m'')
      (h : Reaches rounds p (n + 1) (.loop condition body) m'') :
      Reaches rounds p (n + 1) (.loop condition body) m

/-! ## Failures of a point -/

/-- The operator or the name of an expression that can fail by itself. -/
def Expr.own? : Expr → Option Token
  | unary operator _ | binary _ operator _ => some operator
  | reference name | assign name _ => some name
  | literal _ | grouping _ | logical .. | misfit _ => none

/-- The expression at the point fails by itself: its name is bound in no scope, or its operator does
not take the values of its operands. -/
inductive Point.Raises : Point → Failure → Prop
  | reference {n name c} (h : c.get? name.lexeme = none) :
      Raises ⟨n + 1, .reference name, c⟩ (.undefined name)
  | assign {n name e c v c'} (he : e.evaluate n c = .ok v c') (h : c'.get? name.lexeme = none) :
      Raises ⟨n + 1, .assign name e, c⟩ (.undefined name)
  | unary {n operator e c v c' f} (he : e.evaluate n c = .ok v c')
      (h : Operator.unary operator v = .error f) : Raises ⟨n + 1, .unary operator e, c⟩ f
  | binary {n a operator b c v c' w c'' f} (ha : a.evaluate n c = .ok v c')
      (hb : b.evaluate n c' = .ok w c'') (h : Operator.binary operator v w = .error f) :
      Raises ⟨n + 1, .binary a operator b, c⟩ f

variable {p : Point} {f : Failure} {operator name t : Token} {a b v w : Value} {e : Expr}
  {s : Stmt} {c c' : Chain} {m m' : Machine} {n rounds : Nat}

namespace Operator

/-- The failure of an operator carries the operator. -/
theorem token?_of_numeric {g : Float → Float → Value} (h : numeric operator g a b = .error f) :
    f.token? = some operator := by
  unfold numeric at h
  split at h
  · cases h
  · cases h
    rfl

theorem token?_of_unary (h : unary operator v = .error f) : f.token? = some operator := by
  unfold unary at h
  split at h
  · cases v <;> cases h <;> rfl
  · cases h
  · cases h
    rfl

theorem token?_of_binary (h : binary operator a b = .error f) : f.token? = some operator := by
  unfold binary at h
  split at h
  · unfold plus at h
    split at h <;> cases h
    rfl
  case h_9 | h_10 => cases h
  case h_11 =>
    cases h
    rfl
  all_goals exact token?_of_numeric h

end Operator

/-- A failure carries the operator or the name of the expression that fails by itself. -/
theorem Point.Raises.exists_own (h : p.Raises f) :
    ∃ t, p.expression.own? = some t ∧ f.token? = some t := by
  cases h with
  | reference | assign => exact ⟨_, rfl, rfl⟩
  | unary _ h => exact ⟨_, rfl, Operator.token?_of_unary h⟩
  | binary _ _ h => exact ⟨_, rfl, Operator.token?_of_binary h⟩

theorem Expr.mem_tokens_of_own? (h : e.own? = some t) : t ∈ e.tokens := by
  cases e with
  | unary | binary | assign =>
    obtain rfl := Option.some.inj h
    exact List.mem_cons_self
  | reference =>
    obtain rfl := Option.some.inj h
    exact List.mem_singleton_self _
  | _ => cases h

/-! ## What fails has a culprit -/

theorem Evaluation.eq_undefined_of_read (h : read n name c = .error (.failure f) c') :
    f = .undefined name ∧ c.get? name.lexeme = none := by
  rw [read_apply] at h
  split at h
  · cases h
  · cases hget : c.get? name.lexeme with
    | some v =>
      rw [hget] at h
      cases h
    | none =>
      rw [hget] at h
      cases h
      exact ⟨rfl, rfl⟩

theorem Evaluation.eq_undefined_of_write (h : write n name v c = .error (.failure f) c') :
    f = .undefined name ∧ c.get? name.lexeme = none := by
  rw [write_apply] at h
  split at h
  · cases h
  · cases hassign : c.assign? name.lexeme v with
    | some c₁ =>
      rw [hassign] at h
      cases h
    | none =>
      rw [hassign] at h
      cases h
      have hsome := c.isSome_assign? name.lexeme v
      rw [hassign] at hsome
      exact ⟨rfl, by simpa using hsome.symm⟩

theorem Evaluation.eq_error_of_ofOperator {result : Except Failure Value}
    (h : ofOperator result c = .error (.failure f) c') : result = .error f := by
  cases result with
  | ok v => exact absurd h pure_ne_error
  | error g =>
    cases (throw_eq_error.1 h).1
    rfl

/-- An evaluation that fails comes to an expression that fails by itself. -/
theorem Expr.exists_culprit (h : e.evaluate n c = .error (.failure f) c') :
    ∃ p : Point, e.Reaches p n c ∧ p.Raises f := by
  induction n generalizing e c c' with
  | zero => cases h
  | succ n ih =>
    cases e with
    | literal v => cases h
    | misfit node => cases h
    | grouping e =>
      obtain ⟨p, hp, hf⟩ := ih (e := e) h
      exact ⟨p, .grouping hp, hf⟩
    | reference name =>
      obtain ⟨rfl, hget⟩ := Evaluation.eq_undefined_of_read h
      exact ⟨⟨n + 1, _, c⟩, .here, .reference hget⟩
    | assign name e =>
      rcases bind_eq_error.1 h with he | ⟨v, c₁, he, h⟩
      · obtain ⟨p, hp, hf⟩ := ih he
        exact ⟨p, .assign hp, hf⟩
      rcases bind_eq_error.1 h with hw | ⟨_, _, _, h⟩
      · obtain ⟨rfl, hget⟩ := Evaluation.eq_undefined_of_write hw
        exact ⟨⟨n + 1, _, c⟩, .here, .assign he hget⟩
      · exact absurd h pure_ne_error
    | unary operator e =>
      rcases bind_eq_error.1 h with he | ⟨v, c₁, he, h⟩
      · obtain ⟨p, hp, hf⟩ := ih he
        exact ⟨p, .unary hp, hf⟩
      · exact ⟨⟨n + 1, _, c⟩, .here, .unary he (Evaluation.eq_error_of_ofOperator h)⟩
    | binary left operator right =>
      rcases bind_eq_error.1 h with ha | ⟨v, c₁, ha, h⟩
      · obtain ⟨p, hp, hf⟩ := ih ha
        exact ⟨p, .binaryLeft hp, hf⟩
      rcases bind_eq_error.1 h with hb | ⟨w, c₂, hb, h⟩
      · obtain ⟨p, hp, hf⟩ := ih hb
        exact ⟨p, .binaryRight ha hp, hf⟩
      · exact ⟨⟨n + 1, _, c⟩, .here, .binary ha hb (Evaluation.eq_error_of_ofOperator h)⟩
    | logical left operator right =>
      rcases bind_eq_error.1 h with ha | ⟨v, c₁, ha, h⟩
      · obtain ⟨p, hp, hf⟩ := ih ha
        exact ⟨p, .logicalLeft hp, hf⟩
      · cases hd : decidesLogical operator v with
        | true =>
          simp only [hd, if_true] at h
          exact absurd h pure_ne_error
        | false =>
          simp only [hd, Bool.false_eq_true, if_false] at h
          obtain ⟨p, hp, hf⟩ := ih h
          exact ⟨p, .logicalRight ha hd hp, hf⟩

theorem Execution.exists_culprit_of_value (h : value n e m = .error (.failure f) m') :
    ∃ p : Point, e.Reaches p n m.scopes ∧ p.Raises f := by
  unfold value at h
  cases he : e.evaluate n m.scopes with
  | ok v c =>
    rw [he] at h
    cases h
  | error halt c =>
    rw [he] at h
    cases h
    exact Expr.exists_culprit he

theorem Execution.exists_culprit_of_holds (h : holds n e m = .error (.failure f) m') :
    ∃ p : Point, e.Reaches p n m.scopes ∧ p.Raises f := by
  rcases bind_eq_error.1 h with hv | ⟨v, m₁, _, h⟩
  · exact exists_culprit_of_value hv
  · exact absurd h pure_ne_error

/-- A loop that fails does so in one of its rounds. -/
theorem Execution.exists_culprit_of_repeatWhile {levels k : Nat} {condition : Expr} {body : Stmt}
    (ih : ∀ {m m'}, body.execute rounds levels m = .error (.failure f) m' →
      ∃ p : Point, body.Reaches rounds p levels m ∧ p.Raises f)
    (h : repeatWhile (holds levels condition) (body.execute rounds levels) k m =
      .error (.failure f) m') :
    ∃ p : Point, (Stmt.loop condition body).Reaches rounds p (levels + 1) m ∧ p.Raises f := by
  induction k generalizing m with
  | zero => cases h
  | succ k ihk =>
    rcases bind_eq_error.1 h with hc | ⟨holding, m₁, hc, h⟩
    · obtain ⟨p, hp, hf⟩ := exists_culprit_of_holds hc
      exact ⟨p, .loop hp, hf⟩
    cases holding with
    | false => exact absurd h pure_ne_error
    | true =>
      rcases bind_eq_error.1 h with hb | ⟨_, m₂, hb, h⟩
      · obtain ⟨p, hp, hf⟩ := ih hb
        exact ⟨p, .round hc hp, hf⟩
      · obtain ⟨p, hp, hf⟩ := ihk h
        exact ⟨p, .nextRound hc hb hp, hf⟩

/-- An execution that fails comes to an expression that fails by itself. -/
theorem Stmt.exists_culprit (h : s.execute rounds n m = .error (.failure f) m') :
    ∃ p : Point, s.Reaches rounds p n m ∧ p.Raises f := by
  -- on the levels, as a block takes two of them at once
  induction n using Nat.strongRecOn generalizing s m m' with
  | ind n ih =>
    match n, s with
    | 0, _ => cases h
    | n + 1, .expression e =>
      rcases bind_eq_error.1 h with h | ⟨_, _, _, h⟩
      · obtain ⟨p, hp, hf⟩ := exists_culprit_of_value h
        exact ⟨p, .expression hp, hf⟩
      · exact absurd h pure_ne_error
    | n + 1, .print e =>
      rcases bind_eq_error.1 h with h | ⟨v, _, _, h⟩
      · obtain ⟨p, hp, hf⟩ := exists_culprit_of_value h
        exact ⟨p, .print hp, hf⟩
      · cases eq_tooLong_of_emit h
    | n + 1, .declare _ none => cases h
    | n + 1, .declare _ (some e) =>
      rcases bind_eq_error.1 h with h | ⟨_, _, _, h⟩
      · obtain ⟨p, hp, hf⟩ := exists_culprit_of_value h
        exact ⟨p, .declare hp, hf⟩
      · cases h
    | 1, .block _ => cases h
    | n + 2, .block body =>
      unfold execute inNewScope at h
      cases hbody : inOrder (Stmt.execute rounds n) body { m with scopes := {} :: m.scopes } with
      | ok u m₁ =>
        rw [hbody] at h
        cases h
      | error halt m₁ =>
        rw [hbody] at h
        cases h
        obtain ⟨done, s, rest, m₂, rfl, hdone, hs⟩ := exists_halting hbody
        obtain ⟨p, hp, hf⟩ := ih n (by omega) hs
        exact ⟨p, .block hdone hp, hf⟩
    | n + 1, .ifThen condition thenBranch =>
      rcases bind_eq_error.1 h with hc | ⟨holding, m₁, hc, h⟩
      · obtain ⟨p, hp, hf⟩ := exists_culprit_of_holds hc
        exact ⟨p, .ifThen hp, hf⟩
      cases holding with
      | false => exact absurd h pure_ne_error
      | true =>
        obtain ⟨p, hp, hf⟩ := ih n (by omega) h
        exact ⟨p, .thenBranch hc hp, hf⟩
    | n + 1, .ifElse condition thenBranch elseBranch =>
      rcases bind_eq_error.1 h with hc | ⟨holding, m₁, hc, h⟩
      · obtain ⟨p, hp, hf⟩ := exists_culprit_of_holds hc
        exact ⟨p, .ifElse hp, hf⟩
      cases holding with
      | false =>
        obtain ⟨p, hp, hf⟩ := ih n (by omega) h
        exact ⟨p, .elseBranch hc hp, hf⟩
      | true =>
        obtain ⟨p, hp, hf⟩ := ih n (by omega) h
        exact ⟨p, .firstBranch hc hp, hf⟩
    | n + 1, .loop condition body => exact exists_culprit_of_repeatWhile (ih n (by omega)) h
    | n + 1, .misfit _ => cases h

/-! ## Culprits are parts of the program -/

theorem Expr.Reaches.all {Q : Token → Prop} (h : e.Reaches p n c) (he : e.All Q) :
    p.expression.All Q := by
  induction h with
  | here => exact he
  | grouping _ ih => exact ih he
  | assign _ ih | unary _ ih => exact ih fun t ht => he t (List.mem_cons_of_mem _ ht)
  | binaryLeft _ ih | logicalLeft _ ih =>
    exact ih fun t ht => he t (List.mem_cons_of_mem _ (List.mem_append_left _ ht))
  | binaryRight _ _ ih | logicalRight _ _ _ ih =>
    exact ih fun t ht => he t (List.mem_cons_of_mem _ (List.mem_append_right _ ht))

theorem Stmt.Reaches.all {Q : Token → Prop} (h : s.Reaches rounds p n m) (hs : s.All Q) :
    p.expression.All Q := by
  induction h with
  | expression h | print h => exact h.all hs
  | declare h => exact h.all fun t ht => hs t (List.mem_cons_of_mem _ ht)
  | block _ _ ih =>
    exact ih fun t ht => hs t (Stmt.mem_tokensAll.2
      ⟨_, List.mem_append_right _ List.mem_cons_self, ht⟩)
  | ifThen h | ifElse h | loop h => exact h.all fun t ht => hs t (List.mem_append_left _ ht)
  | thenBranch _ _ ih | round _ _ ih => exact ih fun t ht => hs t (List.mem_append_right _ ht)
  | firstBranch _ _ ih =>
    exact ih fun t ht => hs t (List.mem_append_right _ (List.mem_append_left _ ht))
  | elseBranch _ _ ih =>
    exact ih fun t ht => hs t (List.mem_append_right _ (List.mem_append_right _ ht))
  | nextRound _ _ _ ih => exact ih hs

theorem Expr.Reaches.wellFormed (h : e.Reaches p n c) (he : e.WellFormed) :
    p.expression.WellFormed := by
  induction h with
  | here => exact he
  | grouping _ ih => exact ih he
  | assign _ ih | unary _ ih => exact ih he.2
  | binaryLeft _ ih | logicalLeft _ ih => exact ih he.2.1
  | binaryRight _ _ ih | logicalRight _ _ _ ih => exact ih he.2.2

theorem Stmt.WellFormedAll.of_mem {ss : List Stmt} (h : WellFormedAll ss) (hs : s ∈ ss) :
    s.WellFormedDeclaration := by
  induction ss with
  | nil => exact absurd hs List.not_mem_nil
  | cons other ss ih =>
    rcases List.mem_cons.1 hs with rfl | hs
    · exact h.1
    · exact ih h.2 hs

theorem Stmt.WellFormedDeclaration.wellFormed (h : s.WellFormedDeclaration)
    (hs : ∀ name initializer, s ≠ .declare name initializer) : s.WellFormed := by
  rcases h with ⟨name, initializer, rfl, -⟩ | h
  · exact absurd rfl (hs name initializer)
  · exact h

theorem Stmt.Reaches.wellFormed (h : s.Reaches rounds p n m) (hs : s.WellFormedDeclaration) :
    p.expression.WellFormed := by
  induction h with
  | expression h | print h => exact h.wellFormed (hs.wellFormed (by simp))
  | declare h =>
    rcases hs with ⟨_, _, heq, -, he⟩ | hs
    · cases heq
      exact h.wellFormed (he _ rfl)
    · exact hs.elim
  | block _ _ ih =>
    have hbody : Stmt.WellFormedAll _ := hs.wellFormed (by simp)
    exact ih (hbody.of_mem (List.mem_append_right _ List.mem_cons_self))
  | ifThen h | ifElse h | loop h => exact h.wellFormed (hs.wellFormed (by simp)).1
  | thenBranch _ _ ih | round _ _ ih => exact ih (Or.inr (hs.wellFormed (by simp)).2)
  | firstBranch _ _ ih => exact ih (Or.inr (hs.wellFormed (by simp)).2.1)
  | elseBranch _ _ ih => exact ih (Or.inr (hs.wellFormed (by simp)).2.2)
  | nextRound _ _ _ ih => exact ih hs

/-! ## Failures that are reported -/

namespace Session

/-- The program comes, in one of its statements, to an expression that fails by itself; the token is
its operator or its name. -/
def Blames (rounds : Nat) (s : Session) (program : List Stmt) (failure : Failure) (t : Token) :
    Prop :=
  ∃ done stmt rest m p, program = done ++ stmt :: rest ∧
    execute rounds done { scopes := [s.globals] } = .ok () m ∧
    stmt.Reaches rounds p nestingLimit m ∧ p.Raises failure ∧ p.expression.own? = some t

variable {source : String} {program : List Stmt} {failure : Failure} {s : Session} {debug : Bool}

/-- What a text reports of its run, its program reports. -/
theorem mem_reports_perform (h : .ofFailure failure ∈ (s.run rounds debug source).reports) :
    .ofFailure failure ∈
      ((s.report (read source).reports).perform rounds (read source).program).reports := by
  have hfaults : .ofFailure failure ∉ (read source).reports := fun hmem => by
    cases isFault_of_mem_read hmem
  have hreading : .ofFailure failure ∈ (s.runReading rounds (read source)).reports := by
    rcases run_eq_or rounds debug s source with hrun | ⟨-, hrun⟩
    · rw [hrun] at h
      exact h
    · rw [hrun] at h
      exact absurd h hfaults
  cases hfault : (s.report (read source).reports).log.hadFault with
  | true =>
    rw [runReading_of_hadFault hfault] at hreading
    exact absurd hreading hfaults
  | false =>
    rw [runReading_of_not_hadFault hfault] at hreading
    exact (List.mem_append.1 hreading).resolve_left hfaults

/-- What fails is nested too deep, or there is a culprit. -/
theorem FailsIn.eq_tooDeep_or_blames {out : Outcome} (h : s.FailsIn rounds program failure out) :
    failure = .tooDeep ∨ ∃ t, s.Blames rounds program failure t ∧ failure.token? = some t := by
  obtain ⟨done, stmt, rest, m, m', halt, hprogram, hdone, hstmt, hhalt, -⟩ := h
  cases halt with
  | failure f =>
    obtain rfl := Option.some.inj hhalt
    obtain ⟨p, hp, hf⟩ := Stmt.exists_culprit hstmt
    obtain ⟨t, hown, ht⟩ := hf.exists_own
    exact Or.inr ⟨t, ⟨done, stmt, rest, m, p, hprogram, hdone, hp, hf, hown⟩, ht⟩
  | tooDeep => exact Or.inl (Option.some.inj hhalt).symm
  | _ => cases hhalt

/-- The token to blame stands in the program. -/
theorem Blames.mem_tokensAll (h : s.Blames rounds program failure t) :
    t ∈ Stmt.tokensAll program := by
  obtain ⟨done, stmt, rest, m, p, rfl, -, hp, -, hown⟩ := h
  have hall : stmt.All (· ∈ Stmt.tokensAll (done ++ stmt :: rest)) := fun u hu =>
    Stmt.mem_tokensAll.2 ⟨stmt, List.mem_append_right _ List.mem_cons_self, hu⟩
  exact hp.all hall t (Expr.mem_tokens_of_own? hown)

/-- The token to blame is an operator or a name. -/
theorem Blames.kind_mem (h : s.Blames rounds program failure t)
    (hprogram : Stmt.WellFormedAll program) : t.kind ∈ Kind.inTrees := by
  obtain ⟨done, stmt, rest, m, p, rfl, -, hp, -, hown⟩ := h
  have hstmt := hprogram.of_mem (List.mem_append_right done List.mem_cons_self)
  exact (hp.wellFormed hstmt).all t (Expr.mem_tokens_of_own? hown)

/-- The tokens of the program of a source are among those scanned. -/
theorem mem_tokens_scan (hp : (parse (scan source).tokens).program? = some program)
    (h : t ∈ Stmt.tokensAll program) : t ∈ (scan source).tokens := by
  refine mem_of_mem_tokensAll ?_ hp h
  rw [tokens_scan]
  exact List.append_ne_nil_of_right_ne_nil _ (List.cons_ne_nil _ _)

theorem program_read (hp : (parse (scan source).tokens).program? = some program) :
    (read source).program = program := by
  show (parse (scan source).tokens).program?.getD [] = program
  rw [hp]
  rfl

/-- A scanned token that is an operator or a name stands in the source, on one line. -/
theorem exists_stretch_of_mem_tokens (h : t ∈ (scan source).tokens)
    (hkind : t.kind ∈ Kind.inTrees) :
    ∃ x ∈ stretches source, x.token? = some t ∧ '\n' ∉ t.lexeme.toList ∧
      t.line = 1 + x.before.count '\n' := by
  have hkinds : ∀ k ∈ Kind.inTrees, k ≠ .eof ∧ k ≠ .string ∧ k ≠ .number := by decide
  obtain ⟨heof, hstring, hnumber⟩ := hkinds _ hkind
  rw [tokens_scan, body_eq_filterMap] at h
  rcases List.mem_append.1 h with h | h
  · obtain ⟨x, hx, ht⟩ := List.mem_filterMap.1 h
    have hbreak := not_mem_lexeme_of_stretch hx ht hstring hnumber
    exact ⟨x, hx, ht, hbreak, (token_of_stretch ht).2.2 hbreak⟩
  · rw [List.mem_singleton.1 h] at heof
    exact absurd rfl heof

/-- The lines of a source are right wherever they are told.  Each token and each report of the scan
carries the line on which its text ends, down the tokens the lines never decrease, and the end
carries one more than all line breaks.  The tokens in the trees that are read are scanned tokens.
And if the run of the source, whatever ran before it, reports a failure, then it is nested too deep,
which is told without a line; or the run has come to an expression that fails by itself, and the
line that is told is the one on which its operator or its name stands in the source. -/
theorem lines_right (source : String) :
    LinesRight source (scan source) ∧
    (∀ program ∈ (parse (scan source).tokens).program?, ∀ t ∈ Stmt.tokensAll program,
      t ∈ (scan source).tokens) ∧
    ∀ (s : Session) (rounds : Nat) (debug : Bool) (failure : Failure),
      .ofFailure failure ∈ (s.run rounds debug source).reports →
      (failure = .tooDeep ∧ (Report.ofFailure failure).text = nestingText) ∨
      ∃ t, s.Blames rounds (read source).program failure t ∧ t ∈ (scan source).tokens ∧
        ∃ x ∈ stretches source, x.token? = some t ∧ '\n' ∉ t.lexeme.toList ∧
          (Report.ofFailure failure).text =
            failure.text ++ "\n" ++ Report.lineText (1 + x.before.count '\n') := by
  obtain ⟨program, hprogram, hformed⟩ := exists_parse_scan source
  refine ⟨linesRight_scan source, fun _ hp t ht => mem_tokens_scan hp ht,
    fun s rounds debug failure h => ?_⟩
  have hfails := failsIn_perform (mem_reports_perform h)
  rcases hfails.eq_tooDeep_or_blames with rfl | ⟨t, hblames, htoken⟩
  · exact Or.inl ⟨rfl, rfl⟩
  · rw [program_read hprogram] at hblames ⊢
    have hmem := mem_tokens_scan hprogram hblames.mem_tokensAll
    obtain ⟨x, hx, hxt, hbreak, hline⟩ := exists_stretch_of_mem_tokens hmem
      (hblames.kind_mem hformed)
    refine Or.inr ⟨t, hblames, hmem, x, hx, hxt, hbreak, ?_⟩
    rw [← hline, Report.text, htoken]

end Session

end Lox
