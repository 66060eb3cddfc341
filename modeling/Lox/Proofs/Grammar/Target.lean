import Lox.Proofs.Grammar.Twin

/-!
# Bad targets cost nothing else

Tokens that the relaxed grammar derives are read with a report at each `=` that has no name in front
of it, and with no other.  No declaration is lost: the program is the one that is read, without a
report, once these `=` and what they assign are taken out (`parse_of_relaxed`).

As for phrases, an `else` that the derivation gives to one conditional goes to the last one in front
of it that is still dangling (`MendedStmt.takeElse`), of the given tokens and of the mended ones
alike.
-/

namespace Lox.Grammar

open Computing

variable {α : Type} {p q : Patch} {e : Expr} {rs rs' : List Token} {n : Nat}

/-! ## Statements without statements inside -/

/-- Whatever is behind the patch, the rule reads it to this. -/
def ReadBy (rule : Nat → Rule α) (p : Patch) (a : α) : Prop :=
  ∀ n rs rs', Twins (rule n) (rule n) p a rs rs'

theorem MendedExpr.readExpression (h : MendedExpr .expression p e) {t : Token}
    (ht : t.kind.tier? = none) (n : Nat) (r r' : List Token) :
    Twins (readExpression n) (readExpression n) p e (t :: r) (t :: r') :=
  h.reads (.of_tier?_eq_none ht) (.of_tier?_eq_none ht) n

theorem readBy_readVariable_plain {name close : Token} (hname : name.kind = .identifier)
    (hclose : close.kind = .semicolon) :
    ReadBy readVariable (.kept name ++ .kept close) (.declare name none) := by
  intro n rs rs'
  cases n with
  | zero => exact .stop
  | succ n =>
    rw [readVariable]
    have hne : close.kind ≠ .equal := by
      rw [hclose]
      decide
    refine .take (fun _ _ => expect_of_ahead rfl hname) ?_
    refine .look (fun _ => accept_of_ne hne) (accept_of_ne hne) ?_
    refine .look (fun _ => pure_apply) pure_apply ?_
    exact .expect .endOfVariable hclose

theorem readBy_readVariable_initialized {name equal close : Token}
    (hname : name.kind = .identifier) (hequal : equal.kind = .equal)
    (h : MendedExpr .expression p e) (hclose : close.kind = .semicolon) :
    ReadBy readVariable (.kept name ++ (.kept equal ++ (p ++ .kept close)))
      (.declare name (some e)) := by
  intro n rs rs'
  cases n with
  | zero => exact .stop
  | succ n =>
    rw [readVariable]
    refine .take (fun _ _ => expect_of_ahead rfl hname) ?_
    refine .take (fun _ _ => accept_of_kind hequal (by decide)) ?_
    have he := h.readExpression (by rw [hclose]; rfl) n rs rs'
    exact .bind_expect .endOfVariable hclose (.map some he)

theorem readBy_readEffect {close : Token} (h : MendedExpr .expression p e)
    (hclose : close.kind = .semicolon) : ReadBy readEffect (p ++ .kept close) (.expression e) := by
  intro n rs rs'
  cases n with
  | zero => exact .stop
  | succ n =>
    rw [readEffect]
    exact .bind_expect .endOfExpression hclose (h.readExpression (by rw [hclose]; rfl) n rs rs')

theorem readBy_readPrint {close : Token} (h : MendedExpr .expression p e)
    (hclose : close.kind = .semicolon) : ReadBy readPrint (p ++ .kept close) (.print e) := by
  intro n rs rs'
  cases n with
  | zero => exact .stop
  | succ n =>
    rw [readPrint]
    exact .bind_expect .endOfPrint hclose (h.readExpression (by rw [hclose]; rfl) n rs rs')

theorem readBy_readInitializer_missing {close : Token} (hclose : close.kind = .semicolon) :
    ReadBy readInitializer (.kept close) none :=
  fun _ _ _ => .last fun _ _ => bind_of_ok (accept_of_kind hclose (by decide))

theorem readBy_readInitializer_variable {word : Token} {stmt : Stmt} (hword : word.kind = .varWord)
    (h : ReadBy readVariable p stmt) : ReadBy readInitializer (.kept word ++ p) (some stmt) := by
  intro n rs rs'
  have hne : word.kind ≠ .semicolon := by
    rw [hword]
    decide
  unfold readInitializer
  refine .look (fun _ => accept_of_ne hne) (accept_of_ne hne) ?_
  refine .take (fun _ _ => accept_of_kind hword (by decide)) ?_
  exact .map _ (h n rs rs')

theorem readBy_readInitializer_effect {t : Token} {stmt : Stmt} (hbegins : p.Begins t)
    (hstarts : t.kind.startsExpression = true) (h : ReadBy readEffect p stmt) :
    ReadBy readInitializer p (some stmt) := by
  intro n rs rs'
  have hne : ∀ {k : Kind}, k.startsExpression = false → t.kind ≠ k := by
    rintro k hk rfl
    rw [hstarts] at hk
    cases hk
  unfold readInitializer
  refine .look_at hbegins (fun _ _ => accept_of_ne (hne rfl)) ?_
  refine .look_at hbegins (fun _ _ => accept_of_ne (hne rfl)) ?_
  exact .map _ (h n rs rs')

/-- An expression that may be missing. -/
inductive MendedOptional : Patch → Option Expr → Prop
  | missing : MendedOptional .nothing none
  | present {p : Patch} {e : Expr} (h : MendedExpr .expression p e) : MendedOptional p (some e)

theorem MendedOptional.reads {o : Option Expr} (h : MendedOptional p o) {close : Token}
    (hclose : close.kind = .semicolon ∨ close.kind = .rightParen) (n : Nat) (r r' : List Token) :
    Twins (readOptional close.kind n) (readOptional close.kind n) p o (close :: r)
      (close :: r') := by
  unfold readOptional
  cases h with
  | missing =>
    have hnext : ∀ (us : List Token) reports,
        isNext [close.kind] ⟨close :: us, reports⟩ = .ok true ⟨close :: us, reports⟩ := by
      intro us reports
      rcases hclose with hk | hk <;> simp [isNext, hk]
    exact .look (fun _ => hnext _ _) (hnext _ _) .done
  | present h =>
    obtain ⟨t, hbegins, hstarts, -⟩ := h.starts
    have hne : t.kind ≠ close.kind := by
      intro hk
      rw [hk] at hstarts
      rcases hclose with hk | hk <;> rw [hk] at hstarts <;> cases hstarts
    refine .look_at (a := false) hbegins (fun us reports => by simp [isNext, hne]) ?_
    exact .map _ (h.readExpression (by rcases hclose with hk | hk <;> rw [hk] <;> rfl) n r r')

/-! ## Statements with statements inside -/

mutual

/-- The patch is a statement, which may be dangling: given and mended, it is read to this tree. -/
inductive MendedStmt : Bool → Patch → Stmt → Prop
  | effect {p : Patch} {t stmt} (hbegins : p.Begins t) (hstarts : t.kind.startsExpression = true)
      (h : ReadBy readEffect p stmt) : MendedStmt false p stmt
  | print {word} {p : Patch} {stmt} (hword : word.kind = .printWord)
      (h : ReadBy readPrint p stmt) : MendedStmt false (.kept word ++ p) stmt
  | block {l} {p : Patch} {body r} (hl : l.kind = .leftBrace) (inner : MendedSequence p body)
      (hr : r.kind = .rightBrace) : MendedStmt false (.kept l ++ (p ++ .kept r)) (.block body)
  | ifThen {word l} {c : Patch} {condition r dangling} {p : Patch} {thenBranch}
      (hword : word.kind = .ifWord) (hl : l.kind = .leftParen)
      (hcondition : MendedExpr .expression c condition) (hr : r.kind = .rightParen)
      (hthen : MendedStmt dangling p thenBranch) :
      MendedStmt true (.kept word ++ (.kept l ++ (c ++ (.kept r ++ p))))
        (.ifThen condition thenBranch)
  | ifElse {word l} {c : Patch} {condition r} {p : Patch} {thenBranch other dangling} {q : Patch}
      {elseBranch} (hword : word.kind = .ifWord) (hl : l.kind = .leftParen)
      (hcondition : MendedExpr .expression c condition) (hr : r.kind = .rightParen)
      (hthen : MendedStmt false p thenBranch) (hother : other.kind = .elseWord)
      (helse : MendedStmt dangling q elseBranch) :
      MendedStmt dangling (.kept word ++ (.kept l ++ (c ++ (.kept r ++ (p ++ (.kept other ++ q))))))
        (.ifElse condition thenBranch elseBranch)
  | whileLoop {word l} {c : Patch} {condition r dangling} {p : Patch} {body}
      (hword : word.kind = .whileWord) (hl : l.kind = .leftParen)
      (hcondition : MendedExpr .expression c condition) (hr : r.kind = .rightParen)
      (hbody : MendedStmt dangling p body) :
      MendedStmt dangling (.kept word ++ (.kept l ++ (c ++ (.kept r ++ p)))) (.loop condition body)
  | forLoop {word l} {i c u : Patch} {initializer condition increment close r dangling}
      {p : Patch} {body} (hword : word.kind = .forWord) (hl : l.kind = .leftParen)
      (hinitializer : ReadBy readInitializer i initializer)
      (hcondition : MendedOptional c condition) (hclose : close.kind = .semicolon)
      (hincrement : MendedOptional u increment) (hr : r.kind = .rightParen)
      (hbody : MendedStmt dangling p body) :
      MendedStmt dangling
        (.kept word ++ (.kept l ++ (i ++ (c ++ (.kept close ++ (u ++ (.kept r ++ p)))))))
        (.forLoop initializer condition increment body)

/-- The patch is a sequence of declarations: given and mended, it is read to these trees. -/
inductive MendedSequence : Patch → List Stmt → Prop
  | nil : MendedSequence .nothing []
  | variable {word} {p : Patch} {stmt} {q : Patch} {ss} (hword : word.kind = .varWord)
      (first : ReadBy readVariable p stmt) (rest : MendedSequence q ss) :
      MendedSequence ((.kept word ++ p) ++ q) (stmt :: ss)
  | statement {dangling} {p : Patch} {stmt} {q : Patch} {ss} (first : MendedStmt dangling p stmt)
      (rest : MendedSequence q ss) : MendedSequence (p ++ q) (stmt :: ss)

end

/-- An `else` behind a dangling statement, with what follows it, makes it another statement. -/
theorem MendedStmt.takeElse {dangling dangling' : Bool} {p q : Patch} {other : Token}
    {stmt elseBranch : Stmt} (h : MendedStmt dangling p stmt) (hd : dangling = true)
    (hother : other.kind = .elseWord) (helse : MendedStmt dangling' q elseBranch) :
    ∃ dangling stmt, MendedStmt dangling (p ++ (.kept other ++ q)) stmt := by
  match h with
  | .effect _ _ _ | .print _ _ | .block _ _ _ => cases hd
  | @MendedStmt.ifThen _ _ _ _ _ inner _ _ hword hl hcondition hr hthen =>
    simp only [Patch.append_assoc]
    by_cases hinner : inner = true
    · obtain ⟨_, _, hthen⟩ := hthen.takeElse hinner hother helse
      exact ⟨_, _, .ifThen hword hl hcondition hr hthen⟩
    · rw [Bool.not_eq_true] at hinner
      subst hinner
      exact ⟨_, _, .ifElse hword hl hcondition hr hthen hother helse⟩
  | .ifElse hword hl hcondition hr hthen hother' helse' =>
    obtain ⟨_, _, helse'⟩ := helse'.takeElse hd hother helse
    simp only [Patch.append_assoc]
    exact ⟨_, _, .ifElse hword hl hcondition hr hthen hother' helse'⟩
  | .whileLoop hword hl hcondition hr hbody =>
    obtain ⟨_, _, hbody⟩ := hbody.takeElse hd hother helse
    simp only [Patch.append_assoc]
    exact ⟨_, _, .whileLoop hword hl hcondition hr hbody⟩
  | .forLoop hword hl hinitializer hcondition hclose hincrement hr hbody =>
    obtain ⟨_, _, hbody⟩ := hbody.takeElse hd hother helse
    simp only [Patch.append_assoc]
    exact ⟨_, _, .forLoop hword hl hinitializer hcondition hclose hincrement hr hbody⟩

theorem MendedStmt.starts {dangling : Bool} {p : Patch} {stmt : Stmt}
    (h : MendedStmt dangling p stmt) : ∃ t, p.Begins t ∧ t.kind.opensStatement = true := by
  cases h with
  | effect hbegins hstarts => exact ⟨_, hbegins, by simp [Kind.opensStatement, hstarts]⟩
  | print h | block h | ifThen h | ifElse h | whileLoop h | forLoop h =>
    exact ⟨_, Patch.begins_kept _, by rw [h]; rfl⟩

/-- Something is behind, and it is no `else`. -/
def EndsBranch (rs : List Token) : Prop := ∃ t r, rs = t :: r ∧ t.kind ≠ .elseWord

/-- No declaration begins with an `else`. -/
theorem MendedSequence.endsBranch {ss : List Stmt} (h : MendedSequence q ss) {t : Token}
    (ht : t.kind ≠ .elseWord) (r r' : List Token) :
    EndsBranch (q.given ++ t :: r) ∧ EndsBranch (q.mended ++ t :: r') := by
  cases h with
  | nil => exact ⟨⟨t, r, rfl, ht⟩, ⟨t, r', rfl, ht⟩⟩
  | «variable» hword =>
    have hne : Kind.varWord ≠ .elseWord := by decide
    rw [← hword] at hne
    exact ⟨⟨_, _, rfl, hne⟩, ⟨_, _, rfl, hne⟩⟩
  | statement first =>
    obtain ⟨u, hbegins, hu⟩ := first.starts
    obtain ⟨⟨us, hus⟩, ⟨us', hus'⟩⟩ := hbegins.append _
    have hne : u.kind ≠ .elseWord := by
      intro hk
      rw [hk] at hu
      cases hu
    exact ⟨⟨u, us ++ t :: r, by rw [hus]; rfl, hne⟩, ⟨u, us' ++ t :: r', by rw [hus']; rfl, hne⟩⟩

section Branches

variable {l r : Token} {c : Patch} {condition : Expr} {thenBranch elseBranch body : Stmt}

/-- An expression in parentheses is read, and then what is behind it. -/
theorem Twins.bind_condition (opening closing : Expectation) {next : Expr → Rule Stmt}
    {stmt : Stmt} (hl : l.kind = opening.kind) (h : MendedExpr .expression c condition)
    (hr : r.kind = closing.kind) (hclosing : closing.kind = .rightParen) (n : Nat)
    (hnext : Twins (next condition) (next condition) p stmt rs rs')
    (ho : ∀ condition, Orderly (next condition)) :
    let rule : Rule Stmt := do
      let _ ← Grammar.expect n opening
      let condition ← readExpression n
      let _ ← Grammar.expect n closing
      next condition
    Twins rule rule (.kept l ++ (c ++ (.kept r ++ p))) stmt rs rs' := by
  refine .take (fun _ _ => expect_of_ahead rfl hl) ?_
  refine .bind (h.readExpression (by rw [hr, hclosing]; rfl) n _ _) ?_ ?_
  · exact .take (fun _ _ => expect_of_ahead rfl hr) hnext
  · exact fun condition => (orderly_expect _).bind fun _ => ho condition

theorem twins_readIf_ifThen (hl : l.kind = .leftParen)
    (hcondition : MendedExpr .expression c condition) (hr : r.kind = .rightParen)
    (hthen : ∀ n, Twins (readStatement n) (readStatement n) p thenBranch rs rs')
    (hrs : EndsBranch rs) (hrs' : EndsBranch rs') (n : Nat) :
    Twins (readIf n) (readIf n) (.kept l ++ (c ++ (.kept r ++ p))) (.ifThen condition thenBranch)
      rs rs' := by
  cases n with
  | zero => exact .stop
  | succ n =>
    have ho := OrderlyStatements.all n
    obtain ⟨t, us, rfl, ht⟩ := hrs
    obtain ⟨t', us', rfl, ht'⟩ := hrs'
    rw [readIf]
    refine .bind_condition .startOfIf .endOfIf hl hcondition hr rfl n ?_ ?_
    · refine .bind_done (hthen n) ?_ (ho.orderly_otherBranch _)
      exact .look (fun _ => accept_of_ne ht) (accept_of_ne ht') .done
    · exact fun _ => ho.statement.bind (ho.orderly_otherBranch _)

theorem twins_readIf_ifElse {other : Token} (hl : l.kind = .leftParen)
    (hcondition : MendedExpr .expression c condition) (hr : r.kind = .rightParen)
    (hthen : ∀ n, Twins (readStatement n) (readStatement n) p thenBranch
      (other :: (q.given ++ rs)) (other :: (q.mended ++ rs')))
    (hother : other.kind = .elseWord)
    (helse : ∀ n, Twins (readStatement n) (readStatement n) q elseBranch rs rs') (n : Nat) :
    Twins (readIf n) (readIf n) (.kept l ++ (c ++ (.kept r ++ (p ++ (.kept other ++ q)))))
      (.ifElse condition thenBranch elseBranch) rs rs' := by
  cases n with
  | zero => exact .stop
  | succ n =>
    have ho := OrderlyStatements.all n
    rw [readIf]
    refine .bind_condition .startOfIf .endOfIf hl hcondition hr rfl n ?_ ?_
    · refine .bind (hthen n) ?_ (ho.orderly_otherBranch _)
      refine .take (fun _ _ => accept_of_kind hother (by decide)) ?_
      exact .bind_done (helse n) .done fun _ => orderly_pure _
    · exact fun _ => ho.statement.bind (ho.orderly_otherBranch _)

theorem twins_readWhile (hl : l.kind = .leftParen)
    (hcondition : MendedExpr .expression c condition) (hr : r.kind = .rightParen)
    (hbody : ∀ n, Twins (readStatement n) (readStatement n) p body rs rs') (n : Nat) :
    Twins (readWhile n) (readWhile n) (.kept l ++ (c ++ (.kept r ++ p))) (.loop condition body)
      rs rs' := by
  cases n with
  | zero => exact .stop
  | succ n =>
    have ho := OrderlyStatements.all n
    rw [readWhile]
    refine .bind_condition .startOfWhile .endOfWhile hl hcondition hr rfl n ?_ ?_
    · exact .bind_done (hbody n) .done fun _ => orderly_pure _
    · exact fun _ => ho.statement.bind fun _ => orderly_pure _

theorem twins_readFor {i u : Patch} {close : Token} {initializer : Option Stmt}
    {condition increment : Option Expr} (hl : l.kind = .leftParen)
    (hinitializer : ReadBy readInitializer i initializer) (hcondition : MendedOptional c condition)
    (hclose : close.kind = .semicolon) (hincrement : MendedOptional u increment)
    (hr : r.kind = .rightParen)
    (hbody : ∀ n, Twins (readStatement n) (readStatement n) p body rs rs') (n : Nat) :
    Twins (readFor n) (readFor n)
      (.kept l ++ (i ++ (c ++ (.kept close ++ (u ++ (.kept r ++ p))))))
      (.forLoop initializer condition increment body) rs rs' := by
  cases n with
  | zero => exact .stop
  | succ n =>
    have ho := OrderlyStatements.all n
    have hcondition := hcondition.reads (Or.inl hclose) n
    have hincrement := hincrement.reads (Or.inr hr) n
    rw [hclose] at hcondition
    rw [hr] at hincrement
    rw [readFor]
    have hclauses := fun initializer condition increment =>
      (orderly_expect (n := n) .endOfClauses).bind fun _ => ho.statement.bind fun body =>
        orderly_pure (Stmt.forLoop initializer condition increment body)
    have hincrements := fun initializer condition =>
      (orderly_expect (n := n) .endOfLoopCondition).bind fun _ =>
        (orderly_readOptional .rightParen n).bind (hclauses initializer condition)
    have hconditions := fun initializer => (orderly_readOptional .semicolon n).bind
      (hincrements initializer)
    refine .take (fun _ _ => expect_of_ahead rfl hl) ?_
    refine .bind (hinitializer n _ _) ?_ hconditions
    refine .bind (hcondition _ _) ?_ (hincrements _)
    refine .take (fun _ _ => expect_of_ahead rfl hclose) ?_
    refine .bind (hincrement _ _) ?_ (hclauses _ _)
    refine .take (fun _ _ => expect_of_ahead rfl hr) ?_
    exact .bind_done (hbody n) .done fun _ => orderly_pure _

end Branches

/-! ## Sequences of declarations -/

section Gather

variable {closes : Kind → Bool} {bound bound' : List Token} {stmt : Stmt} {ss : List Stmt}
  {t : Token} {r r' : List Token}

theorem twins_gather_nil {item : Rule (Option Stmt)} (ht : closes t.kind = true)
    (hb : (t :: r).length ≤ bound.length) (hb' : (t :: r').length ≤ bound'.length) :
    Twins (gather closes item bound) (gather closes item bound') .nothing [] (t :: r)
      (t :: r') := by
  cases bound with
  | nil => exact absurd hb (Nat.not_succ_le_zero _)
  | cons _ bound =>
    cases bound' with
    | nil => exact absurd hb' (Nat.not_succ_le_zero _)
    | cons _ bound' =>
      unfold gather
      refine .look (fun _ => peek_of_ahead rfl) (peek_of_ahead rfl) ?_
      rw [if_pos ht, if_pos ht]
      exact .done

/-- A declaration comes first, and then the others. -/
theorem twins_gather_cons (hc : closes .eof = true) (hbegins : p.Begins t)
    (ht : closes t.kind = false) (hb : ((p ++ q).given ++ rs).length ≤ bound.length)
    (hb' : ((p ++ q).mended ++ rs').length ≤ bound'.length)
    (hfirst : Twins (readDeclaration n) (readDeclaration n) p (some stmt) (q.given ++ rs)
      (q.mended ++ rs'))
    (hrest : ∀ {bound bound' : List Token}, (q.given ++ rs).length ≤ bound.length →
      (q.mended ++ rs').length ≤ bound'.length →
      Twins (gather closes (readDeclaration n) bound) (gather closes (readDeclaration n) bound') q
        ss rs rs') :
    Twins (gather closes (readDeclaration n) bound) (gather closes (readDeclaration n) bound')
      (p ++ q) (stmt :: ss) rs rs' := by
  have ho := OrderlyStatements.all n
  have heof : t.kind ≠ .eof := by
    intro hk
    rw [hk, hc] at ht
    cases ht
  have hbegins' := hbegins.append q
  obtain ⟨⟨us, hus⟩, ⟨us', hus'⟩⟩ := hbegins
  simp only [Patch.given_append, Patch.mended_append, hus, hus', List.length_append,
    List.length_cons] at hb hb'
  cases bound with
  | nil => exact absurd hb (by simp)
  | cons _ bound =>
    cases bound' with
    | nil => exact absurd hb' (by simp)
    | cons _ bound' =>
      rw [List.length_cons] at hb hb'
      unfold gather
      refine .look_at hbegins' (fun _ _ => peek_of_ahead rfl) ?_
      rw [if_neg (by simp [ht]), if_neg (by simp [ht])]
      have hothers := @hrest bound bound' (by rw [List.length_append]; omega)
        (by rw [List.length_append]; omega)
      refine .bind_at hfirst (.bind_done hothers .done fun _ => orderly_pure _) ?_
      -- a declaration takes a token, so the rounds that are left are enough for the others
      intro reports o s' h
      rw [hus] at h
      have hlt := ho.progresses _ _ _ _ _ rfl heof h
      simp only [List.cons_append, List.length_cons, List.length_append] at hlt
      exact (orderlyAt_gather hc ho.declaration ho.progresses bound s' (by omega)).bind
        fun _ _ _ => orderly_pure _ _

theorem twins_readDeclaration_variable {word : Token} (hword : word.kind = .varWord)
    (h : ReadBy readVariable p stmt) (hend : ∃ t ∈ rs, t.kind = .eof) (n : Nat) :
    Twins (readDeclaration n) (readDeclaration n) (.kept word ++ p) (some stmt) rs rs' := by
  cases n with
  | zero => exact .stop
  | succ n =>
    rw [readDeclaration]
    refine .recover (OrderlyStatements.all n).orderly_declaration hend ?_
    exact .take (fun _ _ => accept_of_kind hword (by decide)) (h n _ _)

theorem twins_readDeclaration_statement (hbegins : p.Begins t) (ht : t.kind.opensStatement = true)
    (hend : ∃ t ∈ rs, t.kind = .eof)
    (h : ∀ n, Twins (readStatement n) (readStatement n) p stmt rs rs') (n : Nat) :
    Twins (readDeclaration n) (readDeclaration n) p (some stmt) rs rs' := by
  cases n with
  | zero => exact .stop
  | succ n =>
    have hne : t.kind ≠ .varWord := by
      intro hk
      rw [hk] at ht
      cases ht
    rw [readDeclaration]
    refine .recover (OrderlyStatements.all n).orderly_declaration hend ?_
    exact .look_at hbegins (fun _ _ => accept_of_ne hne) (h n)

theorem twins_readBlock (ht : t.kind = .rightBrace)
    (h : ∀ n, Twins (gather closesBlock (readDeclaration n) (p.given ++ t :: rs))
      (gather closesBlock (readDeclaration n) (p.mended ++ t :: rs')) p ss (t :: rs) (t :: rs'))
    (n : Nat) : Twins (readBlock n) (readBlock n) (p ++ .kept t) ss rs rs' := by
  cases n with
  | zero => exact .stop
  | succ n =>
    let closing (bound : List Token) : Rule (List Stmt) := do
      let body ← gather closesBlock (readDeclaration n) bound
      let _ ← expect n .endOfBlock
      return body
    have hread : ∀ us us' reports, readBlock (n + 1) ⟨us ++ [t] ++ us', reports⟩ =
        closing (us ++ t :: us') ⟨us ++ [t] ++ us', reports⟩ := by
      intro us us' reports
      rw [readBlock, List.append_assoc]
      rfl
    have hclosing : Twins (closing (p.given ++ t :: rs)) (closing (p.mended ++ t :: rs'))
        (p ++ .kept t) ss rs rs' := .bind_expect .endOfBlock ht (h n)
    exact .congr (fun _ => hread _ _ _) (hread _ _ _) hclosing

end Gather

mutual

/-- Every statement is read, given and mended, unless nesting gets too deep. -/
theorem MendedStmt.twins {dangling : Bool} {p : Patch} {stmt : Stmt} {rs rs' : List Token}
    (h : MendedStmt dangling p stmt) (hno : dangling = true → EndsBranch rs ∧ EndsBranch rs')
    (hend : ∃ t ∈ rs, t.kind = .eof) (n : Nat) :
    Twins (readStatement n) (readStatement n) p stmt rs rs' := by
  cases n with
  | zero => exact .stop
  | succ n =>
  -- the word at the front, given and mended alike, tells the rule that reads the statement
  match h with
  | @MendedStmt.effect _ t _ hbegins hstarts h =>
    have hk : t.kind ∉ [Kind.printWord, .ifWord, .whileWord, .forWord, .leftBrace] := by
      intro hk
      simp only [List.mem_cons, List.not_mem_nil, or_false] at hk
      rcases hk with hk | hk | hk | hk | hk <;> rw [hk] at hstarts <;> cases hstarts
    obtain ⟨⟨us, hus⟩, ⟨us', hus'⟩⟩ := hbegins
    refine .congr (fun _ => ?_) ?_ (h n rs rs')
    · rw [hus]
      exact readStatement_effect rfl hk
    · rw [hus']
      exact readStatement_effect rfl hk
  | .print hword h =>
    have hread : ∀ us reports, readStatement (n + 1) ⟨_ :: us, reports⟩ = _ :=
      fun _ _ => readStatement_print rfl hword
    exact .after hread hread (h n rs rs')
  | @MendedStmt.block _ _ _ r hl inner hr =>
    have hread : ∀ us reports, readStatement (n + 1) ⟨_ :: us, reports⟩ = _ :=
      fun _ _ => readStatement_block rfl hl
    have hbody := fun n => inner.twins closesBlock rfl (by simp [closesBlock, or_comm])
      (show closesBlock r.kind = true by rw [hr]; rfl) rs rs'
      (exists_eof_of_suffix (List.suffix_cons r rs) hend) n (Nat.le_refl _) (Nat.le_refl _)
    exact .after hread hread (.map _ (twins_readBlock hr hbody n))
  | .ifThen hword hl hcondition hr hthen =>
    have hread : ∀ us reports, readStatement (n + 1) ⟨_ :: us, reports⟩ = _ :=
      fun _ _ => readStatement_if rfl hword
    have hthen := fun n => hthen.twins (fun _ => hno rfl) hend n
    obtain ⟨hrs, hrs'⟩ := hno rfl
    exact .after hread hread (twins_readIf_ifThen hl hcondition hr hthen hrs hrs' n)
  | @MendedStmt.ifElse _ _ _ _ _ _ _ other _ q _ hword hl hcondition hr hthen hother helse =>
    have hread : ∀ us reports, readStatement (n + 1) ⟨_ :: us, reports⟩ = _ :=
      fun _ _ => readStatement_if rfl hword
    have hends : ∃ t ∈ other :: (q.given ++ rs), t.kind = .eof :=
      exists_eof_of_suffix (suffix_behind (List.suffix_append q.given rs)) hend
    have hthen : ∀ n, Twins (readStatement n) (readStatement n) _ _ (other :: (q.given ++ rs))
        (other :: (q.mended ++ rs')) := fun n => hthen.twins (by simp) hends n
    have helse := fun n => helse.twins hno hend n
    exact .after hread hread (twins_readIf_ifElse hl hcondition hr hthen hother helse n)
  | .whileLoop hword hl hcondition hr hbody =>
    have hread : ∀ us reports, readStatement (n + 1) ⟨_ :: us, reports⟩ = _ :=
      fun _ _ => readStatement_while rfl hword
    have hbody := fun n => hbody.twins hno hend n
    exact .after hread hread (twins_readWhile hl hcondition hr hbody n)
  | .forLoop hword hl hinitializer hcondition hclose hincrement hr hbody =>
    have hread : ∀ us reports, readStatement (n + 1) ⟨_ :: us, reports⟩ = _ :=
      fun _ _ => readStatement_for rfl hword
    have hbody := fun n => hbody.twins hno hend n
    exact .after hread hread
      (twins_readFor hl hinitializer hcondition hclose hincrement hr hbody n)

/-- Every sequence of declarations is read, given and mended, unless nesting gets too deep. -/
theorem MendedSequence.twins {p : Patch} {ss : List Stmt} (h : MendedSequence p ss)
    (closes : Kind → Bool) (hc : closes .eof = true)
    (hcloses : ∀ k, closes k = true → k = .eof ∨ k = .rightBrace) {close : Token}
    (hclose : closes close.kind = true) (r r' : List Token)
    (hend : ∃ t ∈ close :: r, t.kind = .eof) (n : Nat) {bound bound' : List Token}
    (hb : (p.given ++ close :: r).length ≤ bound.length)
    (hb' : (p.mended ++ close :: r').length ≤ bound'.length) :
    Twins (gather closes (readDeclaration n) bound) (gather closes (readDeclaration n) bound') p ss
      (close :: r) (close :: r') := by
  match h with
  | .nil => exact twins_gather_nil hclose hb hb'
  | @MendedSequence.variable word _ _ q _ hword first rest =>
    have hends := exists_eof_of_suffix (List.suffix_append q.given (close :: r)) hend
    refine twins_gather_cons hc (Patch.begins_kept _) ?_ hb hb'
      (twins_readDeclaration_variable hword first hends n) fun hb hb' => ?_
    · exact closes_eq_false hcloses (by rw [hword]; decide) (by rw [hword]; decide)
    · exact rest.twins closes hc hcloses hclose r r' hend n hb hb'
  | @MendedSequence.statement _ _ _ q _ first rest =>
    have hends := exists_eof_of_suffix (List.suffix_append q.given (close :: r)) hend
    have hne : close.kind ≠ .elseWord := by
      intro hk
      rcases hcloses _ hclose with h | h <;> rw [hk] at h <;> cases h
    have hstmt := first.twins (fun _ => rest.endsBranch hne r r') hends
    obtain ⟨t, hbegins, ht⟩ := first.starts
    have hfirst := twins_readDeclaration_statement hbegins ht hends hstmt n
    refine twins_gather_cons hc hbegins ?_ hb hb' hfirst fun hb hb' => ?_
    · refine closes_eq_false hcloses ?_ ?_ <;> intro hk <;> rw [hk] at ht <;> cases ht
    · exact rest.twins closes hc hcloses hclose r r' hend n hb hb'

end

/-! ## Derivations are read -/

/-- What a mended symbol is read to, whatever is behind it. -/
def Symbol.Settles : Symbol → Patch → Prop
  | .declaration, p => ∀ {q ss}, MendedSequence q ss → ∃ stmt, MendedSequence (p ++ q) (stmt :: ss)
  | .varDecl, p => ∃ word q stmt, p = .kept word ++ q ∧ word.kind = .varWord ∧
      ReadBy readVariable q stmt
  | .statement, p => ∃ dangling stmt, MendedStmt dangling p stmt
  | .exprStmt, p => ∃ t stmt, p.Begins t ∧ t.kind.startsExpression = true ∧
      ReadBy readEffect p stmt
  | .expression, p => ∃ e, MendedExpr .assignment p e
  | .logicOr, p => ∃ e, MendedExpr .or p e
  | .logicAnd, p => ∃ e, MendedExpr .and p e
  | .equality, p => ∃ e, MendedExpr .equality p e
  | .comparison, p => ∃ e, MendedExpr .comparison p e
  | .term, p => ∃ e, MendedExpr .term p e
  | .factor, p => ∃ e, MendedExpr .factor p e
  | .unary, p => ∃ e, MendedExpr .unary p e
  | .primary, p => ∃ e, MendedExpr .primary p e

theorem exists_joints {tier : Tier} {symbol : Symbol}
    (hinner : ∀ {p}, symbol.Settles p → ∃ e, MendedExpr tier.next p e) {ps : List Patch}
    (h : ∀ p ∈ ps, (Ebnf.token tier.operators ++ .rule symbol).Covers Symbol.Settles p) :
    ∃ js : List Joint, ps = js.map Joint.whole ∧ ∀ j ∈ js, j.At tier := by
  induction ps with
  | nil => exact ⟨[], rfl, by simp⟩
  | cons p ps ih =>
    obtain ⟨js, rfl, hjs⟩ := ih fun p hp => h p (List.mem_cons_of_mem _ hp)
    obtain ⟨_, q, rfl, ⟨operator, rfl, hmem⟩, hq⟩ := h p List.mem_cons_self
    obtain ⟨e, he⟩ := hinner hq
    refine ⟨⟨operator, q, e⟩ :: js, rfl, ?_⟩
    intro j hj
    rcases List.mem_cons.1 hj with rfl | hj
    · exact ⟨hmem, he⟩
    · exact hjs j hj

theorem mendedExpr_of_covers_separated {tier : Tier} {symbol : Symbol}
    (hop : tier.operators ≠ []) (hinner : ∀ {p}, symbol.Settles p → ∃ e, MendedExpr tier.next p e)
    (h : (Ebnf.separated symbol tier.operators).Covers Symbol.Settles p) :
    ∃ e, MendedExpr tier p e := by
  obtain ⟨u, v, rfl, hu, ps, rfl, hps⟩ := h
  obtain ⟨e, he⟩ := hinner hu
  obtain ⟨js, rfl, hjs⟩ := exists_joints hinner hps
  exact ⟨_, he.joined hop hjs⟩

/-- Declarations behind each other are a sequence of as many. -/
theorem mendedSequence_join {ps : List Patch} (h : ∀ p ∈ ps, Symbol.declaration.Settles p) :
    ∃ ss, MendedSequence (.join ps) ss ∧ ss.length = ps.length := by
  induction ps with
  | nil => exact ⟨[], .nil, rfl⟩
  | cons p ps ih =>
    obtain ⟨ss, hss, hlen⟩ := ih fun p hp => h p (List.mem_cons_of_mem _ hp)
    obtain ⟨stmt, hstmt⟩ := h p List.mem_cons_self hss
    exact ⟨_, hstmt, congrArg Nat.succ hlen⟩

theorem mendedOptional_of_covers
    (h : (Ebnf.option (.rule .expression)).Covers Symbol.Settles p) : ∃ o, MendedOptional p o := by
  rcases h with rfl | ⟨e, he⟩
  · exact ⟨none, .missing⟩
  · exact ⟨some e, .present he.expression⟩

theorem readBy_readInitializer_of_covers
    (h : (Ebnf.rule .varDecl ||| .rule .exprStmt ||| .token [.semicolon]).Covers Symbol.Settles p) :
    ∃ o, ReadBy readInitializer p o := by
  rcases h with (⟨word, q, stmt, rfl, hword, h⟩ | ⟨t, stmt, hbegins, hstarts, h⟩) | h
  · exact ⟨some stmt, readBy_readInitializer_variable hword h⟩
  · exact ⟨some stmt, readBy_readInitializer_effect hbegins hstarts h⟩
  · obtain ⟨close, rfl, hclose⟩ := covers_kind h
    exact ⟨none, readBy_readInitializer_missing hclose⟩

section Statement

open Ebnf

theorem settles_print
    (h : (token [.printWord] ++ rule .expression ++ token [.semicolon]).Covers Symbol.Settles p) :
    Symbol.statement.Settles p := by
  obtain ⟨_, _, rfl, ⟨_, x, rfl, mword, e, he⟩, mclose⟩ := h
  obtain ⟨word, rfl, hword⟩ := covers_kind mword
  obtain ⟨close, rfl, hclose⟩ := covers_kind mclose
  simp only [Patch.append_assoc]
  exact ⟨_, _, .print hword (readBy_readPrint he.expression hclose)⟩

theorem settles_if
    (h : (token [.ifWord] ++ token [.leftParen] ++ rule .expression ++ token [.rightParen] ++
      rule .statement ++ option (token [.elseWord] ++ rule .statement)).Covers Symbol.Settles p) :
    Symbol.statement.Settles p := by
  obtain ⟨_, v, rfl, ⟨_, u, rfl, ⟨_, _, rfl, ⟨_, x, rfl, ⟨_, _, rfl, mword, ml⟩, e, he⟩, mr⟩,
    inner, thenBranch, hthen⟩, hv⟩ := h
  obtain ⟨word, rfl, hword⟩ := covers_kind mword
  obtain ⟨l, rfl, hl⟩ := covers_kind ml
  obtain ⟨r, rfl, hr⟩ := covers_kind mr
  simp only [Patch.append_assoc]
  rcases hv with rfl | ⟨_, y, rfl, mother, _, elseBranch, helse⟩
  · rw [Patch.append_nothing]
    exact ⟨_, _, .ifThen hword hl he.expression hr hthen⟩
  obtain ⟨other, rfl, hother⟩ := covers_kind mother
  cases inner with
  | false => exact ⟨_, _, .ifElse hword hl he.expression hr hthen hother helse⟩
  | true =>
    -- the `else` belongs to a conditional inside the first branch
    obtain ⟨_, _, hthen⟩ := hthen.takeElse rfl hother helse
    exact ⟨_, _, .ifThen hword hl he.expression hr hthen⟩

theorem settles_while
    (h : (token [.whileWord] ++ token [.leftParen] ++ rule .expression ++ token [.rightParen] ++
      rule .statement).Covers Symbol.Settles p) : Symbol.statement.Settles p := by
  obtain ⟨_, u, rfl, ⟨_, _, rfl, ⟨_, x, rfl, ⟨_, _, rfl, mword, ml⟩, e, he⟩, mr⟩,
    _, body, hbody⟩ := h
  obtain ⟨word, rfl, hword⟩ := covers_kind mword
  obtain ⟨l, rfl, hl⟩ := covers_kind ml
  obtain ⟨r, rfl, hr⟩ := covers_kind mr
  simp only [Patch.append_assoc]
  exact ⟨_, _, .whileLoop hword hl he.expression hr hbody⟩

theorem settles_for
    (h : (token [.forWord] ++ token [.leftParen] ++
      (rule .varDecl ||| rule .exprStmt ||| token [.semicolon]) ++ option (rule .expression) ++
      token [.semicolon] ++ option (rule .expression) ++ token [.rightParen] ++
      rule .statement).Covers Symbol.Settles p) : Symbol.statement.Settles p := by
  obtain ⟨_, u, rfl, ⟨_, _, rfl, ⟨_, z, rfl, ⟨_, _, rfl, ⟨_, y, rfl, ⟨_, x, rfl,
    ⟨_, _, rfl, mword, ml⟩, hx⟩, hy⟩, mclose⟩, hz⟩, mr⟩, _, body, hbody⟩ := h
  obtain ⟨word, rfl, hword⟩ := covers_kind mword
  obtain ⟨l, rfl, hl⟩ := covers_kind ml
  obtain ⟨close, rfl, hclose⟩ := covers_kind mclose
  obtain ⟨r, rfl, hr⟩ := covers_kind mr
  obtain ⟨initializer, hinitializer⟩ := readBy_readInitializer_of_covers hx
  obtain ⟨condition, hcondition⟩ := mendedOptional_of_covers hy
  obtain ⟨increment, hincrement⟩ := mendedOptional_of_covers hz
  simp only [Patch.append_assoc]
  exact ⟨_, _, .forLoop hword hl hinitializer hcondition hclose hincrement hr hbody⟩

theorem settles_block
    (h : (token [.leftBrace] ++ star (rule .declaration) ++ token [.rightBrace]).Covers
      Symbol.Settles p) : Symbol.statement.Settles p := by
  obtain ⟨_, _, rfl, ⟨_, _, rfl, ml, ps, rfl, hps⟩, mr⟩ := h
  obtain ⟨l, rfl, hl⟩ := covers_kind ml
  obtain ⟨r, rfl, hr⟩ := covers_kind mr
  obtain ⟨body, hbody, -⟩ := mendedSequence_join hps
  simp only [Patch.append_assoc]
  exact ⟨_, _, .block hl hbody hr⟩

end Statement

/-- Each production is read if its symbols are. -/
theorem settles_of_covers {symbol : Symbol} (hne : symbol ≠ .expression)
    (h : (production symbol).Covers Symbol.Settles p) : symbol.Settles p := by
  cases symbol with
  | declaration =>
    intro q ss hrest
    rcases h with ⟨word, q, stmt, rfl, hword, h⟩ | ⟨_, stmt, hstmt⟩
    · exact ⟨stmt, .variable hword h hrest⟩
    · exact ⟨stmt, .statement hstmt hrest⟩
  | varDecl =>
    obtain ⟨_, _, rfl, ⟨_, v, rfl, ⟨_, _, rfl, mword, mname⟩, hv⟩, mclose⟩ := h
    obtain ⟨word, rfl, hword⟩ := covers_kind mword
    obtain ⟨name, rfl, hname⟩ := covers_kind mname
    obtain ⟨close, rfl, hclose⟩ := covers_kind mclose
    rcases hv with rfl | ⟨_, x, rfl, mequal, e, he⟩
    · exact ⟨word, _, _, by rw [Patch.append_nothing, Patch.append_assoc], hword,
        readBy_readVariable_plain hname hclose⟩
    · obtain ⟨equal, rfl, hequal⟩ := covers_kind mequal
      exact ⟨word, _, _, by simp only [Patch.append_assoc], hword,
        readBy_readVariable_initialized hname hequal he.expression hclose⟩
  | statement =>
    rcases h with ((((h | h) | h) | h) | h) | ⟨t, stmt, hbegins, hstarts, h⟩
    · exact settles_print h
    · exact settles_if h
    · exact settles_while h
    · exact settles_for h
    · exact settles_block h
    · exact ⟨_, _, .effect hbegins hstarts h⟩
  | exprStmt =>
    obtain ⟨x, _, rfl, ⟨e, he⟩, mclose⟩ := h
    obtain ⟨close, rfl, hclose⟩ := covers_kind mclose
    obtain ⟨t, hbegins, hstarts, -⟩ := he.starts
    exact ⟨t, _, hbegins.append _, hstarts, readBy_readEffect he.expression hclose⟩
  | expression => exact absurd rfl hne
  | unary =>
    rcases h with ⟨_, x, rfl, ⟨operator, rfl, hmem⟩, e, he⟩ | ⟨e, he⟩
    · exact ⟨_, he.unary hmem⟩
    · exact ⟨e, he.unary_of_primary⟩
  | primary =>
    rcases h with ⟨t, rfl, hmem⟩ | ⟨_, _, rfl, ⟨_, x, rfl, ml, e, he⟩, mr⟩
    · by_cases hname : t.kind = .identifier
      · exact ⟨_, .name hname⟩
      · obtain ⟨v, hv⟩ := exists_value_of_mem hmem hname
        exact ⟨_, .literal hv⟩
    · obtain ⟨l, rfl, hl⟩ := covers_kind ml
      obtain ⟨r, rfl, hr⟩ := covers_kind mr
      rw [Patch.append_assoc]
      exact ⟨_, .grouping hl hr he.expression⟩
  | _ => exact mendedExpr_of_covers_separated (by decide) id h

theorem meaningful_settles : Meaningful Symbol.Settles where
  rule := settles_of_covers
  plain h := by
    obtain ⟨e, he⟩ := h
    exact ⟨e, he.plain⟩
  assign hname hequal h := by
    obtain ⟨e, he⟩ := h
    exact ⟨_, he.assign hname hequal⟩
  badTarget h hbad hequal hvalue := by
    obtain ⟨e, he⟩ := h
    obtain ⟨value, hvalue⟩ := hvalue
    exact ⟨e, he.badTarget hbad hequal hvalue⟩

/-- A sequence of declarations up to the end is a program. -/
theorem MendedSequence.twins_readProgram {ss : List Stmt} (h : MendedSequence p ss) {e : Token}
    (he : e.kind = .eof) (n : Nat) :
    Twins (readProgram n) (readProgram n) p ss [e] [e] := by
  have hgather := h.twins (· = .eof) (by simp) (fun k hk => Or.inl (by simpa using hk))
    (show decide (e.kind = .eof) = true by simp [he]) [] [] ⟨e, List.mem_singleton_self _, he⟩ n
    (Nat.le_refl _) (Nat.le_refl _)
  exact .congr (fun _ => rfl) rfl hgather

/-- Declarations of the relaxed grammar are mended declarations. -/
theorem mendedSequence_of_mends {ps : List Patch} (h : ∀ p ∈ ps, Mends (.rule .declaration) p) :
    ∃ ss, MendedSequence (.join ps) ss ∧ ss.length = ps.length :=
  mendedSequence_join fun p hp => (h p hp).covers meaningful_settles

end Lox.Grammar

namespace Lox

open Grammar

/-! ## Programs -/

variable {e : Token}

/-- Given and mended declarations are read to one program, as many as there are. -/
theorem parse_join_of_mends {ps : List Patch} (he : e.kind = .eof)
    (h : ∀ p ∈ ps, Mends (.rule .declaration) p)
    (hn : (parse ((Patch.join ps).given ++ [e])).WithinNesting) :
    ∃ program,
      parse ((Patch.join ps).given ++ [e]) =
        ⟨some program, (Patch.join ps).bad.map (Report.atToken · .badTarget)⟩ ∧
      parse ((Patch.join ps).mended ++ [e]) = ⟨some program, []⟩ ∧ program.length = ps.length := by
  obtain ⟨program, hseq, hlen⟩ := mendedSequence_of_mends h
  have hmem : ∀ ts : List Token, e ∈ ts ++ [e] := fun ts =>
    List.mem_append_right ts (List.mem_singleton_self _)
  rcases hseq.twins_readProgram he nestingLimit [] with ⟨hgiven, hmended⟩ | hover
  · refine ⟨program, ?_, ?_, hlen⟩
    · exact parse_of_readProgram (hmem _) hgiven
    · exact parse_of_readProgram (hmem _) hmended
  · exact absurd hover (not_overflows_of_withinNesting ⟨e, hmem _, he⟩ hn)

/-- Bad targets are reported exactly and cost nothing else: tokens up to their end that the relaxed
grammar derives, nested not too deep, are read with one report at each `=` that has no name in front
of it, in a chain from right to left, and with no other report.  No declaration is lost, and the
trees are those of the documented program that remains without each such `=` and what it assigns. -/
theorem parse_of_relaxed {ts : List Token} (he : e.kind = .eof)
    (hts : DerivesRelaxed (.star (.rule .declaration)) ts)
    (hn : (parse (ts ++ [e])).WithinNesting) :
    (∃ ps : List Patch, (Patch.join ps).given = ts ∧ ∀ p ∈ ps, Mends (.rule .declaration) p) ∧
      ∀ ps : List Patch, (Patch.join ps).given = ts → (∀ p ∈ ps, Mends (.rule .declaration) p) →
        ∃ program,
          parse (ts ++ [e]) =
            ⟨some program, (Patch.join ps).bad.map (Report.atToken · .badTarget)⟩ ∧
          Derives (.star (.rule .declaration)) (Patch.join ps).mended ∧
          parse ((Patch.join ps).mended ++ [e]) = ⟨some program, []⟩ ∧
          program.length = ps.length := by
  constructor
  · obtain ⟨p, hp, rfl⟩ := hts.exists_mends
    obtain ⟨ps, rfl, hps⟩ := hp.of_star
    exact ⟨ps, rfl, hps⟩
  · rintro ps rfl hps
    obtain ⟨program, hgiven, hmended, hlen⟩ := parse_join_of_mends he hps hn
    exact ⟨program, hgiven, (mends_join hps).derives, hmended, hlen⟩

/-- A name in parentheses is no target, and neither is a literal. -/
theorem parse_of_relaxed_chain :
    ∃ program,
      parse [⟨.leftParen, "(", .nil, 1⟩, ⟨.identifier, "a", .nil, 1⟩, ⟨.rightParen, ")", .nil, 1⟩,
          ⟨.equal, "=", .nil, 2⟩, ⟨.nilWord, "nil", .nil, 2⟩, ⟨.equal, "=", .nil, 3⟩,
          ⟨.identifier, "b", .nil, 3⟩, ⟨.semicolon, ";", .nil, 3⟩, .eof 3] =
        ⟨some program, [.atToken ⟨.equal, "=", .nil, 3⟩ .badTarget,
          .atToken ⟨.equal, "=", .nil, 2⟩ .badTarget]⟩ ∧
      Derives (.star (.rule .declaration)) [⟨.leftParen, "(", .nil, 1⟩,
          ⟨.identifier, "a", .nil, 1⟩, ⟨.rightParen, ")", .nil, 1⟩, ⟨.semicolon, ";", .nil, 3⟩] ∧
      parse [⟨.leftParen, "(", .nil, 1⟩, ⟨.identifier, "a", .nil, 1⟩, ⟨.rightParen, ")", .nil, 1⟩,
          ⟨.semicolon, ";", .nil, 3⟩, .eof 3] = ⟨some program, []⟩ ∧
      program.length = 1 := by
  have hname : ∀ {s line}, Mends (.rule .expression) (.kept ⟨.identifier, s, .nil, line⟩) :=
    .plain (mends_name rfl)
  have hnil : Mends (.rule .primary) (.kept ⟨.nilWord, "nil", .nil, 2⟩) :=
    .rule (by decide) (.left (.token (by decide)))
  have hgroup : Mends (.rule .primary) (.kept ⟨.leftParen, "(", .nil, 1⟩ ++
      .kept ⟨.identifier, "a", .nil, 1⟩ ++ .kept ⟨.rightParen, ")", .nil, 1⟩) := by
    refine .rule (by decide) (.right (.sequence (.sequence ?_ hname) ?_))
    · exact .token (by decide)
    · exact .token (by decide)
  have hvalue : Mends (.rule .expression) ((Patch.kept ⟨.nilWord, "nil", .nil, 2⟩).dropping
      ⟨.equal, "=", .nil, 3⟩ (.kept ⟨.identifier, "b", .nil, 3⟩)) := by
    refine .badTarget hnil.logicOr_of_primary (fun t ht => ?_) rfl hname
    rw [← (List.cons.inj ht).1]
    decide
  have hexpression := Mends.badTarget hgroup.logicOr_of_primary (fun t ht => by cases ht)
    (rfl : (⟨.equal, "=", .nil, 2⟩ : Token).kind = .equal) hvalue
  have hclose : Mends (.token [.semicolon]) (.kept ⟨.semicolon, ";", .nil, 3⟩) :=
    .token (by decide)
  have hdeclaration : Mends (.rule .declaration) _ := .rule (by decide) (.right
    (.rule (by decide) (.right (.rule (by decide) (.sequence hexpression hclose)))))
  have hmends := List.forall_mem_singleton.2 hdeclaration
  refine (parse_of_relaxed rfl (mends_join hmends).derivesRelaxed fun t ht => ?_).2 _ rfl hmends
  change Report.atToken t .tooDeep ∈ [.atToken ⟨.equal, "=", .nil, 3⟩ .badTarget,
    .atToken ⟨.equal, "=", .nil, 2⟩ .badTarget] at ht
  simp [Report.atToken] at ht

end Lox
