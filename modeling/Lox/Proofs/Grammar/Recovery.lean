import Lox.Proofs.Grammar.Part

/-!
# Reading on after a lost semicolon

How a text of prints and blocks is read that has lost some of its semicolons, and which reports that
gives (`reports_of_lost_semicolons`).  A fault costs the token that it is reported at, so it can hide
the next one: where a print follows one without its semicolon, the word is passed over, and so is a
brace.
-/

namespace Lox.Grammar

open Computing

variable {α β : Type} {e t : Token} {r ts us v : List Token} {w : List Part} {s s' s'' : Reading}
  {n : Nat} {reports : List Report} {fault : Fault} {stop : Stop} {x : Expr}

/-! ## Rules that stop at a fault -/

/-- A composed rule stops where its first part does. -/
theorem orStops_bind_error {rule : Rule α} {next : α → Rule β}
    (h : OrStops .tooDeep (rule s) (.error stop s')) :
    OrStops .tooDeep ((rule >>= next) s) (.error stop s') := by
  rcases h with h | ⟨s₁, h⟩
  · exact .of_eq (bind_of_error h)
  · rw [bind_of_error h]
    exact .stop

/-- A fault is found at the token that stands there, unless it cannot be written. -/
theorem orStops_fail (h : s.ahead = t :: r) (n : Nat) (fault : Fault) :
    OrStops .tooDeep ((fail n fault : Rule α) s)
      (.error (.fault fault) { s with reports := s.reports ++ [.atToken t fault] }) := by
  cases n with
  | zero =>
    rw [fail_zero_of_ahead h]
    exact .stop
  | succ n => exact .of_eq (fail_succ_of_ahead h)

/-- An expected token is missed at the token that stands there. -/
theorem orStops_expect {expected : Expectation} (h : s.ahead = t :: r)
    (ht : t.kind ≠ expected.kind) (n : Nat) :
    OrStops .tooDeep (expect n expected s) (.error (.fault (.missing expected))
      { s with reports := s.reports ++ [.atToken t (.missing expected)] }) := by
  have hnone : accept [expected.kind] s = .ok none s :=
    accept_of_not_mem h fun hm => ht (List.mem_singleton.1 hm)
  unfold expect consume
  refine .bind_eq hnone ?_
  cases n with
  | zero => exact .stop
  | succ n => exact orStops_fail h n _

/-- The rule stops at this fault in that place, unless nesting gets too deep. -/
def Fails (rule : Rule α) (s : Reading) (fault : Fault) (s' : Reading) : Prop :=
  rule s = .error (.fault fault) s' ∨ Overflows (rule s)

namespace Fails

variable {rule : Rule α} {next : α → Rule β} {a : α}

theorem of_orStops (h : OrStops .tooDeep (rule s) (.error (.fault fault) s')) :
    Fails rule s fault s' := by
  rcases h with h | h
  · exact Or.inl h
  · exact Or.inr (Or.inl h)

theorem congr {rule' : Rule α} {s₁ : Reading} (he : rule s = rule' s₁)
    (h : Fails rule' s₁ fault s') : Fails rule s fault s' := by
  unfold Fails
  rwa [he]

/-- A composed rule fails where its first part does. -/
theorem bind_left (ho : ∀ a s', rule s = .ok a s' → OrderlyAt (next a) s')
    (h : Fails rule s fault s') : Fails (rule >>= next) s fault s' := by
  rcases h with h | h
  · exact Or.inl (bind_of_error h)
  · exact Or.inr (h.bind ho)

/-- A composed rule fails where its second part does. -/
theorem bind_right (ho : ∀ a s', rule s = .ok a s' → OrderlyAt (next a) s')
    (h : Attains rule s a s') (hn : Fails (next a) s' fault s'') :
    Fails (rule >>= next) s fault s'' := by
  rcases h with h | h
  · exact .congr (bind_of_ok h) hn
  · exact Or.inr (h.bind ho)

/-- After a fault there is no declaration, and reading goes on at the next boundary. -/
theorem recover {n : Nat} {rule : Rule Stmt} (ho : Orderly rule) (hend : s.HasEnd)
    (h : Fails rule s fault s') :
    Attains (recover n rule) s none ⟨afterFault s'.ahead, s'.reports⟩ := by
  rcases h with h | h
  · have hl := ((ho s).error h).1
    obtain ⟨t, ht, -⟩ := hl.hasEnd hend
    obtain ⟨u, r, hs⟩ := List.exists_cons_of_ne_nil (List.ne_nil_of_mem ht)
    have hne : afterFault s'.ahead ≠ [] := by
      obtain ⟨t, ht, -⟩ := (leads_afterFault s').hasEnd (hl.hasEnd hend)
      exact List.ne_nil_of_mem ht
    left
    rw [recover_of_error h (by simp) (by simp) hs hne, Stop.reportAt, List.append_nil]
  · exact Or.inr (h.recover ho hend)

/-- A statement that fails is no declaration. -/
theorem readDeclaration {statement : Nat → Rule Stmt} {s₁ : Reading} (ht : t.kind ≠ .varWord)
    (hend : ∃ u ∈ t :: r, u.kind = .eof)
    (he : ∀ n, readStatement (n + 1) ⟨t :: r, reports⟩ = statement n s₁)
    (h : ∀ n, Fails (statement n) s₁ fault s') (n : Nat) :
    Attains (readDeclaration n) ⟨t :: r, reports⟩ none ⟨afterFault s'.ahead, s'.reports⟩ := by
  cases n with
  | zero => exact .of_orStops .stop
  | succ n =>
    have hstatement : Fails (readStatement n) ⟨t :: r, reports⟩ fault s' := by
      cases n with
      | zero => exact .of_orStops .stop
      | succ n => exact .congr (he n) (h n)
    rw [Grammar.readDeclaration]
    exact Fails.recover (OrderlyStatements.all n).orderly_declaration hend
      (.congr (bind_of_ok (accept_of_ne ht)) hstatement)

end Fails

/-- Where no expression begins, that is what is reported. -/
theorem orStops_readTier_noExpression (ht : t.kind.startsExpression = false) (n : Nat) (tier : Tier) :
    OrStops .tooDeep (readTier n tier ⟨t :: r, reports⟩)
      (.error (.fault .noExpression) ⟨t :: r, reports ++ [.atToken t .noExpression]⟩) := by
  have hkind : ∀ {k}, k.startsExpression = true → t.kind ≠ k := by
    rintro k hk rfl
    rw [hk] at ht
    cases ht
  induction n generalizing tier with
  | zero => exact .stop
  | succ n ih =>
    by_cases hop : tier.operators = []
    · cases tier with
      | expression => exact ih .assignment
      | assignment => exact orStops_bind_error (ih .or)
      | unary =>
        have hbang : t.kind ≠ .bang := hkind rfl
        have hminus : t.kind ≠ .minus := hkind rfl
        have hnone : accept [.bang, .minus] ⟨t :: r, reports⟩ = .ok none ⟨t :: r, reports⟩ :=
          accept_of_not_mem rfl (by simp [hbang, hminus])
        unfold readTier
        exact .bind_eq hnone (ih .primary)
      | primary =>
        have hvalue : t.value? = none := by
          cases hv : t.value? with
          | none => rfl
          | some a => exact absurd rfl (hkind (startsExpression_of_value? hv))
        rw [readTier_noExpression rfl hvalue (hkind rfl) (hkind rfl)]
        exact orStops_fail rfl n _
      | _ => exact absurd hop (List.cons_ne_nil _ _)
    · rw [readTier_of_operators hop]
      exact orStops_bind_error (ih _)

theorem fails_readEffect (ht : t.kind.startsExpression = false) (n : Nat) :
    Fails (readEffect n) ⟨t :: r, reports⟩ .noExpression
      ⟨t :: r, reports ++ [.atToken t .noExpression]⟩ := by
  cases n with
  | zero => exact .of_orStops .stop
  | succ n =>
    rw [readEffect]
    exact .of_orStops (orStops_bind_error (orStops_readTier_noExpression ht n .expression))

/-- A print ends at a token that cannot go on with its expression, semicolon or not. -/
theorem fails_readPrint (inner : Phrase .expression ts x (t :: r)) (htier : t.kind.tier? = none)
    (hmissing : t.kind ≠ .semicolon) (n : Nat) :
    Fails (readPrint n) ⟨ts, reports⟩ (.missing .endOfPrint)
      ⟨t :: r, reports ++ [.atToken t (.missing .endOfPrint)]⟩ := by
  cases n with
  | zero => exact .of_orStops .stop
  | succ n =>
    rw [readPrint]
    refine .of_orStops ((inner.readsExpression htier n reports).bind_ok ?_)
    exact orStops_bind_error (orStops_expect rfl hmissing n)

/-- A block stays open where its declarations end without a closing brace. -/
theorem fails_readBlock {ss : List Stmt} {reports' : List Report} (ht : t.kind ≠ .rightBrace)
    (h : ∀ n, Attains (gather closesBlock (readDeclaration n) us) ⟨us, reports⟩ ss
      ⟨t :: r, reports'⟩) (n : Nat) :
    Fails (readBlock n) ⟨us, reports⟩ (.missing .endOfBlock)
      ⟨t :: r, reports' ++ [.atToken t (.missing .endOfBlock)]⟩ := by
  cases n with
  | zero => exact .of_orStops .stop
  | succ n =>
    have hget : (get : Rule Reading) ⟨us, reports⟩ = .ok ⟨us, reports⟩ ⟨us, reports⟩ := rfl
    rw [readBlock]
    refine .congr (bind_of_ok hget) ?_
    refine .bind_right (fun _ _ _ => ((orderly_expect _).bind fun _ => orderly_pure _) _) (h n) ?_
    exact .of_orStops (orStops_bind_error (orStops_expect rfl ht n))

/-! ## Boundaries -/

/-- Nothing in an expression is a boundary. -/
theorem exists_dropToBoundary_append (hv : ∀ t ∈ v, t.kind.inExpression = true) (us : List Token)
    {last : Token} (hlast : last.kind ≠ .semicolon) :
    ∃ last', last'.kind ≠ .semicolon ∧ dropToBoundary last (v ++ us) = dropToBoundary last' us := by
  induction v generalizing last with
  | nil => exact ⟨last, hlast, rfl⟩
  | cons t v ih =>
    obtain ⟨ht, hv⟩ := List.forall_mem_cons.1 hv
    obtain ⟨hk, hstart⟩ := inExpression_cases ht
    simp only [List.mem_cons, List.not_mem_nil, or_false, not_or] at hk
    obtain ⟨last', hlast', hdrop⟩ := ih hv hk.1
    refine ⟨last', hlast', ?_⟩
    have hnext : dropToBoundary last (t :: (v ++ us)) = dropToBoundary t (v ++ us) :=
      if_neg (by simp [hk, hlast, hstart])
    exact hnext.trans hdrop

/-- Braces are passed over. -/
theorem Row.dropToBoundary (h : Row e w us) (he : e.kind = .eof) {last : Token}
    (hlast : last.kind ≠ .semicolon) :
    Row e (w.dropWhile Part.isBrace) (dropToBoundary last us) := by
  induction h generalizing last with
  | nil =>
    rw [Grammar.dropToBoundary, if_pos (Or.inl he)]
    exact .nil
  | whole hword inner hclose rest =>
    rw [Grammar.dropToBoundary, if_pos (Or.inr (Or.inr (by rw [hword]; rfl)))]
    exact .whole hword inner hclose rest
  | bare hword inner rest =>
    rw [Grammar.dropToBoundary, if_pos (Or.inr (Or.inr (by rw [hword]; rfl)))]
    exact .bare hword inner rest
  | opens hbrace _ ih | closes hbrace _ ih =>
    rw [Grammar.dropToBoundary, if_neg (by simp [hbrace, hlast, Kind.startsStatement])]
    exact ih (by simp [hbrace])

/-- Behind a fault reading goes on with the parts that are left. -/
theorem Row.afterFault (h : Row e w us) (he : e.kind = .eof) :
    Row e (resume w) (afterFault us) := by
  cases h with
  | nil =>
    rw [Grammar.afterFault, if_pos he]
    exact .nil
  | whole hword inner hclose rest =>
    obtain ⟨v, rfl, hv, -⟩ := inner.exists_text
    obtain ⟨last, hlast, hdrop⟩ := exists_dropToBoundary_append hv _ (by rw [hword]; decide)
    obtain ⟨r, hr, -⟩ := rest.exists_cons he
    rw [Grammar.afterFault, if_neg (by simp [hword]), hdrop, Grammar.dropToBoundary,
      if_neg (by simp [hclose, hlast, Kind.startsStatement]), hr, Grammar.dropToBoundary,
      if_pos (Or.inr (Or.inl hclose)), ← hr]
    exact rest
  | bare hword inner rest =>
    obtain ⟨v, rfl, hv, -⟩ := inner.exists_text
    obtain ⟨last, hlast, hdrop⟩ := exists_dropToBoundary_append hv _ (by rw [hword]; decide)
    rw [Grammar.afterFault, if_neg (by simp [hword]), hdrop]
    exact rest.dropToBoundary he hlast
  | opens hbrace rest | closes hbrace rest =>
    rw [Grammar.afterFault, if_neg (by simp [hbrace])]
    exact rest.dropToBoundary he (by simp [hbrace])

/-! ## Declarations -/

/-- A declaration is read here, or none with these reports, and then those parts are left. -/
structure Declares (e : Token) (w : List Part) (ts : List Token) (o : Option Stmt)
    (found : List Report) (w' : List Part) (ts' : List Token) : Prop where
  row : Row e w' ts'
  shorter : w'.length < w.length
  faults : ∀ depth, (depth = 0 ∨ ∀ brace v, w ≠ .closes brace :: v) →
    faults e depth w = found ++ faults e depth w'
  attains : ∀ n reports, Attains (readDeclaration n) ⟨ts, reports⟩ o ⟨ts', reports ++ found⟩

/-- Declarations are read here up to the end of a block or of all, with these reports, and then those
parts are left. -/
structure ReadsBody (e : Token) (w : List Part) (ts : List Token) (ss : List Stmt)
    (found : List Report) (w' : List Part) (ts' : List Token) : Prop where
  row : Row e w' ts'
  ends : w' = [] ∨ ∃ brace v, w' = .closes brace :: v
  shorter : w'.length ≤ w.length
  faults : ∀ depth, faults e (depth + 1) w = found ++ faults e (depth + 1) w'
  attains : ∀ n reports (bound : List Token), ts.length ≤ bound.length →
    Attains (gather closesBlock (readDeclaration n) bound) ⟨ts, reports⟩ ss ⟨ts', reports ++ found⟩

section Declarations

variable {word brace close : Token} (he : e.kind = .eof)

include he

theorem Row.exists_eof (h : Row e w ts) : ∃ t ∈ ts, t.kind = .eof := ⟨e, h.mem, he⟩

/-- A print with its semicolon is read. -/
theorem declares_whole (hword : word.kind = .printWord)
    (inner : Phrase .expression ts x (close :: us)) (hclose : close.kind = .semicolon)
    (rest : Row e w us) :
    Declares e (.whole word :: w) (word :: ts) (some (.print x)) [] w us where
  row := rest
  shorter := Nat.lt_succ_self _
  faults depth _ := by rw [faults_whole, List.nil_append]
  attains n reports := by
    have hrow : Row e (.whole word :: w) (word :: ts) := .whole hword inner hclose rest
    rw [List.append_nil]
    refine attains_readDeclaration_statement (by rw [hword]; rfl) (hrow.exists_eof he) (fun n => ?_) n
    cases n with
    | zero => exact .of_orStops .stop
    | succ n => exact .congr (readStatement_print rfl hword) (attains_readPrint inner hclose n)

/-- A print without it is none, and reported at what follows. -/
theorem declares_bare (hword : word.kind = .printWord) (inner : Phrase .expression ts x us)
    (rest : Row e w us) :
    Declares e (.bare word :: w) (word :: ts) none
      [.atToken (following e w) (.missing .endOfPrint)] (resume w) (afterFault us) where
  row := rest.afterFault he
  shorter := Nat.lt_succ_of_le (length_resume_le w)
  faults depth _ := faults_bare ..
  attains n reports := by
    have hrow : Row e (.bare word :: w) (word :: ts) := .bare hword inner rest
    obtain ⟨r, rfl, hk⟩ := rest.exists_cons he
    have htier : (following e w).kind.tier? = none := by
      simp only [List.mem_cons, List.not_mem_nil, or_false] at hk
      rcases hk with hk | hk | hk | hk <;> rw [hk] <;> rfl
    have hmissing : (following e w).kind ≠ .semicolon := fun h => by simp [h] at hk
    exact Fails.readDeclaration (by rw [hword]; decide) (hrow.exists_eof he)
      (fun n => readStatement_print rfl hword) (fails_readPrint inner htier hmissing) n

/-- A closing brace without a block is no declaration. -/
theorem declares_closes (hbrace : brace.kind = .rightBrace) (rest : Row e w us) :
    Declares e (.closes brace :: w) (brace :: us) none [.atToken brace .noExpression]
      (resume (.closes brace :: w)) (afterFault (brace :: us)) where
  row := (Row.closes hbrace rest).afterFault he
  shorter := length_resume_lt _ w
  faults depth hdepth := by
    obtain rfl := hdepth.resolve_right fun h => h brace w rfl
    exact faults_closes_zero ..
  attains n reports := by
    have hrow : Row e (.closes brace :: w) (brace :: us) := .closes hbrace rest
    exact Fails.readDeclaration (by rw [hbrace]; decide) (hrow.exists_eof he)
      (fun n => readStatement_effect rfl (by rw [hbrace]; decide))
      (fails_readEffect (by rw [hbrace]; rfl)) n

/-- A block that is closed is read, with the reports in it. -/
theorem ReadsBody.declares {ss : List Stmt} {found : List Report} {w' : List Part} {ts' : List Token}
    {right : Token} (hbrace : brace.kind = .leftBrace) (rest : Row e w us)
    (h : ReadsBody e w us ss found (.closes right :: w') (right :: ts'))
    (hright : right.kind = .rightBrace) (row : Row e w' ts') :
    Declares e (.opens brace :: w) (brace :: us) (some (.block ss)) found w' ts' where
  row := row
  shorter := Nat.lt_succ_of_lt (Nat.lt_of_lt_of_le (Nat.lt_succ_self _) h.shorter)
  faults depth _ := by rw [faults_opens, h.faults depth, faults_closes_succ]
  attains n reports := by
    have hrow : Row e (.opens brace :: w) (brace :: us) := .opens hbrace rest
    refine attains_readDeclaration_statement (by rw [hbrace]; rfl) (hrow.exists_eof he) (fun n => ?_) n
    cases n with
    | zero => exact .of_orStops .stop
    | succ n =>
      have hbody := fun n => h.attains n reports us (Nat.le_refl _)
      exact .congr (readStatement_block rfl hbrace) (.map _ (attains_readBlock hright hbody n))

/-- A block that is still open at the end is none, and reported there. -/
theorem ReadsBody.declares_open {ss : List Stmt} {found : List Report}
    (hbrace : brace.kind = .leftBrace) (rest : Row e w us) (h : ReadsBody e w us ss found [] [e]) :
    Declares e (.opens brace :: w) (brace :: us) none
      (found ++ [.atToken e (.missing .endOfBlock)]) [] [e] where
  row := .nil
  shorter := Nat.succ_pos _
  faults depth _ := by
    rw [faults_opens, h.faults depth, faults_nil, faults_nil, List.replicate_succ,
      List.append_assoc, List.singleton_append]
  attains n reports := by
    have hrow : Row e (.opens brace :: w) (brace :: us) := .opens hbrace rest
    have hmissing : e.kind ≠ Expectation.endOfBlock.kind := by rw [he]; decide
    have hbody := fun n => h.attains n reports us (Nat.le_refl _)
    have hfails : ∀ n, Fails (Stmt.block <$> readBlock n) ⟨us, reports⟩ (.missing .endOfBlock)
        ⟨[e], reports ++ found ++ [.atToken e (.missing .endOfBlock)]⟩ := fun n =>
      .bind_left (fun _ _ _ => orderly_pure _ _) (fails_readBlock hmissing hbody n)
    have hnone := Fails.readDeclaration (by rw [hbrace]; decide) (hrow.exists_eof he)
      (fun n => readStatement_block rfl hbrace) hfails n
    have hafter : afterFault [e] = [e] := if_pos he
    rwa [hafter, List.append_assoc] at hnone

/-- Where there is nothing, or a closing brace, a block has no declarations. -/
theorem readsBody_nil (h : Row e w ts) (hw : w = [] ∨ ∃ brace v, w = .closes brace :: v) :
    ReadsBody e w ts [] [] w ts where
  row := h
  ends := hw
  shorter := Nat.le_refl _
  faults depth := (List.nil_append _).symm
  attains n reports bound hb := by
    have hcloses : ∃ t r, ts = t :: r ∧ closesBlock t.kind = true := by
      rcases hw with rfl | ⟨brace, v, rfl⟩
      · cases h
        exact ⟨e, [], rfl, by rw [he]; rfl⟩
      · cases h with
        | closes hbrace _ => exact ⟨_, _, rfl, by rw [hbrace]; rfl⟩
    obtain ⟨t, r, rfl, ht⟩ := hcloses
    rw [List.append_nil]
    exact attains_gather_nil ht hb

omit he in
/-- A declaration comes first. -/
theorem ReadsBody.cons {o : Option Stmt} {ss : List Stmt} {found found' : List Report}
    {w₁ w₂ : List Part} {ts₁ ts₂ : List Token} (row : Row e w ts)
    (hw : w ≠ [] ∧ ∀ brace v, w ≠ .closes brace :: v) (h : Declares e w ts o found w₁ ts₁)
    (h' : ReadsBody e w₁ ts₁ ss found' w₂ ts₂) :
    ReadsBody e w ts (o.toList ++ ss) (found ++ found') w₂ ts₂ where
  row := h'.row
  ends := h'.ends
  shorter := Nat.le_trans h'.shorter (Nat.le_of_lt h.shorter)
  faults depth := by
    rw [h.faults (depth + 1) (Or.inr hw.2), h'.faults depth, List.append_assoc]
  attains n reports bound hb := by
    have hcloses : ∃ t r, ts = t :: r ∧ closesBlock t.kind = false := by
      cases row with
      | nil => exact absurd rfl hw.1
      | whole hword | bare hword => exact ⟨_, _, rfl, by rw [hword]; rfl⟩
      | opens hbrace => exact ⟨_, _, rfl, by rw [hbrace]; rfl⟩
      | closes => exact absurd rfl (hw.2 _ _)
    obtain ⟨t, r, rfl, ht⟩ := hcloses
    rw [← List.append_assoc]
    exact attains_gather_cons rfl ht hb (h.attains n reports) fun bound hb =>
      h'.attains n _ bound hb

/-- A declaration other than a closing brace is read if the bodies of blocks are. -/
theorem Row.exists_declares (h : Row e w ts) (hw : w ≠ [])
    (hbodies : ∀ v us, v.length < w.length → Row e v us →
      ∃ ss found v' us', ReadsBody e v us ss found v' us') :
    ∃ o found w' ts', Declares e w ts o found w' ts' := by
  cases h with
  | nil => exact absurd rfl hw
  | whole hword inner hclose rest => exact ⟨_, _, _, _, declares_whole he hword inner hclose rest⟩
  | bare hword inner rest => exact ⟨_, _, _, _, declares_bare he hword inner rest⟩
  | closes hbrace rest => exact ⟨_, _, _, _, declares_closes he hbrace rest⟩
  | opens hbrace rest =>
    obtain ⟨ss, found, v', us', hbody⟩ := hbodies _ _ (Nat.lt_succ_self _) rest
    rcases hbody.ends with rfl | ⟨right, v, rfl⟩
    · cases hbody.row
      exact ⟨_, _, _, _, hbody.declares_open he hbrace rest⟩
    · cases hbody.row with
      | closes hright row => exact ⟨_, _, _, _, hbody.declares he hbrace rest hright row⟩

/-- The declarations of a block are read, wherever it ends. -/
theorem Row.exists_readsBody (h : Row e w ts) :
    ∃ ss found w' ts', ReadsBody e w ts ss found w' ts' := by
  -- on the number of parts, as a fault can cost several of them
  induction hlength : w.length using Nat.strongRecOn generalizing w ts with
  | ind length ih =>
    subst hlength
    by_cases hw : w = [] ∨ ∃ brace v, w = .closes brace :: v
    · exact ⟨_, _, _, _, readsBody_nil he h hw⟩
    · have hne : w ≠ [] ∧ ∀ brace v, w ≠ .closes brace :: v :=
        ⟨fun h => hw (Or.inl h), fun brace v h => hw (Or.inr ⟨brace, v, h⟩)⟩
      obtain ⟨o, found, w₁, ts₁, hfirst⟩ :=
        h.exists_declares he hne.1 fun v us hv row => ih _ hv row rfl
      obtain ⟨ss, found', w₂, ts₂, hrest⟩ := ih _ hfirst.shorter hfirst.row rfl
      exact ⟨_, _, _, _, .cons h hne hfirst hrest⟩

/-- All declarations are read up to the end. -/
theorem Row.exists_attains (h : Row e w ts) :
    ∃ ss, ∀ n reports (bound : List Token), ts.length ≤ bound.length →
      Attains (gather (· = .eof) (readDeclaration n) bound) ⟨ts, reports⟩ ss
        ⟨[e], reports ++ faults e 0 w⟩ := by
  induction hlength : w.length using Nat.strongRecOn generalizing w ts with
  | ind length ih =>
    subst hlength
    by_cases hw : w = []
    · subst hw
      cases h
      refine ⟨[], fun n reports bound hb => ?_⟩
      rw [faults_nil, List.replicate_zero, List.append_nil]
      exact attains_gather_nil (by simpa using he) hb
    · obtain ⟨o, found, w₁, ts₁, hfirst⟩ :=
        h.exists_declares he hw fun v us _ row => row.exists_readsBody he
      obtain ⟨ss, hrest⟩ := ih _ hfirst.shorter hfirst.row rfl
      refine ⟨o.toList ++ ss, fun n reports bound hb => ?_⟩
      obtain ⟨t, r, rfl, ht⟩ : ∃ t r, ts = t :: r ∧ t.kind ≠ .eof := by
        cases h with
        | nil => exact absurd rfl hw
        | whole hword | bare hword => exact ⟨_, _, rfl, by rw [hword]; decide⟩
        | opens hbrace | closes hbrace => exact ⟨_, _, rfl, by rw [hbrace]; decide⟩
      rw [hfirst.faults 0 (Or.inl rfl), ← List.append_assoc]
      exact attains_gather_cons (by simp) (by simpa using ht) hb (hfirst.attains n reports)
        fun bound hb => hrest n _ bound hb

end Declarations

end Lox.Grammar

namespace Lox

open Grammar

variable {e : Token} {ts us : List Token} {w : List Part}

/-- A row of parts gives just the reports of its parts, unless nesting gets too deep. -/
theorem reports_parse_of_row (he : e.kind = .eof) (h : Row e w (us ++ [e]))
    (hn : (parse (us ++ [e])).WithinNesting) : (parse (us ++ [e])).reports = faults e 0 w := by
  obtain ⟨ss, hattains⟩ := h.exists_attains he
  have hparse := parse_of_attains ⟨e, List.mem_append_right us (List.mem_singleton_self _), he⟩ hn
    (.congr rfl (hattains nestingLimit [] (us ++ [e]) (Nat.le_refl _)))
  rw [hparse]
  rfl

/-- What reading reports of a program of prints and blocks that has lost so many of its semicolons.
It depends on the prints and braces alone, and there is something to report if any semicolon is lost.
There is one report for each if a print that keeps its semicolon comes right behind each of those that
lose it, or nothing does.  The limit of nesting is that of the text as it is left: a block whose brace
is passed over stays open, and what follows is read inside it. -/
theorem reports_of_lost_semicolons {program : List Stmt} {k : Nat} (he : e.kind = .eof)
    (hts : ∀ t ∈ ts, t.kind ≠ .eof) (hquiet : parse (ts ++ [e]) = ⟨some program, []⟩)
    (hprogram : Stmt.PrintOnlyAll program) (hlost : LosesSemicolons k ts us)
    (hn : (parse (us ++ [e])).WithinNesting) :
    (parse (us ++ [e])).reports = faults e 0 (outline (us ++ [e])) ∧
      (k ≠ 0 → (parse (us ++ [e])).reports ≠ []) ∧
      (guarded (outline (us ++ [e])) = true → (parse (us ++ [e])).reports.length = k) := by
  obtain ⟨program', hparse, hseq⟩ := sequencePhrase_of_parse he hts (by rw [hquiet])
  obtain rfl : program' = program :=
    Option.some.inj (congrArg Parse.program? (hparse.symm.trans hquiet))
  obtain ⟨w, hrow, rfl, hbalanced⟩ := exists_row he hseq hprogram hlost
  rw [hrow.outline_eq he, reports_parse_of_row he hrow hn]
  exact ⟨rfl, faults_ne_nil 0, length_faults 0 hbalanced⟩

/-- Of three prints the first two lose their semicolon, and only the first of these is reported. -/
theorem reports_of_lost_semicolons_consecutive :
    let print : Token := ⟨.printWord, "print", .nil, 2⟩
    let value : Token := ⟨.nilWord, "nil", .nil, 2⟩
    let close : Token := ⟨.semicolon, ";", .nil, 2⟩
    let ts := [print, value, close, print, value, close, print, value, close]
    let us := [print, value, print, value, print, value, close]
    parse (ts ++ [.eof 3]) =
        ⟨some [.print (.literal .nil), .print (.literal .nil), .print (.literal .nil)], []⟩ ∧
      LosesSemicolons 2 ts us ∧
      (parse (us ++ [.eof 3])).reports = [.atToken print (.missing .endOfPrint)] := by
  intro print value close ts us
  have hlost : LosesSemicolons 2 ts us :=
    .keep <| .keep <| .lose rfl <| .keep <| .keep <| .lose rfl <| .keep <| .keep <| .keep .nil
  have hn : (parse (us ++ [.eof 3])).WithinNesting := by
    intro t h
    change Report.atToken t .tooDeep ∈ [.atToken print (.missing .endOfPrint)] at h
    simp [Report.atToken] at h
  have hprogram : Stmt.PrintOnlyAll
      [.print (.literal .nil), .print (.literal .nil), .print (.literal .nil)] := by
    simp [Stmt.PrintOnlyAll, Stmt.PrintsOnly]
  have houtline : outline (us ++ [.eof 3]) = [.bare print, .bare print, .whole print] := rfl
  obtain ⟨hreports, -, -⟩ :=
    reports_of_lost_semicolons (e := .eof 3) rfl (by decide) rfl hprogram hlost hn
  refine ⟨rfl, hlost, ?_⟩
  -- the second word is the token that the first report costs
  rw [hreports, houtline, faults_bare]
  simp [resume, following, Part.token, Part.isBrace]

end Lox
