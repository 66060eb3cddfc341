import Lox.Proofs.Grammar.OpenBlock
import Lox.Proofs.Run.Rename

/-!
# No token is blamed twice

Tokens are read with their places in the list for lines, which makes no difference to the reading,
and so each report tells the place of the token that is blamed (`placedFaults`).  In the reports that
are written, a token in front of the end is blamed at most once; the faults that stop a rule are found
in the order of the tokens; and the end is blamed for each block that is open there, and for at most
one thing else (`parse_blames_once`).

A report that is not written comes from the limit on nesting, and the token it blames is blamed once
more right behind, for that limit.  So a text within the limit blames no token twice at all.
-/

namespace Lox

open Computing Grammar
open scoped List

variable {ts : List Token}

/-! ## Places -/

/-- A fault, with the place in the list of the token that is blamed for it, and whether the report of
it is written. -/
structure PlacedFault where
  place : Nat
  fault : Fault
  written : Bool
deriving DecidableEq

/-- The report of the fault, if these are the tokens. -/
def PlacedFault.report? (ts : List Token) (f : PlacedFault) : Option Report :=
  ts[f.place]?.map fun t =>
    if f.written then .atToken t f.fault else .unwrittenAt t f.fault

/-- The place of a token that has it for a line. -/
def Token.place (t : Token) : Nat := t.line.toNat

/-- What is reported of a token that has its place for a line. -/
def Report.placed? : Report → Option PlacedFault
  | .ofFault line _ fault => some ⟨line.toNat, fault, true⟩
  | .unwritten line _ fault => some ⟨line.toNat, fault, false⟩
  | .ofFailure _ => none

/-- What is found wrong while these tokens are read, in the order of the reports. -/
def placedFaults (ts : List Token) : List PlacedFault :=
  (parse (placed ts)).reports.filterMap Report.placed?

/-- Those of them that are reported in writing. -/
def writtenFaults (ts : List Token) : List PlacedFault := (placedFaults ts).filter (·.written)

/-- The place of the first end. -/
def endPlace (ts : List Token) : Nat := (ts.map Token.kind).idxOf .eof

theorem map_place_placed (ts : List Token) :
    (placed ts).map Token.place = List.range ts.length := by
  refine List.ext_getElem (by simp [placed]) fun i _ _ => ?_
  simp [placed, Token.place]

theorem map_kind_placed (ts : List Token) : (placed ts).map Token.kind = ts.map Token.kind := by
  refine List.ext_getElem (by simp [placed]) fun i _ _ => ?_
  simp [placed]

theorem getElem?_place_of_mem_placed {t : Token} (h : t ∈ placed ts) :
    ts[t.place]? = some (t.relabel ⟨id, lineAt ts⟩) := by
  obtain ⟨i, hi, rfl⟩ := List.mem_mapIdx.1 h
  simp [Token.place, Token.relabel, lineAt_natCast hi, List.getElem?_eq_getElem hi]

/-! ## Blocks -/

/-- The result of watched reading of these tokens. -/
def watched (ts : List Token) : EStateM.Result Stop Watch (List Stmt) :=
  Watched.readProgram nestingLimit ⟨⟨closed (placed ts), []⟩, [], []⟩

/-- The places of the braces of the blocks that are open at the end. -/
def openAtEnd (ts : List Token) : List Nat := (endState (watched ts)).openAtEnd.map Token.place

/-- The places of the braces of the blocks whose closing brace is reported missing. -/
def unclosed (ts : List Token) : List Nat := (endState (watched ts)).unclosed.map Token.place

/-! ## Readings of placed tokens -/

/-- The first tokens have the first places, and the next token has the next. -/
theorem places_of_append {w r : List Token} {t : Token} (h : placed ts = w ++ t :: r) :
    w.map Token.place = List.range w.length ∧ t.place = w.length := by
  have hplaces := map_place_placed ts
  rw [h, List.map_append, List.map_cons] at hplaces
  have hlength : ts.length = w.length + (r.length + 1) := by
    simpa using congrArg List.length hplaces.symm
  rw [hlength, List.range_add, List.range_succ_eq_map, List.map_cons] at hplaces
  obtain ⟨hw, ht⟩ := List.append_inj hplaces (by simp)
  exact ⟨hw, (List.cons.inj ht).1⟩

/-- The fault of a blame of a token that has its place for a line. -/
def Grammar.Blame.placed (b : Blame) : PlacedFault := ⟨b.token.place, b.fault, b.written⟩

theorem Grammar.Blame.placed?_report (b : Blame) : b.report.placed? = some b.placed := by
  rcases b with ⟨t, fault, _ | _⟩ <;> rfl

/-- How reading these tokens ends: the tokens `w` are read, `t` is next, and it is the end; these
tokens are blamed, and these blocks noted. -/
structure Ends (ts : List Token) (s : Watch) (w : List Token) (t : Token) (bs : List Blame)
    (braces : List Token) : Prop where
  passage : Passage ⟨placed ts, []⟩ w bs s.reading
  next : ∃ r, s.reading.ahead = t :: r
  isEnd : t.kind = .eof
  reports : (parse (placed ts)).reports = s.reading.reports
  lacks : Lacks bs braces
  nested : Nested braces w
  result : endState (watched ts) = s
  notes : Watch.Notes ⟨⟨placed ts, []⟩, [], []⟩ braces s

/-- Reading tokens with an end among them ends there. -/
theorem exists_ends (h : ∃ t ∈ ts, t.kind = .eof) : ∃ s w t bs braces, Ends ts s w t bs braces := by
  have hplaced := exists_eof_placed h
  obtain ⟨program, reading, hread⟩ := exists_readProgram_eq_ok hplaced
  have hwatched : watched ts = Watched.readProgram nestingLimit ⟨⟨placed ts, []⟩, [], []⟩ := by
    obtain ⟨u, hu, -⟩ := hplaced
    rw [watched, closed_of_mem hu]
  obtain ⟨s, hrun, rfl⟩ := (Watched.follows_readProgram nestingLimit).exists_ok
    (s := ⟨⟨placed ts, []⟩, [], []⟩) hread
  obtain ⟨w, bs, braces, hw, hlacks, hnested, hnotes⟩ := Watched.readProgram_recovers hrun
  obtain ⟨-, t, r, -, hs, -, ht⟩ := exists_eof_of_readProgram hread
  exact ⟨s, w, t, bs, braces, hw, ⟨r, hs⟩, ht, by rw [parse_eq hplaced hread], hlacks, hnested,
    by rw [hwatched, hrun]; rfl, hnotes⟩

namespace Ends

variable {s : Watch} {w braces : List Token} {t u : Token} {bs : List Blame} {b : Blame}

section

variable (h : Ends ts s w t bs braces)

include h

theorem placedFaults_eq : placedFaults ts = bs.map Blame.placed := by
  rw [placedFaults, h.reports, h.passage.reports, List.nil_append, List.filterMap_map,
    ← List.filterMap_eq_map]
  exact congrArg (List.filterMap · bs) (funext Blame.placed?_report)

theorem writtenFaults_eq : writtenFaults ts = (bs.filter (·.written)).map Blame.placed := by
  rw [writtenFaults, h.placedFaults_eq, List.filter_map]
  rfl

theorem exists_placed_eq : ∃ r, placed ts = w ++ t :: r := by
  obtain ⟨r, hr⟩ := h.next
  exact ⟨r, hr ▸ h.passage.ahead⟩

theorem endPlace_eq : endPlace ts = w.length := by
  obtain ⟨r, hr⟩ := h.exists_placed_eq
  have hnone : Kind.eof ∉ w.map Token.kind := by simpa using h.passage.noEnd
  rw [endPlace, ← map_kind_placed, hr, List.map_append, List.map_cons, h.isEnd,
    List.idxOf_append_of_notMem hnone, List.idxOf_cons_self, List.length_map, Nat.add_zero]

theorem map_place : w.map Token.place = List.range (endPlace ts) := by
  obtain ⟨r, hr⟩ := h.exists_placed_eq
  rw [h.endPlace_eq]
  exact (places_of_append hr).1

theorem place_lt_of_mem (hu : u ∈ w) : u.place < endPlace ts := by
  have hplace : u.place ∈ w.map Token.place := List.mem_map_of_mem hu
  rw [h.map_place] at hplace
  exact List.mem_range.1 hplace

/-! ### Blamed tokens -/

theorem token_eq (hb : b ∈ bs) (hend : b.atEnd = true) : b.token = t := by
  obtain ⟨r, hr⟩ := h.next
  have hhead := h.passage.atEnd b hb hend
  rw [hr] at hhead
  exact (Option.some.inj hhead).symm

theorem token_mem (hb : b ∈ bs) (hend : ¬b.atEnd = true) : b.token ∈ w :=
  h.passage.once.subset (h.passage.repeated.token_mem_early hb hend)

theorem token_mem_placed (hb : b ∈ bs) : b.token ∈ placed ts := by
  obtain ⟨r, hr⟩ := h.exists_placed_eq
  rw [hr]
  by_cases hend : b.atEnd = true
  · rw [h.token_eq hb hend]
    exact List.mem_append_right w List.mem_cons_self
  · exact List.mem_append_left _ (h.token_mem hb hend)

theorem place_eq (hb : b ∈ bs) (hend : b.atEnd = true) : b.token.place = endPlace ts := by
  obtain ⟨r, hr⟩ := h.exists_placed_eq
  rw [h.token_eq hb hend, h.endPlace_eq]
  exact (places_of_append hr).2

theorem place_lt (hb : b ∈ bs) (hend : ¬b.atEnd = true) : b.token.place < endPlace ts :=
  h.place_lt_of_mem (h.token_mem hb hend)

theorem place_le (hb : b ∈ bs) : b.token.place ≤ endPlace ts := by
  by_cases hend : b.atEnd = true
  · exact Nat.le_of_eq (h.place_eq hb hend)
  · exact Nat.le_of_lt (h.place_lt hb hend)

/-- The tokens in front of the end are the tokens at places in front of it. -/
theorem not_atEnd_eq (hb : b ∈ bs) : (!b.atEnd) = decide (b.token.place < endPlace ts) := by
  by_cases hend : b.atEnd = true
  · simp [hend, h.place_eq hb hend]
  · simp [hend, h.place_lt hb hend]

theorem atEnd_eq (hb : b ∈ bs) : b.atEnd = decide (b.token.place = endPlace ts) := by
  by_cases hend : b.atEnd = true
  · simp [hend, h.place_eq hb hend]
  · simp [hend, Nat.ne_of_lt (h.place_lt hb hend)]

/-! ### Faults -/

theorem report?_placed (hb : b ∈ bs) : b.placed.report? ts =
    some (b.report.relabel ⟨id, lineAt ts⟩) := by
  rw [PlacedFault.report?, Blame.placed, getElem?_place_of_mem_placed (h.token_mem_placed hb),
    Option.map_some, Blame.report]
  cases b.written with
  | true | false => simp

theorem map_place_early :
    ((writtenFaults ts).filter (·.place < endPlace ts)).map PlacedFault.place =
      (early bs).map Token.place := by
  rw [h.writtenFaults_eq, List.filter_map, List.map_map, List.filter_filter, early, List.map_map]
  refine congrArg _ (List.filter_congr fun b hb => ?_)
  rw [h.not_atEnd_eq hb, Bool.and_comm]
  rfl

theorem map_fault_late :
    ((writtenFaults ts).filter (·.place = endPlace ts)).map PlacedFault.fault = late bs := by
  rw [h.writtenFaults_eq, List.filter_map, List.map_map, List.filter_filter, late]
  refine congrArg _ (List.filter_congr fun b hb => ?_)
  rw [h.atEnd_eq hb, Bool.and_comm]
  rfl

/-- A fault that is not written is one of a token that is blamed once more. -/
theorem getElem?_succ_placedFaults {i : Nat} {f : PlacedFault}
    (hf : (placedFaults ts)[i]? = some f) (hlost : f.written = false) :
    (placedFaults ts)[i + 1]? = some ⟨f.place, .tooDeep, true⟩ := by
  rw [h.placedFaults_eq, List.getElem?_map] at hf ⊢
  obtain ⟨b, hb, rfl⟩ := Option.map_eq_some_iff.1 hf
  rw [h.passage.repeated.getElem?_succ hb hlost]
  rfl

theorem nodup_map_place_early : ((early bs).map Token.place).Nodup := by
  obtain ⟨l, hperm, hsub⟩ := h.passage.once
  have hnodup : (l.map Token.place).Nodup :=
    (h.map_place ▸ List.nodup_range).sublist (hsub.map Token.place)
  exact (hperm.map Token.place).nodup_iff.1 hnodup

/-- Of two blames that stop a rule, both are of the end, or the later one is of a later token. -/
theorem place_lt_or_eq {b' : Blame}
    (hsub : [b, b'] <+ (bs.filter (·.written)).filter (·.fault.unwinds)) :
    b.token.place < b'.token.place ∨
      b.token.place = endPlace ts ∧ b'.token.place = endPlace ts := by
  rw [List.filter_filter] at hsub
  have hpair : [b, b'] <+ bs := hsub.trans List.filter_sublist
  have hb : b ∈ bs := hpair.subset (by simp)
  have hb' : b' ∈ bs := hpair.subset (by simp)
  by_cases hend' : b'.atEnd = true
  · rw [h.place_eq hb' hend']
    by_cases hend : b.atEnd = true
    · exact Or.inr ⟨h.place_eq hb hend, rfl⟩
    · exact Or.inl (h.place_lt hb hend)
  · have hend : ¬b.atEnd = true :=
      mt (List.pairwise_iff_forall_sublist.1 h.passage.endLast hpair) hend'
    have htokens : [b.token, b'.token] <+ unwound bs := by
      have hkept := (hsub.filter fun b => !b.atEnd).map Blame.token
      rw [List.filter_filter] at hkept
      have hfilter : (bs.filter fun b => !b.atEnd && (b.fault.unwinds && b.written)) =
          bs.filter fun b => b.written && (!b.atEnd && b.fault.unwinds) :=
        List.filter_congr fun b _ => by rw [Bool.and_comm b.written, Bool.and_assoc]
      rw [hfilter] at hkept
      simpa [hend, hend', unwound] using hkept
    have hplaces := (htokens.trans h.passage.inOrder).map Token.place
    rw [h.map_place] at hplaces
    exact Or.inl (List.pairwise_iff_forall_sublist.1 List.pairwise_lt_range hplaces)

/-! ### Noted blocks -/

theorem openAtEnd_eq : openAtEnd ts = braces.map Token.place := by
  rw [openAtEnd, h.result, h.notes.openAtEnd, List.nil_append]

theorem unclosed_eq : unclosed ts = braces.map Token.place := by
  rw [unclosed, h.result, h.notes.unclosed, List.nil_append]

theorem brace_mem (hu : u ∈ braces) : u ∈ w ∧ u.kind = .leftBrace := by
  have hmem := h.nested.subset (List.mem_reverse.2 hu)
  rw [List.mem_filter] at hmem
  exact ⟨hmem.1, of_decide_eq_true hmem.2⟩

theorem pairwise_openAtEnd : (openAtEnd ts).Pairwise (· > ·) := by
  have hsub : (braces.map Token.place).reverse <+ List.range (endPlace ts) := by
    rw [← h.map_place, ← List.map_reverse]
    exact (h.nested.trans (List.filter_sublist ..)).map Token.place
  rw [h.openAtEnd_eq]
  exact List.pairwise_reverse.1 (List.pairwise_lt_range.sublist hsub)

end

end Ends

/-! ## No token is blamed twice -/

/-- Whom reading these tokens blames.  What is said of once and of order is said of the reports that
are written; a report that is not written doubles the one behind it. -/
structure BlamesOnce (ts : List Token) : Prop where
  /-- What is reported is the faults, each of the token at its place. -/
  reports : (parse ts).reports.map some = (placedFaults ts).map (PlacedFault.report? ts)
  /-- Where a report is not written, the next one is, and blames the same token for the limit on
  nesting. -/
  doubled : ∀ i f, (placedFaults ts)[i]? = some f → f.written = false →
    (placedFaults ts)[i + 1]? = some ⟨f.place, .tooDeep, true⟩
  /-- Within the limit on nesting all reports are written. -/
  allWritten : (parse ts).WithinNesting → writtenFaults ts = placedFaults ts
  /-- No token behind the first end is blamed. -/
  upToEnd : ∀ f ∈ placedFaults ts, f.place ≤ endPlace ts
  /-- A token in front of the first end is blamed at most once. -/
  once : (((writtenFaults ts).filter (·.place < endPlace ts)).map PlacedFault.place).Nodup
  /-- The faults that stop a rule are found at later and later places, until the end is reached. -/
  inOrder : ((writtenFaults ts).filter (·.fault.unwinds)).Pairwise fun f f' =>
    f.place < f'.place ∨ f.place = endPlace ts ∧ f'.place = endPlace ts
  /-- Without the notes of blocks, watched reading is reading. -/
  watches : Watched.forget (watched ts) = readProgram nestingLimit ⟨closed (placed ts), []⟩
  /-- The blocks that are open at the end begin with braces in front of it. -/
  braces : ∀ i ∈ openAtEnd ts, i < endPlace ts ∧ ts[i]?.map Token.kind = some .leftBrace
  /-- Each of them is open once, and the inner ones are left first. -/
  nested : (openAtEnd ts).Pairwise (· > ·)
  /-- Just these blocks report that their closing brace is missing, each once. -/
  unclosed : unclosed ts = openAtEnd ts
  /-- The end is blamed for at most one other fault, and then by each open block. -/
  atEnd : ∃ other : Option Fault, other ≠ some (.missing .endOfBlock) ∧
    ((writtenFaults ts).filter (·.place = endPlace ts)).map PlacedFault.fault =
      other.toList ++ (openAtEnd ts).map fun _ => .missing .endOfBlock
  /-- So there is at most one report more at the end than there are blocks open there. -/
  bound : ((writtenFaults ts).filter (·.place = endPlace ts)).length ≤ (openAtEnd ts).length + 1

/-- Reading tokens with an end among them blames no token twice in writing, and the end once for each
block that is open there and for at most one thing else. -/
theorem parse_blames_once (hend : ∃ t ∈ ts, t.kind = .eof) : BlamesOnce ts := by
  obtain ⟨s, w, t, bs, braces, h⟩ := exists_ends hend
  have hreports : (parse ts).reports.map some = (placedFaults ts).map (PlacedFault.report? ts) := by
    have hplaced : (placed ts).map (Token.relabel ⟨id, lineAt ts⟩) = ts :=
      map_relabel_placed rfl fun i t u ht hu => by
        obtain rfl : t = u := Option.some.inj (ht.symm.trans hu)
        rfl
    have hparse := parse_relabel ⟨id, lineAt ts⟩ (exists_eof_placed hend)
    rw [hplaced] at hparse
    rw [hparse, Parse.relabel, h.reports, h.passage.reports, h.placedFaults_eq]
    simp only [List.nil_append, List.map_map]
    exact List.map_congr_left fun b hb => (h.report?_placed hb).symm
  have hatEnd : ∃ other : Option Fault, other ≠ some (.missing .endOfBlock) ∧
      ((writtenFaults ts).filter (·.place = endPlace ts)).map PlacedFault.fault =
        other.toList ++ (openAtEnd ts).map fun _ => .missing .endOfBlock := by
    obtain ⟨other, hother, hlate⟩ := h.lacks
    exact ⟨other, hother, by rw [h.map_fault_late, hlate, h.openAtEnd_eq, List.map_map]; rfl⟩
  exact {
    reports := hreports
    doubled := fun i f hf hlost => h.getElem?_succ_placedFaults hf hlost
    allWritten := fun hn => List.filter_eq_self.2 fun f hf => by
      have hmem : f.report? ts ∈ (parse ts).reports.map some :=
        hreports ▸ List.mem_map_of_mem hf
      obtain ⟨r, hr, hreport⟩ := List.mem_map.1 hmem
      have hwritten := isWritten_of_withinNesting hend hn hr
      obtain ⟨t, -, rfl⟩ := Option.map_eq_some_iff.1 hreport.symm
      cases hf : f.written with
      | true => rfl
      | false => simp [hf] at hwritten
    upToEnd := by
      rw [h.placedFaults_eq]
      exact List.forall_mem_map.2 fun b hb => h.place_le hb
    once := h.map_place_early ▸ h.nodup_map_place_early
    inOrder := by
      rw [h.writtenFaults_eq, List.filter_map, List.pairwise_map]
      exact List.pairwise_iff_forall_sublist.2 fun hsub => h.place_lt_or_eq hsub
    watches := Watched.follows_readProgram nestingLimit _
    braces := by
      rw [h.openAtEnd_eq]
      refine List.forall_mem_map.2 fun u hu => ?_
      obtain ⟨hmem, hkind⟩ := h.brace_mem hu
      obtain ⟨r, hr⟩ := h.exists_placed_eq
      have hplaced : u ∈ placed ts := hr ▸ List.mem_append_left _ hmem
      exact ⟨h.place_lt_of_mem hmem, by
        rw [getElem?_place_of_mem_placed hplaced, Option.map_some, Token.kind_relabel, hkind]⟩
    nested := h.pairwise_openAtEnd
    unclosed := h.unclosed_eq.trans h.openAtEnd_eq.symm
    atEnd := hatEnd
    bound := by
      obtain ⟨other, -, hfaults⟩ := hatEnd
      have hlength := congrArg List.length hfaults
      rw [List.length_map, List.length_append, List.length_map] at hlength
      have hother : other.toList.length ≤ 1 := by cases other <;> simp
      omega }

/-- Two blocks are open at the end, and a value to print is missing there. -/
theorem parse_blames_once_open_blocks :
    let ts := (scan "\x7b -a = b; \x7b print").tokens
    (∃ t ∈ ts, t.kind = .eof) ∧ BlamesOnce ts ∧ openAtEnd ts = [6, 0] ∧
      placedFaults ts = [⟨3, .badTarget, true⟩, ⟨8, .noExpression, true⟩,
        ⟨8, .missing .endOfBlock, true⟩, ⟨8, .missing .endOfBlock, true⟩] := by
  intro ts
  have hend : ∃ t ∈ ts, t.kind = .eof := exists_eof_tokensFrom 1 _
  exact ⟨hend, parse_blames_once hend, by decide +kernel, by decide +kernel⟩

end Lox
