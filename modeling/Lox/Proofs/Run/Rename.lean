import Lox.Proofs.Run.Relabel
import Lox.Proofs.Scan.Lexeme

/-!
# Other layout and other names

Two texts whose tokens are the same but for the lines and for the names of variables, which are
changed one to one, do the same (`run_rewording`).  Both come from one list of tokens, in which each
token has its place in the list for a line, by a relabeling; so do their programs and reports.
-/

namespace Lox

open Computing Grammar

variable {f : Identifier → Identifier} {text : String}

/-! ## Changed names -/

/-- The text with another name, if it is the name of a variable. -/
def onText (f : Identifier → Identifier) (text : String) : String :=
  if h : isIdentifier text = true then (f ⟨text, h⟩).1 else text

theorem onText_val (f : Identifier → Identifier) (name : Identifier) :
    onText f name.1 = (f name).1 :=
  dif_pos name.2

theorem onText_of_not_isIdentifier (h : ¬isIdentifier text = true) : onText f text = text :=
  dif_neg h

theorem isIdentifier_onText (f : Identifier → Identifier) (text : String) :
    isIdentifier (onText f text) = isIdentifier text := by
  by_cases h : isIdentifier text = true
  · rw [onText, dif_pos h, h]
    exact (f ⟨text, h⟩).2
  · rw [onText_of_not_isIdentifier h]

theorem onText_injective (hf : Function.Injective f) : Function.Injective (onText f) := by
  intro a b h
  have hsame : isIdentifier a = isIdentifier b := by
    rw [← isIdentifier_onText f a, h, isIdentifier_onText]
  by_cases ha : isIdentifier a = true
  · have hb : isIdentifier b = true := hsame ▸ ha
    rw [onText, dif_pos ha, onText, dif_pos hb] at h
    exact congrArg Subtype.val (hf (Subtype.ext h))
  · have hb : ¬isIdentifier b = true := hsame ▸ ha
    rwa [onText_of_not_isIdentifier ha, onText_of_not_isIdentifier hb] at h

/-- The second bindings bind just the changed names, to the same values. -/
def Bindings.Correspond (rename : String → String) (b b' : Bindings) : Prop :=
  ∀ name' v, b'.get? name' = some v ↔ ∃ name, rename name = name' ∧ b.get? name = some v

/-- Names that are changed one to one stay apart. -/
theorem keeps_correspond {rename : String → String} (hinj : Function.Injective rename) :
    Keeps rename (Bindings.Correspond rename) where
  empty name' v := by simp
  get? h name := by
    apply Option.ext
    intro v
    rw [h]
    constructor
    · rintro ⟨name', hname, hv⟩
      rwa [← hinj hname]
    · exact fun hv => ⟨name, rfl, hv⟩
  define {b b'} h name v := by
    intro name' w
    by_cases hname : name' = rename name
    · subst hname
      rw [Bindings.get?_define, if_pos rfl]
      constructor
      · exact fun hw => ⟨name, rfl, by rw [Bindings.get?_define, if_pos rfl, hw]⟩
      · rintro ⟨other, hother, hw⟩
        rwa [hinj hother, Bindings.get?_define, if_pos rfl] at hw
    · have hrest : ∀ other, rename other = name' →
          (b.define name v).get? other = b.get? other := by
        rintro other rfl
        rw [Bindings.get?_define, if_neg (fun hother => hname (congrArg rename hother))]
      rw [Bindings.get?_define, if_neg hname, h]
      constructor
      · rintro ⟨other, hother, hw⟩
        exact ⟨other, hother, by rw [hrest other hother, hw]⟩
      · rintro ⟨other, hother, hw⟩
        exact ⟨other, hother, by rw [← hrest other hother, hw]⟩

/-! ## Tokens -/

/-- The second token is of the same kind, with the same text, but with the other name if it is an
identifier. -/
structure Token.Renames (f : Identifier → Identifier) (t u : Token) : Prop where
  kind : u.kind = t.kind
  lexeme : t.kind ≠ .identifier → u.lexeme = t.lexeme
  name : t.kind = .identifier → ∃ name : Identifier, t.lexeme = name.1 ∧ u.lexeme = (f name).1

/-- Scanned tokens that correspond differ in the line and in the name only. -/
theorem Token.Renames.eq {t u : Token} (h : t.Renames f u) (ht : t.Lexed) (hu : u.Lexed) :
    u = { t with lexeme := onText f t.lexeme, line := u.line } := by
  have hlexeme : u.lexeme = onText f t.lexeme := by
    by_cases hkind : t.kind = .identifier
    · obtain ⟨name, htext, htext'⟩ := h.name hkind
      rw [htext, htext', onText_val]
    · rw [h.lexeme hkind, onText_of_not_isIdentifier (mt ht.identifier.2 hkind)]
  have hliteral : u.literal = t.literal := by
    rw [ht.literal, hu.literal, h.kind]
    by_cases hkind : t.kind = .identifier
    · rw [hkind]
      rfl
    · rw [h.lexeme hkind]
  rw [← hlexeme, ← hliteral, ← h.kind]

/-- The tokens with their places in the list for lines. -/
def placed (ts : List Token) : List Token := ts.mapIdx fun i t => { t with line := i }

/-- The line of the token at a place. -/
def lineAt (ts : List Token) (place : Int) : Int := (ts[place.toNat]?.map Token.line).getD 0

theorem lineAt_natCast {ts : List Token} {i : Nat} (hi : i < ts.length) :
    lineAt ts i = ts[i].line := by
  unfold lineAt
  rw [Int.toNat_natCast, List.getElem?_eq_getElem hi]
  rfl

/-- Tokens that differ from others in the text and in the line only come from the same places. -/
theorem map_relabel_placed {ts us : List Token} {rename : String → String}
    (hlength : ts.length = us.length)
    (h : ∀ (i : Nat) (t u : Token), ts[i]? = some t → us[i]? = some u →
      u = { t with lexeme := rename t.lexeme, line := u.line }) :
    (placed ts).map (Token.relabel ⟨rename, lineAt us⟩) = us := by
  have hsame : ((placed ts).map (Token.relabel ⟨rename, lineAt us⟩)).length = us.length := by
    rw [List.length_map, placed, List.length_mapIdx, hlength]
  refine List.ext_getElem hsame fun i hi hu => ?_
  have ht : i < ts.length := hlength ▸ hu
  rw [h i _ _ (List.getElem?_eq_getElem ht) (List.getElem?_eq_getElem hu)]
  simp [placed, Token.relabel, lineAt_natCast hu]

theorem exists_eof_placed {ts : List Token} (h : ∃ t ∈ ts, t.kind = .eof) :
    ∃ t ∈ placed ts, t.kind = .eof := by
  obtain ⟨t, ht, hk⟩ := h
  obtain ⟨i, hi, rfl⟩ := List.getElem_of_mem ht
  exact ⟨_, List.mem_mapIdx.2 ⟨i, hi, rfl⟩, hk⟩

/-! ## Texts -/

/-- Both texts scan without a report, into tokens that are the same but for the lines and the
names. -/
structure Rewording (f : Identifier → Identifier) (a b : String) : Prop where
  scans : (scan a).reports = []
  scans' : (scan b).reports = []
  length : (scan a).tokens.length = (scan b).tokens.length
  tokens : ∀ (i : Nat) (t u : Token), (scan a).tokens[i]? = some t →
    (scan b).tokens[i]? = some u → t.Renames f u

/-- The texts of tokens are changed, and their places are replaced by the lines that the tokens of
`c` have there. -/
def Relabeling.ofPlaces (rename : String → String) (c : String) : Relabeling :=
  ⟨rename, lineAt (scan c).tokens⟩

theorem lexed_of_getElem? {c : String} {i : Nat} {t : Token} (h : (scan c).tokens[i]? = some t) :
    t.Lexed :=
  lexed_of_mem_tokensFrom (fun _ hp => formed_of_mem_pieces hp) (List.mem_of_getElem? h)

namespace Session

variable {a b : String}

/-- One program is read of both texts, with the names and lines of each. -/
theorem exists_reading_of_rewording (h : Rewording f a b) :
    ∃ (program : List Stmt) (reports : List Report),
      ((read a).program = program.map (Stmt.relabel (.ofPlaces id a)) ∧
        (read a).reports = reports.map (Report.relabel (.ofPlaces id a))) ∧
      (read b).program = program.map (Stmt.relabel (.ofPlaces (onText f) b)) ∧
        (read b).reports = reports.map (Report.relabel (.ofPlaces (onText f) b)) := by
  have ha : (placed (scan a).tokens).map (Token.relabel (.ofPlaces id a)) = (scan a).tokens := by
    refine map_relabel_placed rfl fun i t u ht hu => ?_
    obtain rfl : t = u := Option.some.inj (ht.symm.trans hu)
    rfl
  have hb : (placed (scan a).tokens).map (Token.relabel (.ofPlaces (onText f) b)) =
      (scan b).tokens :=
    map_relabel_placed h.length fun i t u ht hu =>
      (h.tokens i t u ht hu).eq (lexed_of_getElem? ht) (lexed_of_getElem? hu)
  have hplaced : ∃ t ∈ placed (scan a).tokens, t.kind = .eof :=
    exists_eof_placed (exists_eof_tokensFrom 1 _)
  have hparse := parse_relabel (.ofPlaces id a) hplaced
  have hparse' := parse_relabel (.ofPlaces (onText f) b) hplaced
  rw [ha, parse_tokens_scan h.scans] at hparse
  rw [hb, parse_tokens_scan h.scans'] at hparse'
  generalize parse (placed (scan a).tokens) = read at hparse hparse'
  obtain ⟨program?, reports⟩ := read
  cases program? with
  | none => cases hparse
  | some program =>
    obtain ⟨hprogram, hreports⟩ := Parse.mk.inj hparse
    obtain ⟨hprogram', hreports'⟩ := Parse.mk.inj hparse'
    exact ⟨program, reports, ⟨Option.some.inj hprogram, hreports⟩, Option.some.inj hprogram',
      hreports'⟩

/-- Other layout, and other names that are changed one to one, do not matter to a run.  The same is
printed and the end is the same.  The same is reported of the tokens at the same places, with the
line and the name that each has in its text.  The names correspond in the globals if they did
before. -/
theorem run_rewording (hf : Function.Injective f) (h : Rewording f a b) (rounds : Nat)
    (s s' : Session) (hfault : s'.log.hadFault = s.log.hadFault)
    (hglobals : s.globals.Correspond (onText f) s'.globals) :
    let out := s.run rounds false a
    let out' := s'.run rounds false b
    out'.printed = out.printed ∧ out'.halt? = out.halt? ∧
      (∃ reports : List Report,
        out.reports = reports.map (Report.relabel (.ofPlaces id a)) ∧
          out'.reports = reports.map (Report.relabel (.ofPlaces (onText f) b))) ∧
      out.session.globals.Correspond (onText f) out'.session.globals := by
  intro out out'
  obtain ⟨program, reports, ⟨hprogram, hreports⟩, hprogram', hreports'⟩ :=
    exists_reading_of_rewording h
  -- Both runs come from the run of the program that has places for lines.
  have hout : Outcome.Relates (.ofPlaces id a) Eq [] (s.runReading rounds ⟨[], program, reports⟩)
      out :=
    relates_runReading keeps_eq rounds hprogram hreports rfl rfl
  have hout' : Outcome.Relates (.ofPlaces (onText f) b) (Bindings.Correspond (onText f)) []
      (s.runReading rounds ⟨[], program, reports⟩) out' :=
    relates_runReading (keeps_correspond (onText_injective hf)) rounds hprogram' hreports' hfault
      hglobals
  refine ⟨?_, ?_, ⟨_, hout.reports, hout'.reports⟩, ?_⟩
  · rw [hout'.printed, hout.printed]
  · rw [hout'.halt?, hout.halt?]
  · rw [← hout.globals]
    exact hout'.globals

end Session

/-! ## Two names that change places -/

/-- Two names change places. -/
def Identifier.swap (a b name : Identifier) : Identifier :=
  if name.1 = a.1 then b else if name.1 = b.1 then a else name

theorem Identifier.swap_swap (a b name : Identifier) : swap a b (swap a b name) = name := by
  unfold swap
  by_cases ha : name.1 = a.1
  · obtain rfl : name = a := Subtype.ext ha
    by_cases hb : b.1 = name.1
    · rw [if_pos rfl, if_pos hb]
      exact Subtype.ext hb
    · rw [if_pos rfl, if_neg hb, if_pos rfl]
  · by_cases hb : name.1 = b.1
    · rw [if_neg ha, if_pos hb, if_pos rfl]
      exact Subtype.ext hb.symm
    · rw [if_neg ha, if_neg hb, if_neg ha, if_neg hb]

theorem Identifier.swap_injective (a b : Identifier) : Function.Injective (swap a b) := by
  intro name name' h
  rw [← swap_swap a b name, h, swap_swap]

/-- Texts with the same kinds and the changed texts of tokens are rewordings. -/
theorem rewording_of_map_eq {a b : String} (ha : (scan a).reports = []) (hb : (scan b).reports = [])
    (h : (scan b).tokens.map (fun u => (u.kind, u.lexeme)) =
      (scan a).tokens.map fun t => (t.kind, onText f t.lexeme)) : Rewording f a b where
  scans := ha
  scans' := hb
  length := by simpa using congrArg List.length h.symm
  tokens i t u ht hu := by
    have hi := congrArg (·[i]?) h
    rw [List.getElem?_map, List.getElem?_map, ht, hu] at hi
    obtain ⟨hkind, hlexeme⟩ := Prod.mk.inj (Option.some.inj hi)
    have hname := (lexed_of_getElem? ht).identifier
    refine ⟨hkind, fun hk => ?_, fun hk => ?_⟩
    · exact hlexeme.trans (onText_of_not_isIdentifier (mt hname.2 hk))
    · exact ⟨⟨t.lexeme, hname.1 hk⟩, rfl, hlexeme.trans (onText_val f ⟨t.lexeme, hname.1 hk⟩)⟩

/-- With another name and another layout the same is printed, and the other name is undefined. -/
theorem Session.run_rewording_undefined :
    let out := Session.run 1 false {} "var b = \"1\"; // one\nprint b;\nprint\n  x;"
    out.printed = ["1"] ∧
      out.reports.map (Report.relabel ⟨id, fun _ => 0⟩) =
        [.ofFailure (.undefined ⟨.identifier, "x", .nil, 0⟩)] := by
  intro out
  let f := Identifier.swap ⟨"a", by decide⟩ ⟨"x", by decide⟩
  let before := "var b=\"1\";print b;print a;"
  let after := "var b = \"1\"; // one\nprint b;\nprint\n  x;"
  have hf : Function.Injective f := Identifier.swap_injective _ _
  have h : Rewording f before after :=
    rewording_of_map_eq (by decide +kernel) (by decide +kernel) (by decide +kernel)
  obtain ⟨hprinted, -, ⟨reports, hreports, hreports'⟩, -⟩ :=
    Session.run_rewording hf h 1 {} {} rfl (keeps_correspond (onText_injective hf)).empty
  have hbefore : (Session.run 1 false {} before).reports =
      [.ofFailure (.undefined ⟨.identifier, "a", .nil, 1⟩)] := by decide +kernel
  refine ⟨hprinted.trans (by decide +kernel), ?_⟩
  calc out.reports.map (Report.relabel ⟨id, fun _ => 0⟩)
      = reports.map fun r => (r.relabel (.ofPlaces id before)).relabel ⟨onText f, fun _ => 0⟩ := by
        rw [hreports', List.map_map]
        exact List.map_congr_left fun r _ => Report.forget_lines _ _ _ r
    _ = (Session.run 1 false {} before).reports.map (Report.relabel ⟨onText f, fun _ => 0⟩) := by
        rw [hreports, List.map_map]
        rfl
    _ = [.ofFailure (.undefined ⟨.identifier, "x", .nil, 0⟩)] := by
        rw [hbefore]
        decide +kernel

end Lox
