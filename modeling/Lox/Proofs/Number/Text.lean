import Mathlib
import Lox.Number.Layout
import Lox.Number.Reading
import Lox.Proofs.Number.Shortest

/-!
# The text of a number tells the number

The text of a decimal reads as a decimal of the same value, whether it is written positionally or
with an exponent (`value_ofText?_decimal`).  As the value of the shortest decimal tells the double,
the texts of two doubles are the same only if their parts are (`parts_eq_of_text_eq`).  All that is
asked of the layout is that nothing follows a whole number and that its words for what is not finite
do not look like digits (`Layout.Tells`).
-/

namespace Lox.Number

variable {layout : Layout} {whole places rest cs : List Char} {d : Decimal}

/-! ## Digits -/

/-- What stands first is no digit. -/
def NoDigit (cs : List Char) : Prop := ∀ c ∈ cs.head?, isDigit c = false

theorem isDigit_eq (c : Char) : isDigit c = c.isDigit := by
  simp only [isDigit, Char.isDigit, Char.le_def, ge_iff_le, UInt32.le_iff_toNat_le]

theorem isDigit_of_mem_toDigits {n : Nat} {c : Char} (h : c ∈ Nat.toDigits 10 n) :
    isDigit c = true := by
  rw [isDigit_eq]
  exact Nat.isDigit_of_mem_toDigits (by decide) (by decide) h

theorem isDigit_of_mem_replicate {n : Nat} {c : Char} (h : c ∈ List.replicate n '0') :
    isDigit c = true := by
  rw [List.eq_of_mem_replicate h]
  rfl

theorem takeWhile_isDigit (hcs : ∀ c ∈ cs, isDigit c = true) (hrest : NoDigit rest) :
    (cs ++ rest).takeWhile isDigit = cs := by
  rw [List.takeWhile_append_of_pos hcs]
  cases rest with
  | nil => simp
  | cons c r => simp [hrest c rfl]

theorem dropWhile_isDigit (hcs : ∀ c ∈ cs, isDigit c = true) (hrest : NoDigit rest) :
    (cs ++ rest).dropWhile isDigit = rest := by
  rw [List.dropWhile_append_of_pos hcs]
  cases rest with
  | nil => simp
  | cons c r => simp [hrest c rfl]

theorem splitDigits_whole (hwhole : ∀ c ∈ whole, isDigit c = true) (hrest : NoDigit rest)
    (hpoint : rest.head? ≠ some '.') : splitDigits (whole ++ rest) = (whole, [], rest) := by
  rw [splitDigits, takeWhile_isDigit hwhole hrest, dropWhile_isDigit hwhole hrest]
  grind

theorem splitDigits_point (hwhole : ∀ c ∈ whole, isDigit c = true)
    (hplaces : ∀ c ∈ places, isDigit c = true) (hrest : NoDigit rest) :
    splitDigits (whole ++ '.' :: (places ++ rest)) = (whole, places, rest) := by
  have hdot : NoDigit ('.' :: (places ++ rest)) := by simp [NoDigit, isDigit]
  simp only [splitDigits, takeWhile_isDigit hwhole hdot, dropWhile_isDigit hwhole hdot,
    takeWhile_isDigit hplaces hrest, dropWhile_isDigit hplaces hrest]

/-! ## The decimal that a text spells -/

/-- The decimal with just the digits of the text. -/
def Decimal.ofText? (cs : List Char) : Option Decimal :=
  let (whole, places, rest) := splitDigits cs
  (exponent? rest).map fun e => ⟨Nat.ofDigitChars 10 (whole ++ places) 0, e - places.length⟩

theorem exponent?_exponentText (e : Int) : exponent? ('e' :: Layout.exponentText e) = some e := by
  have hdigits : Nat.ofDigitChars 10
      (List.replicate (2 - (Nat.toDigits 10 e.natAbs).length) '0' ++ Nat.toDigits 10 e.natAbs) 0
      = e.natAbs := by
    rw [Nat.ofDigitChars_append, Nat.ofDigitChars_replicate_zero, Nat.mul_zero,
      Nat.ofDigitChars_ten_toDigits]
  have hall : (List.replicate (2 - (Nat.toDigits 10 e.natAbs).length) '0' ++
      Nat.toDigits 10 e.natAbs).all isDigit = true := by
    rw [List.all_eq_true]
    intro c hc
    rcases List.mem_append.mp hc with hc | hc
    · exact isDigit_of_mem_replicate hc
    · exact isDigit_of_mem_toDigits hc
  have hne : List.replicate (2 - (Nat.toDigits 10 e.natAbs).length) '0' ++
      Nat.toDigits 10 e.natAbs ≠ [] := by simp [Nat.toDigits_ne_nil]
  by_cases he : e < 0
  · simp only [exponent?, Layout.exponentText, he, ↓reduceIte, splitSign, true_or, hne, ne_eq,
      not_false_eq_true, hall, true_and, hdigits, Option.some.injEq]
    omega
  · simp only [exponent?, Layout.exponentText, he, ↓reduceIte, splitSign, true_or, hne, ne_eq,
      not_false_eq_true, hall, true_and, hdigits, Bool.false_eq_true, Option.some.injEq]
    omega

/-- Digits with a point before the position `place`. -/
theorem value_ofText?_positional {digits : List Char} (hdigits : ∀ c ∈ digits, isDigit c = true)
    (place : Int) : ∃ d, Decimal.ofText? (Layout.positional [] digits place) = some d ∧
      d.value = Nat.ofDigitChars 10 digits 0 * 10 ^ (place - digits.length) := by
  unfold Layout.positional
  split
  case isTrue hplace =>
    have hplaces : ∀ c ∈ List.replicate (-place).toNat '0' ++ digits, isDigit c = true := by
      intro c hc
      rcases List.mem_append.mp hc with hc | hc
      · exact isDigit_of_mem_replicate hc
      · exact hdigits c hc
    have hsplit := @splitDigits_point ['0'] _ [] (by simp [isDigit]) hplaces (by simp [NoDigit])
    rw [List.append_nil, List.singleton_append] at hsplit
    refine ⟨⟨Nat.ofDigitChars 10 digits 0, place - digits.length⟩, ?_, rfl⟩
    simp only [Decimal.ofText?, hsplit, exponent?, Option.map_some, Option.some.injEq,
      Decimal.mk.injEq]
    constructor
    · rw [List.singleton_append, Nat.ofDigitChars_cons, Nat.ofDigitChars_append,
        Nat.ofDigitChars_replicate_zero]
      simp
    · simp only [List.length_append, List.length_replicate]
      omega
  case isFalse hplace =>
    split
    case isTrue hlength =>
      have hsplit := @splitDigits_point (digits.take place.toNat) (digits.drop place.toNat) []
        (fun c hc => hdigits c (List.mem_of_mem_take hc))
        (fun c hc => hdigits c (List.mem_of_mem_drop hc)) (by simp [NoDigit])
      rw [List.append_nil] at hsplit
      refine ⟨⟨Nat.ofDigitChars 10 digits 0, place - digits.length⟩, ?_, rfl⟩
      simp only [Decimal.ofText?, hsplit, exponent?, Option.map_some, Option.some.injEq,
        Decimal.mk.injEq, List.take_append_drop, List.length_drop, true_and]
      omega
    case isFalse hlength =>
      have hwhole : ∀ c ∈ digits ++ List.replicate (place.toNat - digits.length) '0',
          isDigit c = true := by
        intro c hc
        rcases List.mem_append.mp hc with hc | hc
        · exact hdigits c hc
        · exact isDigit_of_mem_replicate hc
      have hsplit := @splitDigits_whole _ [] hwhole (by simp [NoDigit]) (by simp)
      have hexponent : place - digits.length = ((place.toNat - digits.length : ℕ) : ℤ) := by omega
      rw [List.append_nil] at hsplit
      refine ⟨⟨10 ^ (place.toNat - digits.length) * Nat.ofDigitChars 10 digits 0, 0⟩, ?_, ?_⟩
      · rw [List.append_nil]
        simp [Decimal.ofText?, hsplit, exponent?, Nat.ofDigitChars_append,
          Nat.ofDigitChars_replicate_zero]
      · rw [Decimal.value, hexponent, zpow_natCast]
        push_cast
        ring

/-- One digit, the point and the others, and the exponent. -/
theorem ofText?_scientific {digits : List Char} (hdigits : ∀ c ∈ digits, isDigit c = true)
    (hne : digits ≠ []) (e : Int) : Decimal.ofText? (Layout.scientific digits e)
      = some ⟨Nat.ofDigitChars 10 digits 0, e + 1 - digits.length⟩ := by
  have hrest : NoDigit ('e' :: Layout.exponentText e) := by simp [NoDigit, isDigit]
  match digits, hne with
  | [c], _ =>
    have hsplit := @splitDigits_whole [c] _ hdigits hrest (by simp)
    rw [List.singleton_append] at hsplit
    simp [Layout.scientific, Decimal.ofText?, hsplit, exponent?_exponentText]
  | c :: c' :: cs, _ =>
    have hsplit := @splitDigits_point [c] (c' :: cs) _ (by grind) (by grind) hrest
    rw [List.singleton_append] at hsplit
    simp only [Layout.scientific, List.cons_append, Decimal.ofText?] at hsplit ⊢
    simp only [hsplit, exponent?_exponentText, Option.map_some, Option.some.injEq,
      Decimal.mk.injEq, List.length_cons]
    exact ⟨rfl, by push_cast; ring⟩

/-- The text of a decimal spells a decimal of the same value. -/
theorem value_ofText?_decimal (hlayout : layout.wholeTail = "") (d : Decimal) :
    ∃ d', Decimal.ofText? (layout.decimal d) = some d' ∧ d'.value = d.value := by
  have hdigits : ∀ c ∈ Nat.toDigits 10 d.digits, isDigit c = true :=
    fun _ => isDigit_of_mem_toDigits
  have hvalue : (Nat.ofDigitChars 10 (Nat.toDigits 10 d.digits) 0 : ℚ) = d.digits := by
    rw [Nat.ofDigitChars_ten_toDigits]
  unfold Layout.decimal
  simp only [hlayout]
  split
  · obtain ⟨d', hd', hv⟩ := value_ofText?_positional hdigits
      (d.exponent + (Nat.toDigits 10 d.digits).length)
    refine ⟨d', hd', ?_⟩
    rw [hv, hvalue, add_sub_cancel_right, Decimal.value]
  · refine ⟨_, ofText?_scientific hdigits Nat.toDigits_ne_nil _, ?_⟩
    rw [Decimal.value, hvalue, Decimal.value, sub_add_cancel, add_sub_cancel_right]

/-! ## What the text looks like -/

/-- The characters of a decimal's text. -/
def Numeric (c : Char) : Prop := isDigit c = true ∨ c ∈ ['.', 'e', '+', '-']

instance (c : Char) : Decidable (Numeric c) :=
  inferInstanceAs (Decidable (isDigit c = true ∨ c ∈ ['.', 'e', '+', '-']))

theorem numeric_of_isDigit (h : ∀ c ∈ cs, isDigit c = true) : ∀ c ∈ cs, Numeric c :=
  fun c hc => .inl (h c hc)

theorem numeric_exponent (e : Int) : ∀ c ∈ 'e' :: Layout.exponentText e, Numeric c := by
  simp only [Layout.exponentText, List.forall_mem_cons, List.forall_mem_append]
  refine ⟨by simp [Numeric], ?_, numeric_of_isDigit fun _ => isDigit_of_mem_replicate,
    numeric_of_isDigit fun _ => isDigit_of_mem_toDigits⟩
  split <;> simp [Numeric]

theorem numeric_positional {digits : List Char} (hdigits : ∀ c ∈ digits, isDigit c = true)
    (place : Int) : ∀ c ∈ Layout.positional [] digits place, Numeric c := by
  have hzeros (n : Nat) : ∀ c ∈ List.replicate n '0', Numeric c :=
    numeric_of_isDigit fun _ => isDigit_of_mem_replicate
  have hnumeric := numeric_of_isDigit hdigits
  unfold Layout.positional
  split
  · simp only [List.forall_mem_cons, List.forall_mem_append]
    exact ⟨.inl rfl, by simp [Numeric], hzeros _, hnumeric⟩
  · split
    · simp only [List.forall_mem_cons, List.forall_mem_append]
      exact ⟨fun c hc => hnumeric c (List.mem_of_mem_take hc), by simp [Numeric],
        fun c hc => hnumeric c (List.mem_of_mem_drop hc)⟩
    · simp only [List.append_nil, List.forall_mem_append]
      exact ⟨hnumeric, hzeros _⟩

theorem numeric_scientific {digits : List Char} (hdigits : ∀ c ∈ digits, isDigit c = true)
    (e : Int) : ∀ c ∈ Layout.scientific digits e, Numeric c := by
  have hnumeric := numeric_of_isDigit hdigits
  unfold Layout.scientific
  split
  · exact List.forall_mem_cons.mpr ⟨hnumeric _ (by simp), numeric_exponent e⟩
  · rw [List.forall_mem_cons] at hnumeric
    rw [List.cons_append, List.cons_append, List.forall_mem_cons, List.forall_mem_cons,
      List.forall_mem_append]
    exact ⟨hnumeric.1, by simp [Numeric], hnumeric.2, numeric_exponent e⟩
  · simp

theorem numeric_decimal (hlayout : layout.wholeTail = "") (d : Decimal) :
    ∀ c ∈ layout.decimal d, Numeric c := by
  have hdigits : ∀ c ∈ Nat.toDigits 10 d.digits, isDigit c = true :=
    fun _ => isDigit_of_mem_toDigits
  unfold Layout.decimal
  simp only [hlayout]
  split
  · exact numeric_positional hdigits _
  · exact numeric_scientific hdigits _

/-- The text of a decimal begins with a digit. -/
theorem exists_digit_decimal (layout : Layout) (d : Decimal) :
    ∃ c cs, layout.decimal d = c :: cs ∧ isDigit c = true := by
  obtain ⟨c, cs, hdigits⟩ := List.exists_cons_of_ne_nil (Nat.toDigits_ne_nil (n := d.digits) (b := 10))
  have hc : isDigit c = true := isDigit_of_mem_toDigits (n := d.digits) (by simp [hdigits])
  simp only [Layout.decimal, hdigits, List.length_cons]
  split
  case isTrue h =>
    unfold Layout.positional
    split
    · exact ⟨_, _, rfl, rfl⟩
    · split
      · obtain ⟨n, hn⟩ : ∃ n, (d.exponent + ((cs.length + 1 : ℕ) : ℤ)).toNat = n + 1 :=
          Nat.exists_eq_succ_of_ne_zero (by omega)
        rw [hn]
        exact ⟨_, _, rfl, hc⟩
      · exact ⟨_, _, rfl, hc⟩
  case isFalse =>
    unfold Layout.scientific
    cases cs with
    | nil => exact ⟨_, _, rfl, hc⟩
    | cons => exact ⟨_, _, rfl, hc⟩

/-! ## Different numbers have different texts -/

theorem fraction_lt (bits : ℕ) : fraction bits < binade := Nat.mod_lt _ (by decide +kernel)

/-- The sign, the exponent and the fraction are all that the bits hold. -/
theorem eq_fields {bits : ℕ} (h : bits < 2 ^ 64) :
    bits = (if signBit bits then 2 ^ 63 else 0) + storedExponent bits * 2 ^ 52 + fraction bits := by
  simp only [signBit, storedExponent, fraction, binade, Nat.pow_eq, decide_eq_true_eq]
  split <;> omega

/-- A leading one tells the normal magnitudes from the subnormal ones. -/
theorem fields_eq_of_magnitude_eq {b b' : ℕ} (h : magnitude b = magnitude b') :
    storedExponent b = storedExponent b' ∧ fraction b = fraction b' := by
  have hb := fraction_lt b
  have hb' := fraction_lt b'
  unfold magnitude at h
  split at h <;> split at h <;> simp only [Dyadic.mk.injEq] at h <;> omega

/-- The parts of what is a number tell its bits. -/
theorem bits_eq_of_partsOfBits_eq {b b' : ℕ} (hb : b < 2 ^ 64) (hb' : b' < 2 ^ 64)
    (hnan : partsOfBits b ≠ .nan) (h : partsOfBits b = partsOfBits b') : b = b' := by
  have hfields : signBit b = signBit b' ∧ storedExponent b = storedExponent b' ∧
      fraction b = fraction b' := by
    unfold partsOfBits at h hnan
    split at h
    case isTrue hmost =>
      by_cases hzero : fraction b = 0
      · rw [if_pos hzero] at h
        split at h
        case isTrue hmost' =>
          split at h <;> simp_all
        case isFalse => cases h
      · simp [hmost, hzero] at hnan
    case isFalse =>
      split at h
      · split at h <;> cases h
      · injection h with hsign hmagnitude
        exact ⟨hsign, fields_eq_of_magnitude_eq hmagnitude⟩
  rw [eq_fields hb, eq_fields hb', hfields.1, hfields.2.1, hfields.2.2]

/-- The parts of a double that is a number tell the double. -/
theorem eq_of_parts_eq {x y : Float} (hnan : parts x ≠ .nan) (h : parts x = parts y) : x = y := by
  have hbits := bits_eq_of_partsOfBits_eq x.toBits.toNat_lt y.toBits.toNat_lt hnan h
  exact Float.toBits_inj.mp (UInt64.toNat_inj.mp hbits)

/-- Behind a sign that is no part of it, a text tells the sign and itself. -/
theorem sign_append_inj {a b : Bool} {c c' : Char} {cs cs' : List Char} (hc : c ≠ '-')
    (hc' : c' ≠ '-') (h : Layout.sign a ++ c :: cs = Layout.sign b ++ c' :: cs') :
    a = b ∧ c :: cs = c' :: cs' := by
  cases a <;> cases b <;> simp_all [Layout.sign]
  grind

theorem Dyadic.eq_of_decimal_eq {x y : Dyadic} (hx : x.Canonical) (hy : y.Canonical)
    (hlayout : layout.wholeTail = "")
    (h : layout.decimal x.shortest = layout.decimal y.shortest) : x = y := by
  obtain ⟨d, hd, hvalue⟩ := value_ofText?_decimal hlayout x.shortest
  obtain ⟨d', hd', hvalue'⟩ := value_ofText?_decimal hlayout y.shortest
  obtain rfl : d = d' := by simpa [hd, hd'] using congrArg Decimal.ofText? h
  exact eq_of_value_shortest_eq hx hy (hvalue.symm.trans hvalue')

theorem ne_minus_of_isDigit {c : Char} (h : isDigit c = true) : c ≠ '-' := by
  rintro rfl
  simp [isDigit] at h

theorem canonical_of_parts_eq {x : Float} {negative : Bool} {m : Dyadic}
    (h : parts x = .finite negative m) : m.Canonical := by
  unfold parts partsOfBits at h
  split at h
  · split at h <;> cases h
  · cases h
    exact Dyadic.canonical_magnitude _

theorem ofParts_polish_infinite (negative : Bool) : Layout.polish.ofParts (.infinite negative) =
    Layout.sign negative ++ 'i' :: ['n', 'f'] := rfl

/-- Behind the sign of a finite number comes a digit. -/
theorem exists_ofParts_finite (layout : Layout) (negative : Bool) (m : Dyadic) : ∃ c cs,
    layout.ofParts (.finite negative m) = Layout.sign negative ++ c :: cs ∧
      layout.decimal m.shortest = c :: cs ∧ isDigit c = true ∧ c ≠ '-' := by
  obtain ⟨c, cs, hdecimal, hc⟩ := exists_digit_decimal layout m.shortest
  exact ⟨c, cs, by rw [← hdecimal]; rfl, hdecimal, hc, ne_minus_of_isDigit hc⟩

/-- What is no infinity above zero begins with a minus or a digit. -/
theorem text_polish_cases {x : Float} (hx : parts x ≠ .nan) :
    (parts x = .infinite false ∧ Layout.polish.text x = "inf") ∨
      ∃ c cs, (Layout.polish.text x).toList = c :: cs ∧ (c = '-' ∨ isDigit c = true) := by
  have htext : (Layout.polish.text x).toList = Layout.polish.ofParts (parts x) :=
    String.toList_ofList
  rw [htext]
  cases hp : parts x with
  | nan => exact absurd hp hx
  | infinite negative =>
    cases negative with
    | false => exact .inl ⟨rfl, by rw [Layout.text, hp]; rfl⟩
    | true => exact .inr ⟨_, _, rfl, .inl rfl⟩
  | finite negative m =>
    obtain ⟨c, cs, hfinite, -, hc, -⟩ := exists_ofParts_finite .polish negative m
    cases negative with
    | false => exact .inr ⟨c, cs, hfinite, .inr hc⟩
    | true => exact .inr ⟨_, _, hfinite, .inl rfl⟩

/-- The characters of a number, which can be infinite. -/
theorem numeric_or_of_mem_text_polish {x : Float} (hx : parts x ≠ .nan) :
    ∀ c ∈ (Layout.polish.text x).toList, Numeric c ∨ c ∈ ['i', 'n', 'f'] := by
  have hsign (negative : Bool) : ∀ c ∈ Layout.sign negative, Numeric c := by
    cases negative <;> simp [Layout.sign, Numeric]
  have htext : (Layout.polish.text x).toList = Layout.polish.ofParts (parts x) :=
    String.toList_ofList
  rw [htext]
  cases hp : parts x with
  | nan => exact absurd hp hx
  | infinite negative =>
    rw [ofParts_polish_infinite, List.forall_mem_append]
    exact ⟨fun c hc => .inl (hsign negative c hc), fun c hc => .inr hc⟩
  | finite negative m =>
    rw [Layout.ofParts, List.forall_mem_append]
    exact ⟨fun c hc => .inl (hsign negative c hc), fun c hc => .inl (numeric_decimal rfl _ c hc)⟩

/-- The words for what is not finite are two, and neither begins like a decimal; and nothing follows
a whole number. -/
structure Layout.Tells (layout : Layout) : Prop where
  wholeTail : layout.wholeTail = ""
  infinity : ∃ c cs, layout.infinity.toList = c :: cs ∧ isDigit c = false ∧ c ≠ '-'
  notANumber : ∃ c cs, layout.notANumber.toList = c :: cs ∧ isDigit c = false ∧ c ≠ '-'
  apart : layout.infinity ≠ layout.notANumber

theorem Layout.tells_polish : polish.Tells where
  wholeTail := rfl
  infinity := ⟨_, _, rfl, by decide, by decide⟩
  notANumber := ⟨_, _, rfl, by decide, by decide⟩
  apart := by decide

theorem Layout.tells_printed : printed.Tells where
  wholeTail := rfl
  infinity := ⟨_, _, rfl, by decide, by decide⟩
  notANumber := ⟨_, _, rfl, by decide, by decide⟩
  apart := by decide

/-- What follows the sign of a double. -/
def Layout.unsigned (layout : Layout) : Parts → List Char
  | .nan => layout.notANumber.toList
  | .infinite _ => layout.infinity.toList
  | .finite _ m => layout.decimal m.shortest

/-- Is there a minus in front? -/
def Parts.isSigned : Parts → Bool
  | .nan => false
  | .infinite negative | .finite negative _ => negative

theorem Layout.ofParts_eq (layout : Layout) (p : Parts) :
    layout.ofParts p = sign p.isSigned ++ layout.unsigned p := by
  cases p <;> rfl

/-- What follows the sign begins with a digit if it is a decimal, and otherwise with another
character that is no sign either. -/
theorem Layout.Tells.exists_unsigned (h : layout.Tells) (p : Parts) : ∃ c cs,
    layout.unsigned p = c :: cs ∧ c ≠ '-' ∧ (isDigit c = true ↔ ∃ a m, p = .finite a m) := by
  cases p with
  | nan =>
    obtain ⟨c, cs, hword, hc, hminus⟩ := h.notANumber
    exact ⟨c, cs, hword, hminus, by simp [hc]⟩
  | infinite a =>
    obtain ⟨c, cs, hword, hc, hminus⟩ := h.infinity
    exact ⟨c, cs, hword, hminus, by simp [hc]⟩
  | finite a m =>
    obtain ⟨c, cs, hdecimal, hc⟩ := exists_digit_decimal layout m.shortest
    exact ⟨c, cs, hdecimal, ne_minus_of_isDigit hc, by simp [hc]⟩

/-- The text of a double tells its parts. -/
theorem parts_eq_of_text_eq (h : layout.Tells) {x y : Float} (heq : layout.text x = layout.text y) :
    parts x = parts y := by
  obtain ⟨c, cs, hx, hminus, hc⟩ := h.exists_unsigned (parts x)
  obtain ⟨c', cs', hy, hminus', hc'⟩ := h.exists_unsigned (parts y)
  obtain ⟨hsigned, hunsigned⟩ : (parts x).isSigned = (parts y).isSigned ∧
      layout.unsigned (parts x) = layout.unsigned (parts y) := by
    have htext := String.ofList_injective heq
    rw [layout.ofParts_eq, layout.ofParts_eq, hx, hy] at htext
    rw [hx, hy]
    exact sign_append_inj hminus hminus' htext
  -- Both are decimals, or neither is.
  have hfinite : (∃ a m, parts x = .finite a m) ↔ ∃ a m, parts y = .finite a m := by
    obtain ⟨rfl, -⟩ := List.cons.inj (hx.symm.trans (hunsigned.trans hy))
    exact hc.symm.trans hc'
  cases hpx : parts x with
  | finite a m =>
    obtain ⟨b, m', hpy⟩ := hfinite.1 ⟨a, m, hpx⟩
    rw [hpx, hpy] at hsigned hunsigned
    rw [hpy, show a = b from hsigned, Dyadic.eq_of_decimal_eq (canonical_of_parts_eq hpx)
      (canonical_of_parts_eq hpy) h.wholeTail hunsigned]
  | infinite a =>
    cases hpy : parts y with
    | finite b m => obtain ⟨_, _, hp⟩ := hfinite.2 ⟨b, m, hpy⟩; simp [hpx] at hp
    | infinite b => rw [hpx, hpy] at hsigned; rw [show a = b from hsigned]
    | nan => rw [hpx, hpy] at hunsigned; exact absurd (String.toList_inj.1 hunsigned) h.apart
  | nan =>
    cases hpy : parts y with
    | finite b m => obtain ⟨_, _, hp⟩ := hfinite.2 ⟨b, m, hpy⟩; simp [hpx] at hp
    | infinite b =>
      rw [hpx, hpy] at hunsigned
      exact absurd (String.toList_inj.1 hunsigned).symm h.apart
    | nan => rfl

end Lox.Number
