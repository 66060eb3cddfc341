import Std.Data.String.ToInt
import Lox.Operator
import Lox.Proofs.Number.Source
import Lox.Proofs.Number.Text

/-!
# Equal values

The order of doubles takes "not a number" for different from itself, and the zero below zero for the
same as zero.  Equality of values puts both right, by a case on what is not a number and a comparison
of the signs (`Value.Equals`).  What is left is that two doubles are equal just if they are one: they
are unpacked to the same parts, and the parts are all that a double holds (`parts_injective`).  The
text of a value tells it among the values of its type, so equality is what `print` shows wherever it
shows a value (`Value.same_iff_text`).
-/

namespace Lox.Number

open Float.Model Float.Model.UnpackedFloat

variable {x y : Float} {u v : UnpackedFloat}

/-! ## Doubles and their bits -/

/-- There is one double that is not a number. -/
theorem eq_of_parts_eq_nan (hx : parts x = .nan) (hy : parts y = .nan) : x = y := by
  have hbits : ∀ {z : Float}, parts z = .nan → z.toBits.toBitVec = packedNaN .binary64 := by
    intro z hz
    obtain ⟨hexponent, hmantissa⟩ := (unpack_eq_notANumber_iff _).1 (parts_eq_nan_iff.1 hz)
    exact z.toModel.valid.eq_packedNaN hexponent hmantissa
  exact Float.toBits_inj.mp (UInt64.toBitVec_inj.1 ((hbits hx).trans (hbits hy).symm))

/-- The parts of a double tell the double. -/
theorem parts_injective : Function.Injective parts := by
  intro x y h
  by_cases hx : parts x = .nan
  · exact eq_of_parts_eq_nan hx (h ▸ hx)
  · exact eq_of_parts_eq hx h

/-- The parts of an unpacked double. -/
def Parts.ofUnpacked : UnpackedFloat → Parts
  | .notANumber => .nan
  | .infinity s => .infinite (s == .negative)
  | .zero s => .finite (s == .negative) ⟨0, leastExponent⟩
  | .finite s m e _ => .finite (s == .negative) ⟨m, e⟩

theorem ofBitVec_unpackSign (x : Float) :
    (Sign.ofBitVec (@unpackSign .binary64 x.toBits.toBitVec) == .negative) =
      signBit x.toBits.toNat := by
  have hsign : (@unpackSign .binary64 x.toBits.toBitVec).toNat =
      x.toBits.toNat / 2 ^ 63 % 2 := by
    simp [unpackSign, Nat.shiftRight_eq_div_pow]
  have hzero : @unpackSign .binary64 x.toBits.toBitVec = 0#1 ↔ x.toBits.toNat / 2 ^ 63 % 2 = 0 := by
    rw [← BitVec.toNat_inj, hsign]
    simp
  have hbit : x.toBits.toNat / 2 ^ 63 % 2 < 2 := Nat.mod_lt _ (by decide)
  simp only [Sign.ofBitVec, hzero, signBit, Nat.pow_eq]
  generalize x.toBits.toNat / 2 ^ 63 % 2 = b at hbit
  obtain rfl | rfl : b = 0 ∨ b = 1 := by omega
  · rfl
  · rfl

/-- Taking a double apart and unpacking it give the same. -/
theorem parts_eq_ofUnpacked (x : Float) : parts x = .ofUnpacked x.toModel.unpack := by
  have hbits : x.toModel.toBits = x.toBits := rfl
  have hmost : @unpackExponent .binary64 x.toBits.toBitVec = -1#11 ↔
      storedExponent x.toBits.toNat = 2047 := by
    rw [← BitVec.toNat_inj, toNat_unpackExponent]
    rfl
  have hleast : @unpackExponent .binary64 x.toBits.toBitVec = 0#11 ↔
      storedExponent x.toBits.toNat = 0 := by
    rw [← BitVec.toNat_inj, toNat_unpackExponent]
    rfl
  have hfraction : @unpackMantissa .binary64 x.toBits.toBitVec = 0#52 ↔
      fraction x.toBits.toNat = 0 := by
    rw [← BitVec.toNat_inj, toNat_unpackMantissa]
    rfl
  have hsign := ofBitVec_unpackSign x
  have hbias : Format.binary64.exponentBias = 1023 := by decide
  rw [Float.Model.unpack, parts, partsOfBits]
  unfold UnpackedFloat.unpack
  simp only [hbits]
  by_cases h1 : storedExponent x.toBits.toNat = 2047
  · rw [if_pos h1, if_pos (hmost.2 h1)]
    by_cases h2 : fraction x.toBits.toNat = 0
    · rw [if_pos h2, if_pos (hfraction.2 h2), Parts.ofUnpacked, hsign]
    · rw [if_neg h2, if_neg (mt hfraction.1 h2), Parts.ofUnpacked]
  · rw [if_neg h1, if_neg (mt hmost.1 h1)]
    by_cases h2 : storedExponent x.toBits.toNat = 0
    · rw [if_pos (hleast.2 h2), magnitude, h2]
      by_cases h3 : fraction x.toBits.toNat = 0
      · rw [dif_pos (hfraction.2 h3), Parts.ofUnpacked, hsign, h3]
      · rw [dif_neg (mt hfraction.1 h3), Parts.ofUnpacked, hsign, toNat_unpackMantissa,
          toNat_unpackExponent, hbias, h2]
        rfl
    · obtain ⟨e, he⟩ := Nat.exists_eq_succ_of_ne_zero h2
      rw [if_neg (mt hleast.1 h2), Parts.ofUnpacked, hsign, magnitude, he]
      simp only [BitVec.toNat_append, toNat_unpackMantissa, toNat_unpackExponent, hbias, he]
      congr 2
      · have hbelow := fraction_lt x.toBits.toNat
        rw [BitVec.toNat_ofNat, ← Nat.shiftLeft_add_eq_or_of_lt hbelow, Nat.shiftLeft_eq]
        rfl
      · simp only [leastExponent]
        push_cast
        omega

/-! ## The order of doubles -/

/-- The order of doubles takes two for the same if they are one number, or two zeros. -/
theorem compare_eq_some_eq_iff : u.compare v = some .eq ↔
    u ≠ .notANumber ∧ (u = v ∨ ∃ s s', u = .zero s ∧ v = .zero s') := by
  cases u with
  | notANumber => simp [UnpackedFloat.compare]
  | infinity s =>
    cases v with
    | infinity s' => cases s <;> cases s' <;> simp [UnpackedFloat.compare, Ord.compare]
    | _ => cases s <;> simp [UnpackedFloat.compare]
  | zero s =>
    cases v with
    | zero => simp [UnpackedFloat.compare]
    | notANumber => simp [UnpackedFloat.compare]
    | infinity s' | finite s' => cases s' <;> simp [UnpackedFloat.compare]
  | finite s m e =>
    cases v with
    | finite s' m' e' =>
      cases s <;> cases s' <;>
        simp [UnpackedFloat.compare, Ordering.then_eq_eq, and_comm]
    | notANumber => simp [UnpackedFloat.compare]
    | zero => cases s <;> simp [UnpackedFloat.compare]
    | infinity s' => cases s' <;> cases s <;> simp [UnpackedFloat.compare]

theorem beq_iff_compare : (x == y) = true ↔
    x.toModel.unpack.compare y.toModel.unpack = some .eq := by
  show (x.toModel.unpack.compare y.toModel.unpack == some .eq) = true ↔ _
  rw [beq_iff_eq]

theorem isSigned_parts (h : parts x ≠ .nan) : (parts x).isSigned = signBit x.toBits.toNat := by
  unfold parts partsOfBits at h ⊢
  split
  · split
    · rfl
    · simp_all
  · rfl

/-- Two doubles are one if they are equal in the order of doubles, with the same sign. -/
theorem beq_and_signBit_eq_iff :
    (x == y) = true ∧ signBit x.toBits.toNat = signBit y.toBits.toNat ↔
      parts x ≠ .nan ∧ x = y := by
  rw [beq_iff_compare, compare_eq_some_eq_iff, ne_eq, ← parts_eq_nan_iff]
  constructor
  · rintro ⟨⟨hx, h⟩, hsign⟩
    refine ⟨hx, parts_injective ?_⟩
    rcases h with h | ⟨s, s', hzero, hzero'⟩
    · rw [parts_eq_ofUnpacked, h, ← parts_eq_ofUnpacked]
    · have hparts := parts_eq_ofUnpacked x
      have hparts' := parts_eq_ofUnpacked y
      rw [hzero] at hparts
      rw [hzero'] at hparts'
      have hy : parts y ≠ .nan := by simp [hparts', Parts.ofUnpacked]
      rw [← isSigned_parts hx, ← isSigned_parts hy, hparts, hparts'] at hsign
      have hnegative : (s == Sign.negative) = (s' == Sign.negative) := hsign
      rw [hparts, hparts', Parts.ofUnpacked, Parts.ofUnpacked, hnegative]
  · rintro ⟨hx, rfl⟩
    exact ⟨⟨hx, .inl rfl⟩, rfl⟩

theorem isNaN_iff : x.isNaN = true ↔ parts x = .nan := by
  rw [parts_eq_nan_iff]
  show x.toModel.unpack.isNaN = true ↔ _
  cases x.toModel.unpack <;> simp [UnpackedFloat.isNaN]

end Lox.Number

namespace Lox

/-! ## Values -/

/-- The types that values have while a program runs. -/
inductive ValueType
  | nil
  | bool
  | number
  | string
  | integer
deriving DecidableEq, Repr

namespace Value

/-- The type of a value. -/
def type : Value → ValueType
  | nil => .nil
  | bool _ => .bool
  | number _ => .number
  | string _ => .string
  | integer _ => .integer

/-- Values of different types are never equal.  What is not a number equals what is not a number, and
zero does not equal the zero below zero; other numbers are equal in the order of doubles. -/
def Equals : Value → Value → Prop
  | nil, nil => True
  | bool a, bool b => a = b
  | number x, number y =>
    x.isNaN = true ∧ y.isNaN = true ∨
      (x == y) = true ∧ Operator.isNegative x = Operator.isNegative y
  | string s, string t => s = t
  | integer m, integer n => m = n
  | _, _ => False

theorem same_iff_equals (a b : Value) : a.same b = true ↔ a.Equals b := by
  rw [same_iff]
  cases a with
  | number x =>
    cases b with
    | number y =>
      rw [number.injEq, Equals, Number.isNaN_iff, Number.isNaN_iff]
      have h := Number.beq_and_signBit_eq_iff (x := x) (y := y)
      rw [Operator.isNegative, Operator.isNegative, h]
      by_cases hx : Number.parts x = .nan
      · constructor
        · rintro rfl
          exact .inl ⟨hx, hx⟩
        · rintro (⟨-, hy⟩ | ⟨hne, -⟩)
          · exact Number.eq_of_parts_eq_nan hx hy
          · exact absurd hx hne
      · simp [hx]
    | _ => simp [Equals]
  | _ => cases b <;> simp [Equals]

theorem boolText_injective : Function.Injective boolText := by decide

/-- All values but integers of too many digits can be shown. -/
theorem text?_eq_none_iff {v : Value} :
    v.text? = none ↔ ∃ n, v = integer n ∧ Nat.pow 10 digitLimit ≤ n.natAbs := by
  cases v with
  | integer n => simp [text?_integer]
  | _ => simp

theorem toString_of_text?_integer {n : Int} {text : String} (h : (integer n).text? = some text) :
    toString n = text := by
  rw [text?_integer] at h
  split at h
  · exact Option.some.inj h
  · cases h

/-- The text of a value tells it among the values of its type. -/
theorem eq_of_text?_eq {a b : Value} {text : String} (htype : a.type = b.type)
    (ha : a.text? = some text) (hb : b.text? = some text) : a = b := by
  cases a <;> cases b <;> cases htype
  case nil => rfl
  case bool a b => rw [boolText_injective (Option.some.inj (ha.trans hb.symm))]
  case number x y =>
    have htext := Option.some.inj (ha.trans hb.symm)
    rw [Number.parts_injective (Number.parts_eq_of_text_eq Number.Layout.tells_printed htext)]
  case string s t => rw [show s = t from Option.some.inj (ha.trans hb.symm)]
  case integer m n =>
    have htext := (toString_of_text?_integer ha).trans (toString_of_text?_integer hb).symm
    rw [Int.repr_injective htext]

/-- Equality of values is reflexive, symmetric and transitive, and holds as documented.  Equal values
have one type, and `print` shows them alike or shows neither.  A value that it shows equals just the
values of its type that it shows alike; and it shows all values but integers of too many digits. -/
theorem same_iff_text :
    Equivalence (fun a b : Value => a.same b = true) ∧
      (∀ a b : Value, a.same b = true ↔ a.Equals b) ∧
      (∀ a b : Value, a.same b = true → a.type = b.type ∧ a.text? = b.text?) ∧
      (∀ (a b : Value) (text : String), a.text? = some text →
        (a.same b = true ↔ a.type = b.type ∧ b.text? = some text)) ∧
      ∀ v : Value, v.text? = none ↔ ∃ n, v = integer n ∧ Nat.pow 10 digitLimit ≤ n.natAbs := by
  refine ⟨⟨fun a => ?_, fun {a b} h => ?_, fun {a b c} hab hbc => ?_⟩, same_iff_equals,
    fun a b h => ?_, fun a b text ha => ⟨fun h => ?_, fun h => ?_⟩, fun v => text?_eq_none_iff⟩
  · exact same_iff.2 rfl
  · exact same_iff.2 (same_iff.1 h).symm
  · exact same_iff.2 ((same_iff.1 hab).trans (same_iff.1 hbc))
  · obtain rfl := same_iff.1 h
    exact ⟨rfl, rfl⟩
  · obtain rfl := same_iff.1 h
    exact ⟨rfl, ha⟩
  · exact same_iff.2 (eq_of_text?_eq h.1 ha h.2)

/-- The number one and the integer one are shown alike, and they are not equal. -/
theorem same_iff_text_one :
    (number 1).same (number 1) = true ∧ (number 1).text? = (number 1).text? ∧
      (number 1).text? = some "1" ∧ (integer 1).text? = some "1" ∧
      ¬((number 1).same (integer 1) = true) := by
  have hone : (number 1).text? = some "1" := by decide +kernel
  have hsame : (number 1).same (number 1) = true := by decide +kernel
  refine ⟨hsame, (same_iff_text.2.2.1 _ _ hsame).2, hone, by decide +kernel, fun h => ?_⟩
  cases ((same_iff_text.2.2.2.1 (number 1) (integer 1) "1" hone).1 h).1

/-- An integer of too many digits equals itself and is not shown, and it differs from the next one,
which is not shown either. -/
theorem same_and_text?_of_le {n : Nat} (h : Nat.pow 10 digitLimit ≤ n) :
    ¬((integer n).same (integer n) = true ↔
        (integer n).type = (integer n).type ∧ ∃ text, (integer n).text? = some text) ∧
      ¬((integer n).same (integer (n + 1)) = true ↔
        (integer n).type = (integer (n + 1)).type ∧
          (integer n).text? = (integer (n + 1)).text?) := by
  have hn : (integer n).text? = none := text?_eq_none_iff.2 ⟨n, rfl, h⟩
  have hsucc : (integer (n + 1)).text? = none :=
    text?_eq_none_iff.2 ⟨n + 1, rfl, Nat.le_trans h (Nat.le_add_right n 1)⟩
  rw [same_iff, same_iff, hn, hsucc]
  simp [type]

/-- An integer of one digit too many. -/
theorem same_iff_text_fails_of_long :
    let a := integer ((Nat.pow 10 digitLimit : Nat) : Int)
    let b := integer ((Nat.pow 10 digitLimit : Nat) + 1 : Int)
    digitLimit = 4300 ∧
      ¬(a.same a = true ↔ a.type = a.type ∧ ∃ text, a.text? = some text) ∧
      ¬(a.same b = true ↔ a.type = b.type ∧ a.text? = b.text?) :=
  ⟨rfl, same_and_text?_of_le (Nat.le_refl _)⟩

/-- In the order of doubles it is the other way round. -/
example : ((number (0 / 0)).same (number (0 / 0)) = true ∧ ((0 / 0 : Float) == 0 / 0) = false) ∧
    (number 0).same (number (-0)) = false ∧ ((0 : Float) == -0) = true := by decide +kernel

end Value

end Lox
