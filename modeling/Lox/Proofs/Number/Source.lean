import Mathlib
import Lox.Number.Double
import Lox.Number.Reading

/-!
# A number in the source is a number

Doubles are defined by unpacking them, computing with the unpacked parts, and packing the rounded
result.  Rounding and packing make no "not a number" (`unpack_pack_ne_notANumber`), and neither does
a product or a quotient with a finite number that is not zero.  Digits in the source are read with
such steps only, so what they stand for is a number or infinite (`parts_ofSource_ne_nan`).
-/

namespace Lox.Number

open Float.Model Float.Model.UnpackedFloat

variable {spec : Format} {f g : UnpackedFloat} {x y : Float}

/-! ## Unpacked numbers -/

/-- Finite and not zero. -/
def isProper : UnpackedFloat → Bool
  | .finite .. => true
  | _ => false

theorem roundWithAccuracy_ne_notANumber (spec : Format) (s : Sign) (m : Nat) (e : Int)
    (a : Accuracy) : roundWithAccuracy spec s m e a ≠ .notANumber := by
  simp only [roundWithAccuracy]
  split <;> simp

theorem mul_ne_notANumber (hf : f ≠ .notANumber) (hg : isProper g = true) :
    UnpackedFloat.mul spec f g ≠ .notANumber := by
  cases g with
  | finite =>
    cases f with
    | notANumber => exact absurd rfl hf
    | infinity | zero => simp [UnpackedFloat.mul]
    | finite => exact roundWithAccuracy_ne_notANumber _ _ _ _ _
  | _ => simp [isProper] at hg

theorem div_ne_notANumber (hf : f ≠ .notANumber) (hg : isProper g = true) :
    UnpackedFloat.div spec f g ≠ .notANumber := by
  cases g with
  | finite =>
    cases f with
    | notANumber => exact absurd rfl hf
    | infinity | zero => simp [UnpackedFloat.div]
    | finite => exact roundWithAccuracy_ne_notANumber _ _ _ _ _
  | _ => simp [isProper] at hg

theorem ofScientific_ne_notANumber (spec : Format) (m : Nat) (e : Int) :
    UnpackedFloat.ofScientific spec m e ≠ .notANumber := by
  unfold UnpackedFloat.ofScientific
  split
  · simp
  · split
    · simp
    · split
      · simp
      · split
        · exact mul_ne_notANumber (by simp) rfl
        · exact div_ne_notANumber (by simp) rfl

theorem ofUInt64_ne_notANumber (spec : Format) (n : UInt64) :
    UnpackedFloat.ofUInt64 spec n ≠ .notANumber := by
  simp only [UnpackedFloat.ofUInt64, UnpackedFloat.ofNat, UnpackedFloat.ofInt,
    UnpackedFloat.normalize]
  split
  · exact roundWithAccuracy_ne_notANumber _ _ _ _ _
  · simp
  · exact roundWithAccuracy_ne_notANumber _ _ _ _ _

/-! ## Packed numbers -/

/-- The bits of infinity and of what is not a number: all bits of the exponent are set. -/
theorem unpack_eq_notANumber_iff (b : BitVec Format.binary64.numBits) :
    UnpackedFloat.unpack .binary64 b = .notANumber ↔
      unpackExponent b = -1#11 ∧ unpackMantissa b ≠ 0#52 := by
  simp only [UnpackedFloat.unpack]
  split
  · split <;> simp_all
  · split
    · split <;> simp_all
    · simp_all

theorem unpack_pack_ne_notANumber (hf : f ≠ .notANumber) :
    (Float.Model.pack f).unpack ≠ .notANumber := by
  rw [Float.Model.unpack, ne_eq, unpack_eq_notANumber_iff, Float.Model.pack]
  rintro ⟨hexponent, hmantissa⟩
  refine hmantissa ?_
  cases f with
  | notANumber => exact absurd rfl hf
  | infinity | zero => exact unpackMantissa_packComponents
  | finite s m e =>
    simp only [UnpackedFloat.pack] at hexponent ⊢
    split at hexponent
    case isTrue hlarge =>
      rw [if_pos hlarge]
      exact unpackMantissa_packComponents
    case isFalse hsmall =>
      split at hexponent <;> rw [unpackExponent_packComponents] at hexponent
      · have := congrArg BitVec.toNat hexponent
        simp at this
        omega
      · exact absurd hexponent (by decide)

theorem toNat_unpackExponent (x : Float) :
    (@unpackExponent .binary64 x.toBits.toBitVec).toNat = storedExponent x.toBits.toNat := by
  simp [unpackExponent, storedExponent, binade, Nat.shiftRight_eq_div_pow]

theorem toNat_unpackMantissa (x : Float) :
    (@unpackMantissa .binary64 x.toBits.toBitVec).toNat = fraction x.toBits.toNat := by
  simp [unpackMantissa, fraction, binade]

/-- The parts of a double agree with what its bits unpack to. -/
theorem parts_eq_nan_iff : parts x = .nan ↔ x.toModel.unpack = .notANumber := by
  have hbits : x.toModel.toBits = x.toBits := rfl
  rw [Float.Model.unpack, unpack_eq_notANumber_iff, ne_eq, ← BitVec.toNat_inj, ← BitVec.toNat_inj,
    hbits, toNat_unpackExponent, toNat_unpackMantissa, parts, partsOfBits]
  have hmost : (-1#11 : BitVec 11).toNat = 2047 := by decide
  have hzero : (0#52 : BitVec 52).toNat = 0 := by decide
  rw [hmost, hzero]
  split
  · split <;> simp_all
  · simp_all

theorem parts_ofModel_pack_ne_nan (hf : f ≠ .notANumber) : parts ⟨pack f⟩ ≠ .nan :=
  fun h => unpack_pack_ne_notANumber hf (parts_eq_nan_iff.mp h)

/-- The powers of ten up to `10 ^ 22` are doubles. -/
theorem isProper_powersOfTen :
    ∀ e : Fin 23, isProper Float.exactlyRepresentablePowersOfTen[e].toModel.unpack = true := by
  decide +kernel

theorem parts_ofScientific_ne_nan (m : Nat) (negative : Bool) (e : Nat) :
    parts (Float.ofScientific m negative e) ≠ .nan := by
  unfold Float.ofScientific
  split
  case isTrue h =>
    have hnumber : m.toUInt64.toFloat.toModel.unpack ≠ .notANumber :=
      unpack_pack_ne_notANumber (ofUInt64_ne_notANumber _ _)
    have hten := isProper_powersOfTen ⟨e, by omega⟩
    split
    · exact parts_ofModel_pack_ne_nan (div_ne_notANumber hnumber hten)
    · exact parts_ofModel_pack_ne_nan (mul_ne_notANumber hnumber hten)
  case isFalse => exact parts_ofModel_pack_ne_nan (ofScientific_ne_notANumber _ _ _)

/-- What digits in the source stand for is a number, or infinite. -/
theorem parts_ofSource_ne_nan (cs : List Char) : parts (ofSource cs) ≠ .nan :=
  parts_ofScientific_ne_nan _ _ _

end Lox.Number
