import Lox.Number.Decimal
import Mathlib.Algebra.Order.Field.Power
import Mathlib.Algebra.Order.Field.Rat
import Mathlib.Tactic.Linarith
import Mathlib.Tactic.LinearCombination
import Mathlib.Tactic.Positivity
import Mathlib.Tactic.Ring
import Mathlib.Tactic.NormNum

/-!
# The shortest decimal reads back, as one double only

As fractions, the ends of the interval of a double and a decimal are compared without any scaling
(`readsBack_iff`).  The shortest decimal lies in the interval (`readsBack_shortest`), and the
intervals of two doubles have no point in common (`eq_of_readsBack`): where two of them touch, one of
the two significands is odd, and the ends are not its own.  So the value of the shortest decimal tells
the double.
-/

namespace Lox.Number

/-- The number that the decimal stands for. -/
def Decimal.value (d : Decimal) : ℚ := d.digits * 10 ^ d.exponent

namespace Dyadic

variable {x y : Dyadic} {d d' : Decimal}

/-! ## Comparing as fractions -/

/-- The number that the magnitude stands for. -/
def value (x : Dyadic) : ℚ := x.significand * 2 ^ x.exponent

theorem pow_toNat {b : ℚ} (hb : b ≠ 0) (k : ℤ) : b ^ k.toNat = b ^ k * b ^ (-k).toNat := by
  have hk : (k.toNat : ℤ) = k + (-k).toNat := by omega
  rw [← zpow_natCast, hk, zpow_add₀ hb, zpow_natCast]

/-- What clears the negative exponents. -/
def scale (k q : ℤ) : ℚ := 10 ^ (-k).toNat * 2 ^ (-q).toNat

theorem scale_pos (k q : ℤ) : 0 < scale k q := by unfold scale; positivity

theorem cast_tens (k q : ℤ) (n : ℕ) : (tens k q n : ℚ) = n * 10 ^ k * scale k q := by
  have h := pow_toNat (b := 10) (by norm_num) k
  simp only [tens, scale, Nat.pow_eq, Nat.cast_mul, Nat.cast_pow, Nat.cast_ofNat, h]
  ring

theorem cast_twos (k q : ℤ) (c : ℕ) : (twos k q c : ℚ) = c * 2 ^ q * scale k q := by
  have h := pow_toNat (b := 2) (by norm_num) q
  simp only [twos, scale, Nat.pow_eq, Nat.cast_mul, Nat.cast_pow, Nat.cast_ofNat, h]
  ring

theorem twos_le_tens_iff (k q : ℤ) (c n : ℕ) :
    twos k q c ≤ tens k q n ↔ (c : ℚ) * 2 ^ q ≤ n * 10 ^ k := by
  rw [← Nat.cast_le (α := ℚ), cast_tens, cast_twos]
  exact mul_le_mul_iff_left₀ (scale_pos k q)

theorem tens_le_twos_iff (k q : ℤ) (c n : ℕ) :
    tens k q n ≤ twos k q c ↔ (n : ℚ) * 10 ^ k ≤ c * 2 ^ q := by
  rw [← Nat.cast_le (α := ℚ), cast_tens, cast_twos]
  exact mul_le_mul_iff_left₀ (scale_pos k q)

/-- The decimal lies between the ends, or at one of them if the significand is even. -/
theorem readsBack_iff : x.ReadsBack d ↔
    if x.significand % 2 = 0 then
      (x.lowerEnd : ℚ) * 2 ^ x.exponent ≤ 4 * d.value ∧ 4 * d.value ≤ x.upperEnd * 2 ^ x.exponent
    else (x.lowerEnd : ℚ) * 2 ^ x.exponent < 4 * d.value ∧
      4 * d.value < x.upperEnd * 2 ^ x.exponent := by
  have hvalue : ((4 * d.digits : ℕ) : ℚ) * 10 ^ d.exponent = 4 * d.value := by
    rw [Decimal.value, Nat.cast_mul, Nat.cast_ofNat, mul_assoc]
  simp only [ReadsBack, ← not_le, twos_le_tens_iff, tens_le_twos_iff, hvalue]

/-! ## The shortest decimal reads back -/

/-- What has the double's own value lies in its interval. -/
theorem readsBack_of_value_eq (h : d.value = x.value) : x.ReadsBack d := by
  have hscaled : 4 * d.value = (4 * x.significand : ℕ) * 2 ^ x.exponent := by
    rw [h, value]
    push_cast
    ring
  have hpos : (0 : ℚ) < 2 ^ x.exponent := by positivity
  rw [readsBack_iff, hscaled]
  split
  · simp only [mul_le_mul_iff_left₀ hpos, Nat.cast_le, lowerEnd, upperEnd]
    grind
  · simp only [mul_lt_mul_iff_left₀ hpos, Nat.cast_lt, lowerEnd, upperEnd]
    grind

theorem value_allDigits (x : Dyadic) : x.allDigits.value = x.value := by
  have htwo := pow_toNat (b := 2) (by norm_num) x.exponent
  unfold allDigits
  split
  case isTrue h =>
    have hzero : (-x.exponent).toNat = 0 := by omega
    simp [Decimal.value, value, htwo, hzero]
  case isFalse h =>
    have hfive := pow_toNat (b := 5) (by norm_num) (-x.exponent)
    have hzero : (- -x.exponent).toNat = 0 := by omega
    have hten : (10 : ℚ) ^ x.exponent = 5 ^ x.exponent * 2 ^ x.exponent := by
      rw [← mul_zpow]
      norm_num
    have hcancel : (5 : ℚ) ^ (-x.exponent) * 5 ^ x.exponent = 1 := by
      rw [← zpow_add₀ (by norm_num)]
      simp
    rw [hzero, pow_zero, mul_one] at hfive
    simp only [Decimal.value, value, Nat.pow_eq, Nat.cast_mul, Nat.cast_pow, Nat.cast_ofNat, hfive,
      hten]
    linear_combination (x.significand * 2 ^ x.exponent : ℚ) * hcancel

/-- The search gives a decimal that reads back, on whichever grid it ends. -/
theorem readsBack_searchFrom (x : Dyadic) (tries : ℕ) (k : ℤ) :
    x.ReadsBack (x.searchFrom tries k) := by
  induction tries generalizing k with
  | zero => exact readsBack_of_value_eq x.value_allDigits
  | succ tries ih =>
    cases h : x.onGrid? k with
    | none => simpa [searchFrom, h] using ih (k - 1)
    | some d => simpa [searchFrom, h] using readsBack_of_onGrid?_eq_some h

theorem readsBack_shortest (x : Dyadic) : x.ReadsBack x.shortest := by
  unfold shortest
  split
  case isTrue h => exact readsBack_of_value_eq (by simp [Decimal.value, value, h])
  case isFalse => exact x.readsBack_searchFrom _ _

/-! ## The intervals lie in order -/

/-- A magnitude as doubles have it: below the least exponent there is nothing, and above it the
significand has its leading one. -/
structure Canonical (x : Dyadic) : Prop where
  least : leastExponent ≤ x.exponent
  below : x.significand < 2 * binade
  leading : leastExponent < x.exponent → binade ≤ x.significand

theorem canonical_magnitude (bits : ℕ) : (magnitude bits).Canonical := by
  have hfraction : fraction bits < binade := Nat.mod_lt _ (by decide +kernel)
  unfold magnitude
  split
  · exact ⟨le_refl _, by show fraction bits < _; omega, fun h => absurd h (lt_irrefl _)⟩
  · exact ⟨by simp, by show binade + fraction bits < _; omega, fun _ => Nat.le_add_right _ _⟩

/-- The first magnitude comes before the second, by their exponents and then by their significands. -/
def Before (x y : Dyadic) : Prop :=
  x.exponent < y.exponent ∨ x.exponent = y.exponent ∧ x.significand < y.significand

/-- The interval of the one ends where that of the other begins, or before.  Where they touch, only
one of the significands is even. -/
theorem Before.ends (h : x.Before y) (hx : x.Canonical) (hy : y.Canonical) :
    (x.upperEnd : ℚ) * 2 ^ x.exponent ≤ y.lowerEnd * 2 ^ y.exponent ∧
      (x.significand % 2 = 0 → y.significand % 2 = 0 →
        (x.upperEnd : ℚ) * 2 ^ x.exponent < y.lowerEnd * 2 ^ y.exponent) := by
  obtain ⟨k, hk⟩ : ∃ k : ℕ, y.exponent = x.exponent + k :=
    ⟨(y.exponent - x.exponent).toNat, by unfold Before at h; omega⟩
  have hpos : (0 : ℚ) < 2 ^ x.exponent := by positivity
  have hscale : (y.lowerEnd : ℚ) * 2 ^ y.exponent
      = (y.lowerEnd * 2 ^ k : ℕ) * 2 ^ x.exponent := by
    rw [hk, zpow_add₀ (by norm_num), zpow_natCast]
    push_cast
    ring
  rw [hscale, mul_le_mul_iff_left₀ hpos, mul_lt_mul_iff_left₀ hpos, Nat.cast_le, Nat.cast_lt]
  have hbelow := hx.below
  have hodd : binade % 2 = 0 := by decide +kernel
  rcases h with hexponent | ⟨hexponent, hsignificand⟩
  · -- The other is at least a power of two, so a unit there is worth two here.
    have hleast : leastExponent < y.exponent := lt_of_le_of_lt hx.least hexponent
    have hleading := hy.leading hleast
    have htwice : 2 * y.lowerEnd ≤ y.lowerEnd * 2 ^ k := by
      obtain ⟨j, rfl⟩ : ∃ j, k = j + 1 := ⟨k - 1, by omega⟩
      have := Nat.one_le_two_pow (n := j)
      rw [pow_succ]
      nlinarith
    have hlower : 4 * binade - 1 ≤ y.lowerEnd := by unfold lowerEnd; split <;> omega
    simp only [upperEnd]
    omega
  · obtain rfl : k = 0 := by omega
    have hlower : y.lowerEnd = 4 * y.significand - 2 := by
      have := hx.leading
      unfold lowerEnd
      rw [if_neg (by omega)]
    simp only [upperEnd, hlower, pow_zero, mul_one]
    omega

/-- What reads back as a magnitude is less than what reads back as a later one. -/
theorem Before.value_lt (h : x.Before y) (hx : x.Canonical) (hy : y.Canonical)
    (hd : x.ReadsBack d) (hd' : y.ReadsBack d') : d.value < d'.value := by
  obtain ⟨hends, heven⟩ := h.ends hx hy
  rw [readsBack_iff] at hd hd'
  split at hd <;> split at hd'
  case isTrue.isTrue hxe hye => linarith [heven hxe hye, hd.2, hd'.1]
  all_goals linarith [hd.2, hd'.1]

/-- One number reads back as one double only. -/
theorem eq_of_readsBack (hx : x.Canonical) (hy : y.Canonical) (hd : x.ReadsBack d)
    (hd' : y.ReadsBack d') (h : d.value = d'.value) : x = y := by
  by_contra hne
  have hsome : x.Before y ∨ y.Before x := by
    have : x.exponent = y.exponent → x.significand ≠ y.significand := fun he hs =>
      hne (by cases x; cases y; simp_all)
    unfold Before
    omega
  rcases hsome with hbefore | hbefore
  · exact absurd h (hbefore.value_lt hx hy hd hd').ne
  · exact absurd h (hbefore.value_lt hy hx hd' hd).ne'

/-- The value of the shortest decimal tells the double. -/
theorem eq_of_value_shortest_eq (hx : x.Canonical) (hy : y.Canonical)
    (h : x.shortest.value = y.shortest.value) : x = y :=
  eq_of_readsBack hx hy x.readsBack_shortest y.readsBack_shortest h

end Dyadic

end Lox.Number
