import Lox.Number.Double

/-!
# The shortest decimal that reads back

Each double stands for the interval of numbers that round to it, and a decimal reads back as the
double when it lies in that interval.  `Dyadic.shortest` gives the decimal with the fewest digits
that reads back, and of those the one nearest to the double; of two equally near ones it takes
the even.

The search goes from coarse grids of powers of ten to fine ones.  If any point of a grid lies in
the interval, one of the two neighbours of the double on that grid does, so only those two are
tried.  The first grid with a hit gives the fewest digits.
-/

namespace Lox.Number

/-- The number `digits · 10 ^ exponent`. -/
structure Decimal where
  digits : Nat
  exponent : Int
deriving DecidableEq, Repr

namespace Dyadic

/-! ## Comparing with a decimal

`n · 10 ^ k` and `c · 2 ^ q` are compared as the whole numbers `tens k q n` and `twos k q c`: both
are multiplied with the same powers of ten and two, which clears the negative exponents. -/

/-- The number `n · 10 ^ k`, brought to whole numbers. -/
def tens (k q : Int) (n : Nat) : Nat := n * Nat.pow 10 k.toNat * Nat.pow 2 (-q).toNat

/-- The number `c · 2 ^ q`, brought to the same whole numbers. -/
def twos (k q : Int) (c : Nat) : Nat := c * Nat.pow 2 q.toNat * Nat.pow 10 (-k).toNat

/-- The lower end of the interval, in quarters of a unit.  Just above a power of two the
neighbour below is only half a unit away. -/
def lowerEnd (x : Dyadic) : Nat :=
  if x.significand = binade ∧ leastExponent < x.exponent then 4 * x.significand - 1
  else 4 * x.significand - 2

/-- The upper end of the interval, in quarters of a unit. -/
def upperEnd (x : Dyadic) : Nat := 4 * x.significand + 2

/-- The decimal lies in the interval of numbers that round to the double.  A number halfway to a
neighbour rounds to the even significand, so the ends belong to the even double. -/
def ReadsBack (x : Dyadic) (d : Decimal) : Prop :=
  let decimal := tens d.exponent x.exponent (4 * d.digits)
  let least := twos d.exponent x.exponent x.lowerEnd
  let most := twos d.exponent x.exponent x.upperEnd
  if x.significand % 2 = 0 then least ≤ decimal ∧ decimal ≤ most
  else least < decimal ∧ decimal < most

instance (x : Dyadic) (d : Decimal) : Decidable (x.ReadsBack d) := by
  unfold ReadsBack
  infer_instance

/-! ## The search -/

/-- The point at or below the double on the grid of multiples of `10 ^ k`, in grid steps. -/
def below (x : Dyadic) (k : Int) : Nat :=
  twos k x.exponent x.significand / tens k x.exponent 1

/-- Is the point `n` nearer to the double than the point `n + 1`?  Halfway the even one is. -/
def nearerBelow (x : Dyadic) (k : Int) (n : Nat) : Bool :=
  let twice := 2 * twos k x.exponent x.significand
  let middle := tens k x.exponent (2 * n + 1)
  twice < middle || (twice = middle && n % 2 = 0)

/-- The decimal on the grid of multiples of `10 ^ k` that reads back, the nearer one if both
neighbours do. -/
def onGrid? (x : Dyadic) (k : Int) : Option Decimal :=
  let n := x.below k
  let low : Decimal := ⟨n, k⟩
  let high : Decimal := ⟨n + 1, k⟩
  if x.ReadsBack low then
    if x.ReadsBack high ∧ ¬ x.nearerBelow k n then some high else some low
  else if x.ReadsBack high then some high
  else none

/-- All digits of the double: a multiple of a power of two is a multiple of that power of ten. -/
def allDigits (x : Dyadic) : Decimal :=
  if 0 ≤ x.exponent then ⟨x.significand * Nat.pow 2 x.exponent.toNat, 0⟩
  else ⟨x.significand * Nat.pow 5 (-x.exponent).toNat, x.exponent⟩

/-- The first hit among `tries` grids, from the grid of `10 ^ k` downward. -/
def searchFrom (x : Dyadic) : Nat → Int → Decimal
  | 0, _ => x.allDigits
  | tries + 1, k => (x.onGrid? k).getD (x.searchFrom tries (k - 1))

/-- The exponent of a power of ten that is as large as the double, at most a hundred times as large.
The length of the significand in bits and `log 2 ≈ 0.30103` give it. -/
def leadingExponent (x : Dyadic) : Int :=
  (x.significand.log2 + x.exponent + 1) * 30103 / 100000 + 1

/-- The decimal with the fewest digits that reads back.  Seventeen digits always do, so twenty grids
are enough. -/
def shortest (x : Dyadic) : Decimal :=
  if x.significand = 0 then ⟨0, 0⟩ else x.searchFrom 20 x.leadingExponent

@[simp] theorem shortest_zero (q : Int) : shortest ⟨0, q⟩ = ⟨0, 0⟩ := by
  simp [shortest]

theorem readsBack_of_onGrid?_eq_some {x : Dyadic} {k : Int} {d : Decimal}
    (h : x.onGrid? k = some d) : x.ReadsBack d := by
  simp only [onGrid?] at h
  split at h
  · split at h <;> simp_all
  · split at h <;> simp_all

end Dyadic

end Lox.Number
