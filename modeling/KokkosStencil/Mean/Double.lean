import KokkosStencil.Machine.FloatFormat
import KokkosStencil.Mean.FivePoint
import Mathlib.Tactic.NormNum

/-!
# Means computed in `double`

The kernels compute `(pixel + left + right + up + down) * 0.2` in `double` and convert the product
to `uint8_t`.  The literal is not one fifth, and the product is rounded.

* `meanDouble_eq` : the byte is the truncated mean all the same, for all five bytes.  The literal is
  a little more than one fifth, so a quotient that is an integer is not missed from below.
-/

namespace KokkosStencil

/-- The conversion of a `double` to `uint8_t`.  What it gives for a number that has no place in
`uint8_t` is unknown. -/
def toUInt8 (wild : ℚ → UInt8) (x : ℚ) : UInt8 :=
  if -1 < x ∧ x < 256 then UInt8.ofNat ⌊x⌋₊ else wild x

theorem toUInt8_eq (wild : ℚ → UInt8) {x : ℚ} {n : ℕ} (hn : n < 256) (hle : n ≤ x)
    (hlt : x < n + 1) : toUInt8 wild x = UInt8.ofNat n := by
  have hn₀ : (0 : ℚ) ≤ n := Nat.cast_nonneg n
  have hn₁ : (n : ℚ) + 1 ≤ 256 := by exact_mod_cast hn
  have hfloor : ⌊x⌋₊ = n := (Nat.floor_eq_iff (hn₀.trans hle)).2 ⟨hle, hlt⟩
  rw [toUInt8, if_pos ⟨by linarith, by linarith⟩, hfloor]

/-- Integers up to `2 ^ 53` are `double`s. -/
theorem representable_natCast {n : ℕ} (h : n < 2 ^ 53) : binary64.Representable n := by
  refine FloatFormat.representable_intCast (n := n) ?_ (by decide)
  rw [abs_of_nonneg (Int.natCast_nonneg n)]
  exact_mod_cast h

theorem round_natCast {n : ℕ} (h : n < 2 ^ 53) : binary64.round n = n :=
  FloatFormat.round_of_representable (representable_natCast h)

/-- The literal `0.2` -/
def literal02 : ℚ := binary64.round (2 / 10)

theorem literal02_eq : literal02 = 7205759403792794 / 2 ^ 55 := by
  rw [literal02, FloatFormat.round_eq (k := -3) (by norm_num [abs_of_pos])
    (by norm_num [abs_of_pos]) (by decide)]
  norm_num [nearestEven, binary64]

/-- The byte that the kernels compute from five bytes.  Their sum is an `int`. -/
def meanDouble (wild : ℚ → UInt8) (pixel left right up down : UInt8) : UInt8 :=
  let sum := pixel.toNat + left.toNat + right.toNat + up.toNat + down.toNat
  toUInt8 wild (binary64.round (binary64.round sum * literal02))

/-- Times `0.2`, and rounded, a sum stays between its quotient by five and the next integer. -/
theorem round_mul_literal02 {n : ℕ} (hn : n < 1280) :
    ((n / 5 : ℕ) : ℚ) ≤ binary64.round (n * literal02) ∧
      binary64.round (n * literal02) < (n / 5 : ℕ) + 1 := by
  have hdiv : 5 * (n / 5) ≤ n ∧ n ≤ 5 * (n / 5) + 4 := by omega
  have hq : n / 5 < 256 := by omega
  generalize n / 5 = q at hdiv hq
  have hlower : (5 : ℚ) * q ≤ n := by exact_mod_cast hdiv.1
  have hupper : (n : ℚ) ≤ 5 * q + 4 := by exact_mod_cast hdiv.2
  have hq' : (q : ℚ) < 256 := by exact_mod_cast hq
  constructor
  · refine (representable_natCast (by omega)).le_round ?_
    rw [literal02_eq]
    linarith
  · have hrep : binary64.Representable (q + 7 / 8) := by
      refine ⟨8 * q + 7, -3, ?_, by decide, by push_cast; ring⟩
      rw [abs_of_nonneg (by omega)]
      simp only [binary64]
      omega
    have hle : (n : ℚ) * literal02 ≤ q + 7 / 8 := by
      rw [literal02_eq]
      linarith
    have := hrep.round_le hle
    linarith

/-- **The kernels compute truncated means**: rounding errors never show. -/
theorem meanDouble_eq (wild : ℚ → UInt8) (pixel left right up down : UInt8) :
    meanDouble wild pixel left right up down = mean5 pixel left right up down := by
  have hsum : pixel.toNat + left.toNat + right.toNat + up.toNat + down.toNat < 1280 := by
    have := pixel.toNat_lt
    have := left.toNat_lt
    have := right.toNat_lt
    have := up.toNat_lt
    have := down.toNat_lt
    omega
  unfold meanDouble mean5
  generalize pixel.toNat + left.toNat + right.toNat + up.toNat + down.toNat = n at hsum
  dsimp only
  rw [round_natCast (by omega)]
  obtain ⟨hle, hlt⟩ := round_mul_literal02 hsum
  exact toUInt8_eq wild (by omega) hle hlt

end KokkosStencil
