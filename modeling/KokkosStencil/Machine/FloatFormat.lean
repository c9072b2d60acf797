import Mathlib.Algebra.Order.Round
import Mathlib.Data.Int.Log
import Mathlib.Data.Rat.Floor
import Mathlib.Tactic.FieldSimp
import Mathlib.Tactic.Linarith
import Mathlib.Tactic.Positivity

/-!
# Rounding to a binary floating-point format

A format has the numbers `m * 2 ^ e` whose significand `m` has at most `prec` bits and whose
exponent `e` is at least `emin`; there is no largest number.  `FloatFormat.round` rounds to the
nearest of them, ties to the even significand.

* `representable_round`, `round_of_representable` : the result is a number of the format, and the
  numbers of the format are not changed;
* `le_round`, `round_le` : a number is not rounded across a number of the format;
* `round_mono` : rounding is monotone;
* `abs_round_sub_le` : the error is at most half a unit in the last place.
-/

namespace KokkosStencil

/-- The nearest integer; the even one if there are two. -/
def nearestEven (q : ℚ) : ℤ :=
  let f := ⌊q⌋
  if q - f < 1 / 2 then f
  else if 1 / 2 < q - f then f + 1
  else if f % 2 = 0 then f
  else f + 1

theorem floor_le_nearestEven (q : ℚ) : ⌊q⌋ ≤ nearestEven q := by
  unfold nearestEven
  dsimp only
  split_ifs <;> omega

theorem nearestEven_le_floor_succ (q : ℚ) : nearestEven q ≤ ⌊q⌋ + 1 := by
  unfold nearestEven
  dsimp only
  split_ifs <;> omega

@[simp] theorem nearestEven_intCast (n : ℤ) : nearestEven n = n := by
  simp [nearestEven]

theorem nearestEven_mono {q r : ℚ} (h : q ≤ r) : nearestEven q ≤ nearestEven r := by
  rcases (Int.floor_le_floor h).lt_or_eq with hlt | heq
  · calc nearestEven q ≤ ⌊q⌋ + 1 := nearestEven_le_floor_succ q
      _ ≤ ⌊r⌋ := hlt
      _ ≤ nearestEven r := floor_le_nearestEven r
  · -- the fractions decide
    have hfract : q - ⌊q⌋ ≤ r - ⌊q⌋ := sub_le_sub_right h _
    unfold nearestEven
    dsimp only
    rw [← heq]
    generalize q - ⌊q⌋ = x at hfract
    generalize r - ⌊q⌋ = y at hfract
    split_ifs <;> first | omega | (exfalso; linarith)

/-- An integer is not rounded across. -/
theorem le_nearestEven {n : ℤ} {q : ℚ} (h : n ≤ q) : n ≤ nearestEven q := by
  rw [← nearestEven_intCast n]
  exact nearestEven_mono h

theorem nearestEven_le {n : ℤ} {q : ℚ} (h : q ≤ n) : nearestEven q ≤ n := by
  rw [← nearestEven_intCast n]
  exact nearestEven_mono h

theorem abs_nearestEven_sub_le (q : ℚ) : |nearestEven q - q| ≤ 1 / 2 := by
  have hle := Int.floor_le q
  have hlt := Int.lt_floor_add_one q
  rw [abs_le]
  unfold nearestEven
  dsimp only
  split_ifs <;> push_cast <;> constructor <;> linarith

theorem nearestEven_neg (q : ℚ) : nearestEven (-q) = -nearestEven q := by
  have hle := Int.floor_le q
  have hlt := Int.lt_floor_add_one q
  rcases hle.eq_or_lt with heq | hne
  · rw [← heq, ← Int.cast_neg, nearestEven_intCast, nearestEven_intCast]
  · have hfloor : ⌊-q⌋ = -⌊q⌋ - 1 := by
      rw [Int.floor_eq_iff]
      push_cast
      constructor <;> linarith
    have hfract : -q - ((-⌊q⌋ - 1 : ℤ) : ℚ) = 1 - (q - ⌊q⌋) := by push_cast; ring
    unfold nearestEven
    dsimp only
    rw [hfloor, hfract]
    generalize q - ⌊q⌋ = x
    split_ifs <;> first | omega | (exfalso; linarith)

/-- A binary format. -/
structure FloatFormat where
  /-- The number of bits of a significand. -/
  prec : ℕ
  /-- The exponent of the smallest positive number. -/
  emin : ℤ
  prec_pos : 0 < prec

/-- IEEE 754 `binary64`, the `double` of C. -/
def binary64 : FloatFormat := ⟨53, -1074, by decide⟩

namespace FloatFormat

variable (F : FloatFormat)

/-- The exponent of the last place of the numbers near `x`. -/
def ulpExponent (x : ℚ) : ℤ := max (Int.log 2 |x| + 1 - F.prec) F.emin

/-- The nearest number of the format. -/
def round (x : ℚ) : ℚ := nearestEven (x / 2 ^ F.ulpExponent x) * 2 ^ F.ulpExponent x

/-- The numbers of the format. -/
def Representable (x : ℚ) : Prop :=
  ∃ m e : ℤ, |m| < 2 ^ F.prec ∧ F.emin ≤ e ∧ x = m * 2 ^ e

variable {F}

theorem two_zpow_pos (e : ℤ) : (0 : ℚ) < 2 ^ e := zpow_pos two_pos e

theorem representable_zpow {e : ℤ} (he : F.emin ≤ e) : F.Representable (2 ^ e) := by
  refine ⟨1, e, ?_, he, by simp⟩
  rw [abs_one]
  exact one_lt_pow₀ one_lt_two F.prec_pos.ne'

theorem representable_zero : F.Representable 0 :=
  ⟨0, F.emin, by simp, le_rfl, by simp⟩

theorem Representable.neg {x : ℚ} (h : F.Representable x) : F.Representable (-x) := by
  obtain ⟨m, e, hm, he, rfl⟩ := h
  exact ⟨-m, e, by rwa [abs_neg], he, by push_cast; ring⟩

/-- Integers of few bits. -/
theorem representable_intCast {n : ℤ} (h : |n| < 2 ^ F.prec) (hemin : F.emin ≤ 0) :
    F.Representable n := ⟨n, 0, h, hemin, by simp⟩

theorem lt_zpow_ulpExponent (x : ℚ) : |x| < 2 ^ (F.ulpExponent x + F.prec) := by
  have hlog := Int.lt_zpow_succ_log_self one_lt_two |x|
  refine hlog.trans_le (zpow_le_zpow_right₀ one_le_two ?_)
  have := le_max_left (Int.log 2 |x| + 1 - F.prec) F.emin
  unfold ulpExponent
  omega

/-- Above the smallest exponent the last place is that of a normalised significand. -/
theorem zpow_le_abs {x : ℚ} (hx : x ≠ 0) (h : F.emin < F.ulpExponent x) :
    2 ^ (F.ulpExponent x + F.prec - 1) ≤ |x| := by
  have hlog := Int.zpow_log_le_self one_lt_two (abs_pos.2 hx)
  have heq : F.ulpExponent x + F.prec - 1 = Int.log 2 |x| := by
    unfold ulpExponent at h ⊢
    omega
  rw [heq]
  exact hlog

/-- A number of the format with an exponent from `u` on is a multiple of `2 ^ u`. -/
theorem exists_div_eq {m e u : ℤ} (h : u ≤ e) : ∃ k : ℤ, (m * 2 ^ e / 2 ^ u : ℚ) = k := by
  obtain ⟨n, rfl⟩ := Int.le.dest h
  refine ⟨m * 2 ^ n, ?_⟩
  rw [zpow_add₀ two_ne_zero, zpow_natCast]
  have := (two_zpow_pos u).ne'
  push_cast
  field_simp

theorem ulpExponent_neg (x : ℚ) : F.ulpExponent (-x) = F.ulpExponent x := by
  rw [ulpExponent, abs_neg, ulpExponent]

theorem round_neg (x : ℚ) : F.round (-x) = -F.round x := by
  rw [round, ulpExponent_neg, neg_div, nearestEven_neg, round]
  push_cast
  ring

/-- A multiple of the last place is not rounded across. -/
theorem mul_zpow_le_round {m e : ℤ} {x : ℚ} (he : F.ulpExponent x ≤ e) (h : m * 2 ^ e ≤ x) :
    m * 2 ^ e ≤ F.round x := by
  have hpos := two_zpow_pos (F.ulpExponent x)
  obtain ⟨k, hk⟩ := exists_div_eq (m := m) he
  rw [round, ← div_le_iff₀ hpos, hk, Int.cast_le]
  refine le_nearestEven ?_
  rw [← hk]
  exact div_le_div_of_nonneg_right h hpos.le

/-- **A number of the format is not rounded across**, from below. -/
theorem Representable.le_round {a x : ℚ} (ha : F.Representable a) (h : a ≤ x) : a ≤ F.round x := by
  obtain ⟨m, e, hm, he, rfl⟩ := ha
  rcases le_or_gt (F.ulpExponent x) e with hle | hlt
  · exact mul_zpow_le_round hle h
  rcases eq_or_ne x 0 with rfl | hx
  · simpa [round, nearestEven] using h
  · -- the last place of `x` is above that of the number, so `x` is the larger one by far
    have hprec := F.prec_pos
    have hlarge := zpow_le_abs hx (he.trans_lt hlt)
    have hsmall : |(m : ℚ) * 2 ^ e| < 2 ^ (F.ulpExponent x + F.prec - 1) := by
      have hm' : |(m : ℚ)| < 2 ^ F.prec := by exact_mod_cast hm
      rw [abs_mul, abs_of_pos (two_zpow_pos e)]
      calc |(m : ℚ)| * 2 ^ e < 2 ^ F.prec * 2 ^ e := mul_lt_mul_of_pos_right hm' (two_zpow_pos e)
        _ = 2 ^ ((F.prec : ℤ) + e) := by rw [zpow_add₀ two_ne_zero, zpow_natCast]
        _ ≤ 2 ^ (F.ulpExponent x + F.prec - 1) := zpow_le_zpow_right₀ one_le_two (by omega)
    have hxpos : 0 < x := by
      by_contra hneg
      rw [abs_of_nonpos (not_lt.1 hneg)] at hlarge
      have := neg_abs_le ((m : ℚ) * 2 ^ e)
      linarith
    rw [abs_of_pos hxpos, ← one_mul (2 ^ _), ← Int.cast_one] at hlarge
    have hround := mul_zpow_le_round (F := F) (by omega) hlarge
    rw [Int.cast_one, one_mul] at hround
    exact ((le_abs_self _).trans hsmall.le).trans hround

/-- From above. -/
theorem Representable.round_le {a x : ℚ} (ha : F.Representable a) (h : x ≤ a) : F.round x ≤ a := by
  have hneg := ha.neg.le_round (neg_le_neg h)
  rw [round_neg] at hneg
  exact neg_le_neg_iff.1 hneg

/-- **The numbers of the format are not changed.** -/
theorem round_of_representable {x : ℚ} (h : F.Representable x) : F.round x = x :=
  le_antisymm (h.round_le le_rfl) (h.le_round le_rfl)

/-- **A rounded number is a number of the format.** -/
theorem representable_round (x : ℚ) : F.Representable (F.round x) := by
  have hprec := F.prec_pos
  have hemin : F.emin ≤ F.ulpExponent x := le_max_right _ _
  have hpos := two_zpow_pos (F.ulpExponent x)
  have hscaled : |x / 2 ^ F.ulpExponent x| < ((2 ^ F.prec : ℤ) : ℚ) := by
    rw [abs_div, abs_of_pos hpos, div_lt_iff₀ hpos]
    refine (lt_zpow_ulpExponent (F := F) x).trans_eq ?_
    rw [zpow_add₀ two_ne_zero, zpow_natCast, mul_comm]
    push_cast
    rfl
  obtain ⟨hlo, hhi⟩ := abs_lt.1 hscaled
  have hle : nearestEven (x / 2 ^ F.ulpExponent x) ≤ 2 ^ F.prec := nearestEven_le hhi.le
  have hge : -2 ^ F.prec ≤ nearestEven (x / 2 ^ F.ulpExponent x) :=
    le_nearestEven (by push_cast at hlo ⊢; exact hlo.le)
  unfold round
  generalize nearestEven (x / 2 ^ F.ulpExponent x) = n at hle hge
  have hpower : F.Representable (2 ^ F.prec * 2 ^ F.ulpExponent x) := by
    rw [← zpow_natCast, ← zpow_add₀ two_ne_zero]
    exact representable_zpow (by omega)
  -- a significand that was rounded up to a power of two has one bit in the next binade
  rcases hle.eq_or_lt with rfl | hlt
  · push_cast
    exact hpower
  rcases hge.eq_or_lt with rfl | hgt
  · push_cast
    rw [neg_mul]
    exact hpower.neg
  · exact ⟨n, _, abs_lt.2 ⟨hgt, hlt⟩, hemin, rfl⟩

/-- If the last place of `y` is above that of `x`, a power of two separates them. -/
theorem round_mono_of_lt {x y : ℚ} (h : x ≤ y) (hulp : F.ulpExponent x < F.ulpExponent y) :
    F.round x ≤ F.round y := by
  have hprec := F.prec_pos
  have hemin : F.emin ≤ F.ulpExponent x := le_max_right _ _
  have hrep : F.Representable (2 ^ (F.ulpExponent y + F.prec - 1)) :=
    representable_zpow (by omega)
  have hsmall : |x| < 2 ^ (F.ulpExponent y + F.prec - 1) :=
    (lt_zpow_ulpExponent (F := F) x).trans_le (zpow_le_zpow_right₀ one_le_two (by omega))
  rcases eq_or_ne y 0 with rfl | hy
  · rw [round_of_representable (x := 0) representable_zero]
    exact representable_zero.round_le h
  · have hlarge := zpow_le_abs hy (hemin.trans_lt hulp)
    rcases lt_or_ge y 0 with hneg | hpos
    · -- then `x` is below `y` and nearer to zero
      rw [abs_of_neg hneg] at hlarge
      have := neg_abs_le x
      linarith
    · rw [abs_of_nonneg hpos] at hlarge
      exact (hrep.round_le ((le_abs_self x).trans hsmall.le)).trans (hrep.le_round hlarge)

/-- **Rounding is monotone.** -/
theorem round_mono {x y : ℚ} (h : x ≤ y) : F.round x ≤ F.round y := by
  rcases lt_trichotomy (F.ulpExponent x) (F.ulpExponent y) with hlt | heq | hgt
  · exact round_mono_of_lt h hlt
  · have hpos := two_zpow_pos (F.ulpExponent y)
    rw [round, round, heq]
    refine mul_le_mul_of_nonneg_right ?_ hpos.le
    exact Int.cast_le.2 (nearestEven_mono (div_le_div_of_nonneg_right h hpos.le))
  · rw [← ulpExponent_neg x, ← ulpExponent_neg y] at hgt
    have hneg := round_mono_of_lt (neg_le_neg h) hgt
    rw [round_neg, round_neg] at hneg
    exact neg_le_neg_iff.1 hneg

/-! ### Errors -/

/-- The last place of the numbers between `2 ^ k` and `2 ^ (k + 1)`. -/
theorem ulpExponent_eq {x : ℚ} {k : ℤ} (hk : 2 ^ k ≤ |x|) (hk' : |x| < 2 ^ (k + 1)) :
    F.ulpExponent x = max (k + 1 - F.prec) F.emin := by
  have hpos : 0 < |x| := (two_zpow_pos k).trans_le hk
  have hle : k ≤ Int.log 2 |x| := (Int.zpow_le_iff_le_log one_lt_two hpos).1 hk
  have hlt : Int.log 2 |x| < k + 1 := (Int.lt_zpow_iff_log_lt one_lt_two hpos).1 hk'
  rw [ulpExponent, show Int.log 2 |x| = k by omega]

/-- Rounding a number between `2 ^ k` and `2 ^ (k + 1)`. -/
theorem round_eq {x : ℚ} {k : ℤ} (hk : 2 ^ k ≤ |x|) (hk' : |x| < 2 ^ (k + 1))
    (hemin : F.emin ≤ k + 1 - F.prec) :
    F.round x = nearestEven (x / 2 ^ (k + 1 - F.prec)) * 2 ^ (k + 1 - F.prec) := by
  rw [round, ulpExponent_eq hk hk', max_eq_left hemin]

/-- **The error of rounding** is at most half a unit in the last place. -/
theorem abs_round_sub_le {x : ℚ} {k : ℤ} (hx : |x| < 2 ^ k) (hk : F.emin ≤ k - F.prec) :
    |F.round x - x| ≤ 2 ^ (k - F.prec) / 2 := by
  rcases eq_or_ne x 0 with rfl | hne
  · rw [round_of_representable representable_zero, sub_zero, abs_zero]
    exact (half_pos (two_zpow_pos _)).le
  · have hlog := (Int.lt_zpow_iff_log_lt one_lt_two (abs_pos.2 hne)).1 hx
    have hulp : F.ulpExponent x ≤ k - F.prec := by unfold ulpExponent; omega
    have hpos := two_zpow_pos (F.ulpExponent x)
    have hscale : F.round x - x =
        (nearestEven (x / 2 ^ F.ulpExponent x) - x / 2 ^ F.ulpExponent x) *
          2 ^ F.ulpExponent x := by
      rw [round, sub_mul, div_mul_cancel₀ _ hpos.ne']
    rw [hscale, abs_mul, abs_of_pos hpos]
    calc |(nearestEven (x / 2 ^ F.ulpExponent x) : ℚ) - x / 2 ^ F.ulpExponent x| *
          2 ^ F.ulpExponent x
        ≤ 1 / 2 * 2 ^ F.ulpExponent x :=
          mul_le_mul_of_nonneg_right (abs_nearestEven_sub_le _) hpos.le
      _ ≤ 1 / 2 * 2 ^ (k - F.prec) :=
          mul_le_mul_of_nonneg_left (zpow_le_zpow_right₀ one_le_two hulp) one_half_pos.le
      _ = 2 ^ (k - F.prec) / 2 := by ring

end FloatFormat

end KokkosStencil
