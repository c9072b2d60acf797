import KokkosStencil.Mean.Double

/-!
# Grey levels computed in `double`

`r * 0.299 + g * 0.587 + b * 0.114`, with every literal, product and sum rounded, converted to
`uint8_t`.

* `abs_luma_sub_lt` : the rounding errors together stay below `2 ^ (-42)`;
* `grey_bounds` : the grey level is the truncated one, except that it may be one less where the
  exact value is an integer.  It is, for the darkest grey pixel (`grey_one`);
* `grey_mono` : a brighter pixel is no darker in grey.
-/

namespace KokkosStencil

open FloatFormat

/-- The `double` that the expression has as its value. -/
def luma (r g b : UInt8) : ℚ :=
  let round := binary64.round
  round (round (round (r.toNat * round 0.299) + round (g.toNat * round 0.587)) +
    round (b.toNat * round 0.114))

/-- `uint8_t grey = r * 0.299 + g * 0.587 + b * 0.114` -/
def grey (wild : ℚ → UInt8) (r g b : UInt8) : UInt8 := toUInt8 wild (luma r g b)

/-- The exact grey level, in thousandths. -/
def exactLuma (r g b : UInt8) : ℕ := 299 * r.toNat + 587 * g.toNat + 114 * b.toNat

/-- The error of a product of a byte and a literal. -/
theorem abs_round_mul_round_sub_le (n : UInt8) {c : ℚ} (hc₀ : 0 ≤ c) (hc₁ : c ≤ 1 / 2 + 1 / 4) :
    |binary64.round (n.toNat * binary64.round c) - n.toNat * c| ≤ 1 / 2 ^ 45 := by
  have hn₀ : (0 : ℚ) ≤ n.toNat := Nat.cast_nonneg _
  have hn₁ : (n.toNat : ℚ) ≤ 255 := by
    have := n.toNat_lt
    exact_mod_cast Nat.le_of_lt_succ this
  have hliteral : |binary64.round c - c| ≤ 1 / 2 ^ 54 := by
    have h := abs_round_sub_le (F := binary64) (x := c) (k := 0)
      (by rw [abs_of_nonneg hc₀]; norm_num; linarith) (by decide)
    refine h.trans (le_of_eq ?_)
    simp only [binary64]
    norm_num
  have hscaled : |n.toNat * binary64.round c - n.toNat * c| ≤ 255 / 2 ^ 54 := by
    rw [← mul_sub, abs_mul, abs_of_nonneg hn₀]
    calc (n.toNat : ℚ) * |binary64.round c - c| ≤ 255 * (1 / 2 ^ 54) :=
          mul_le_mul hn₁ hliteral (abs_nonneg _) (by norm_num)
      _ = 255 / 2 ^ 54 := by norm_num
  have hnc : (n.toNat : ℚ) * c ≤ 255 * (3 / 4) :=
    mul_le_mul hn₁ (by linarith) hc₀ (by norm_num)
  have hnc₀ : 0 ≤ (n.toNat : ℚ) * c := mul_nonneg hn₀ hc₀
  obtain ⟨hlo, hhi⟩ := abs_le.1 hscaled
  have hproduct : |binary64.round (n.toNat * binary64.round c) - n.toNat * binary64.round c| ≤
      1 / 2 ^ 46 := by
    have h := abs_round_sub_le (F := binary64) (x := n.toNat * binary64.round c) (k := 8)
      (by rw [abs_lt]; constructor <;> norm_num at * <;> linarith) (by decide)
    refine h.trans (le_of_eq ?_)
    simp only [binary64]
    norm_num
  calc |binary64.round (n.toNat * binary64.round c) - n.toNat * c|
      ≤ |binary64.round (n.toNat * binary64.round c) - n.toNat * binary64.round c| +
        |n.toNat * binary64.round c - n.toNat * c| := abs_sub_le _ _ _
    _ ≤ 1 / 2 ^ 46 + 255 / 2 ^ 54 := add_le_add hproduct hscaled
    _ ≤ 1 / 2 ^ 45 := by norm_num

/-- The error of a sum below `2 ^ 8`. -/
theorem abs_round_sub_le_of_lt {x : ℚ} (hx₀ : -1 < x) (hx₁ : x < 256) :
    |binary64.round x - x| ≤ 1 / 2 ^ 46 := by
  have h := abs_round_sub_le (F := binary64) (x := x) (k := 8)
    (by rw [abs_lt]; constructor <;> norm_num <;> linarith) (by decide)
  refine h.trans (le_of_eq ?_)
  simp only [binary64]
  norm_num

/-- **The rounding errors** of all products and sums together. -/
theorem abs_luma_sub_lt (r g b : UInt8) : |luma r g b - exactLuma r g b / 1000| < 1 / 2 ^ 42 := by
  have hr := abs_le.1 (abs_round_mul_round_sub_le r (c := 0.299) (by norm_num) (by norm_num))
  have hg := abs_le.1 (abs_round_mul_round_sub_le g (c := 0.587) (by norm_num) (by norm_num))
  have hb := abs_le.1 (abs_round_mul_round_sub_le b (c := 0.114) (by norm_num) (by norm_num))
  have hbyte : ∀ n : UInt8, (0 : ℚ) ≤ n.toNat ∧ (n.toNat : ℚ) ≤ 255 := fun n =>
    ⟨Nat.cast_nonneg _, by exact_mod_cast Nat.le_of_lt_succ n.toNat_lt⟩
  have hr' := hbyte r
  have hg' := hbyte g
  have hb' := hbyte b
  unfold luma exactLuma
  push_cast
  generalize binary64.round (r.toNat * binary64.round 0.299) = x at hr ⊢
  generalize binary64.round (g.toNat * binary64.round 0.587) = y at hg ⊢
  generalize binary64.round (b.toNat * binary64.round 0.114) = z at hb ⊢
  generalize (r.toNat : ℚ) = r at hr hr' ⊢
  generalize (g.toNat : ℚ) = g at hg hg' ⊢
  generalize (b.toNat : ℚ) = b at hb hb' ⊢
  norm_num at hr hg hb
  have hsum := abs_le.1 (abs_round_sub_le_of_lt (x := x + y) (by linarith) (by linarith))
  generalize binary64.round (x + y) = s at hsum ⊢
  norm_num at hsum
  have htotal := abs_le.1 (abs_round_sub_le_of_lt (x := s + z) (by linarith) (by linarith))
  generalize binary64.round (s + z) = t at htotal ⊢
  norm_num at htotal
  rw [abs_lt]
  constructor <;> norm_num <;> linarith

theorem luma_nonneg (r g b : UInt8) : 0 ≤ luma r g b := by
  have hround : ∀ {x : ℚ}, 0 ≤ x → 0 ≤ binary64.round x := fun h => representable_zero.le_round h
  have hproduct : ∀ (n : UInt8) {c : ℚ}, 0 ≤ c →
      0 ≤ binary64.round (n.toNat * binary64.round c) := fun n _ h =>
    hround (mul_nonneg (Nat.cast_nonneg _) (hround h))
  exact hround (add_nonneg (hround (add_nonneg (hproduct r (by norm_num))
    (hproduct g (by norm_num)))) (hproduct b (by norm_num)))

theorem exactLuma_le (r g b : UInt8) : exactLuma r g b ≤ 255000 := by
  have := r.toNat_lt
  have := g.toNat_lt
  have := b.toNat_lt
  unfold exactLuma
  omega

/-- The grey level, when its `double` is between a level and the next one. -/
theorem toNat_grey {wild : ℚ → UInt8} {r g b : UInt8} {n : ℕ} (hn : n < 256)
    (hle : n ≤ luma r g b) (hlt : luma r g b < n + 1) : (grey wild r g b).toNat = n := by
  rw [grey, toUInt8_eq wild hn hle hlt]
  exact UInt8.toNat_ofNat_of_lt' hn

/-- **The grey level** is the truncated exact one, or one less where the exact one is an
integer. -/
theorem grey_bounds (wild : ℚ → UInt8) (r g b : UInt8) :
    (exactLuma r g b - 1) / 1000 ≤ (grey wild r g b).toNat ∧
      (grey wild r g b).toNat ≤ exactLuma r g b / 1000 := by
  obtain ⟨hlo, hhi⟩ := abs_lt.1 (abs_luma_sub_lt r g b)
  have hnonneg := luma_nonneg r g b
  have hmax := exactLuma_le r g b
  generalize exactLuma r g b = L at hlo hhi hmax
  have hdiv : 1000 * (L / 1000) ≤ L ∧ L ≤ 1000 * (L / 1000) + 999 := by omega
  have hq : L / 1000 < 256 := by omega
  have hlower : (1000 : ℚ) * (L / 1000 : ℕ) ≤ L := by exact_mod_cast hdiv.1
  have hupper : (L : ℚ) ≤ 1000 * (L / 1000 : ℕ) + 999 := by exact_mod_cast hdiv.2
  norm_num at hlo hhi
  rcases le_or_gt ((L / 1000 : ℕ) : ℚ) (luma r g b) with hle | hgt
  · have hgrey : (grey wild r g b).toNat = L / 1000 := toNat_grey hq hle (by linarith)
    omega
  · -- then the exact level is an integer
    have hmod : L = 1000 * (L / 1000) := by
      by_contra hne
      have hstrict : (1000 : ℚ) * (L / 1000 : ℕ) + 1 ≤ L := by
        exact_mod_cast (show 1000 * (L / 1000) + 1 ≤ L by omega)
      linarith
    have hpos : 0 < L / 1000 := by
      by_contra hzero
      rw [show L / 1000 = 0 by omega, Nat.cast_zero] at hgt
      linarith
    obtain ⟨q, hq'⟩ : ∃ q, L / 1000 = q + 1 := ⟨L / 1000 - 1, by omega⟩
    rw [hq'] at hgt hlower hq
    push_cast at hgt hlower
    have hgrey : (grey wild r g b).toNat = q := toNat_grey (by omega) (by linarith) hgt
    omega

/-- A brighter pixel is no darker in grey. -/
theorem luma_mono {r g b r' g' b' : UInt8} (hr : r ≤ r') (hg : g ≤ g') (hb : b ≤ b') :
    luma r g b ≤ luma r' g' b' := by
  have hproduct : ∀ {n n' : UInt8} {c : ℚ}, n ≤ n' → 0 ≤ c →
      binary64.round (n.toNat * binary64.round c) ≤ binary64.round (n'.toNat * binary64.round c) :=
    fun {n n' c} hn hc => round_mono (mul_le_mul_of_nonneg_right
      (by exact_mod_cast UInt8.le_iff_toNat_le.1 hn) (representable_zero.le_round hc))
  exact round_mono (add_le_add (round_mono (add_le_add (hproduct hr (by norm_num))
    (hproduct hg (by norm_num)))) (hproduct hb (by norm_num)))

theorem toNat_grey_eq_floor (wild : ℚ → UInt8) (r g b : UInt8) :
    (grey wild r g b).toNat = ⌊luma r g b⌋₊ := by
  have hnonneg := luma_nonneg r g b
  have hmax : (exactLuma r g b : ℚ) ≤ 255000 := by exact_mod_cast exactLuma_le r g b
  have hlt : luma r g b < 256 := by
    have hhi := (abs_lt.1 (abs_luma_sub_lt r g b)).2
    norm_num at hhi
    linarith
  exact toNat_grey ((Nat.floor_lt hnonneg).2 (by exact_mod_cast hlt)) (Nat.floor_le hnonneg)
    (Nat.lt_floor_add_one _)

theorem grey_mono (wild : ℚ → UInt8) {r g b r' g' b' : UInt8} (hr : r ≤ r') (hg : g ≤ g')
    (hb : b ≤ b') : grey wild r g b ≤ grey wild r' g' b' := by
  rw [UInt8.le_iff_toNat_le, toNat_grey_eq_floor, toNat_grey_eq_floor]
  exact Nat.floor_mono (luma_mono hr hg hb)

theorem grey_mono_ten : grey (fun _ => 0) 10 20 30 ≤ grey (fun _ => 0) 10 21 40 :=
  grey_mono _ (by decide) (by decide) (by decide)

/-- The darkest grey pixel becomes black: its `double` is the largest one below `1`. -/
theorem grey_one (wild : ℚ → UInt8) : grey wild 1 1 1 = 0 := by
  have hr : binary64.round 0.299 = 5386305154335113 / 2 ^ 54 := by
    rw [round_eq (k := -2) (by norm_num [abs_of_pos]) (by norm_num [abs_of_pos]) (by decide)]
    norm_num [nearestEven, binary64]
  have hg : binary64.round 0.587 = 2643612981266481 / 2 ^ 52 := by
    rw [round_eq (k := -1) (by norm_num [abs_of_pos]) (by norm_num [abs_of_pos]) (by decide)]
    norm_num [nearestEven, binary64]
  have hb : binary64.round 0.114 = 8214565720323785 / 2 ^ 56 := by
    rw [round_eq (k := -4) (by norm_num [abs_of_pos]) (by norm_num [abs_of_pos]) (by decide)]
    norm_num [nearestEven, binary64]
  have hsum : binary64.round (5386305154335113 / 2 ^ 54 + 2643612981266481 / 2 ^ 52) =
      3990189269850259 / 2 ^ 52 := by
    rw [round_eq (k := -1) (by norm_num [abs_of_pos]) (by norm_num [abs_of_pos]) (by decide)]
    norm_num [nearestEven, binary64]
  have htotal : binary64.round (3990189269850259 / 2 ^ 52 + 8214565720323785 / 2 ^ 56) =
      9007199254740991 / 2 ^ 53 := by
    rw [round_eq (k := -1) (by norm_num [abs_of_pos]) (by norm_num [abs_of_pos]) (by decide)]
    norm_num [nearestEven, binary64]
  have hone : ((1 : UInt8).toNat : ℚ) = 1 := Nat.cast_one
  have hround : ∀ x, binary64.round (binary64.round x) = binary64.round x := fun x =>
    round_of_representable (representable_round x)
  have hluma : luma 1 1 1 = 9007199254740991 / 2 ^ 53 := by
    simp only [luma, hone, one_mul, hround]
    rw [hr, hg, hb, hsum, htotal]
  rw [← UInt8.toNat_inj, toNat_grey (n := 0) (by decide)]
  · rfl
  · rw [hluma]; norm_num
  · rw [hluma]; norm_num

end KokkosStencil
