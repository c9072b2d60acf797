import KokkosStencil.Machine.Range
import KokkosStencil.View.GaussSeidel

/-!
# The `int` arithmetic of `parallel_gauss_seidel.cpp`

Sizes, offsets and counts are computed in `int` even where the result goes into a `size_t` or a
`double`.  `Computes R C e` says that a run on a picture of `R` rows and `C` columns computes the
expression `e`; the variables of an expression stand as their values.

* `inRange_traffic_iff` : the count of moved bytes behind the bandwidth is in range for at most
  `11930464` pixels;
* `inRange_of_computes` : up to that size all expressions are in range;
* `exact_iff` : so a run computes the exact values of all its expressions iff the picture has at
  most `11930464` pixels.  Photographs can have more (`not_exact`).
-/

namespace KokkosStencil

namespace ParallelGaussSeidel

open IntExpr (val)

/-- The values of a 32-bit `int`. -/
def Int32Range (n : ℤ) : Prop := -2147483648 ≤ n ∧ n ≤ 2147483647

instance : DecidablePred Int32Range := fun _ => inferInstanceAs (Decidable (_ ∧ _))

/-- `#define NOISE_ITER 15` -/
def NOISE_ITER : ℤ := 15

/-- `#define ITERATIONS 15` -/
def ITERATIONS : ℤ := 15

/-- `#define PADDING 1` -/
def PADDING : ℤ := 1

/-- `img.rows` or `img.cols`, of a picture with `n` rows or columns. -/
def imgSize (n : ℕ) : IntExpr := val n

/-- `image_pad.rows` or `image_pad.cols` -/
def imagePadSize (n : ℕ) : IntExpr := val (n + 2)

/-- `image_pad.channels()` -/
def channels : IntExpr := val cn

/-- `size_t pad_image_size = image_pad.rows * image_pad.cols * cn` -/
def padImageSize (R C : ℕ) : IntExpr := imagePadSize R * imagePadSize C * channels

/-- `size_t original_image_size = img.rows * img.cols * cn` -/
def originalImageSize (R C : ℕ) : IntExpr := imgSize R * imgSize C * channels

/-- `int index = i * image_pad.cols * cn + j * cn` -/
def index (C : ℕ) (p : ℤ × ℤ) : IntExpr :=
  val p.1 * imagePadSize C * channels + val p.2 * channels

/-- `img.rows * img.cols * cn * 4 * ITERATIONS`, which is converted to `double` for `Gbytes` -/
def traffic (R C : ℕ) : IntExpr := imgSize R * imgSize C * channels * val 4 * val ITERATIONS

/-- The bounds of the counting loops: over the rounds of noise, over the rows and columns of the
picture and the channels of a pixel in each round, over the rows and columns of the padded picture
in the import and the export, and over the iterations. -/
def loopBounds (R C : ℕ) : List ℤ := [NOISE_ITER, R, C, 3, R + 2, C + 2, ITERATIONS]

/-- The `int` expressions that a run computes on a picture of `R` rows and `C` columns. -/
inductive Computes (R C : ℕ) : IntExpr → Prop
  /-- `++i` in a loop. -/
  | count {bound i : ℤ} (hb : bound ∈ loopBounds R C) (hi : 0 ≤ i ∧ i < bound) :
      Computes R C (val i + val 1)
  /-- The last round of noise. -/
  | noiseLast : Computes R C (val NOISE_ITER - val 1)
  /-- `Source_Pixel.val[i] + Noise_Pixel.val[i]` -/
  | destPixel (source : UInt8) (noise : Int16) :
      Computes R C (val source.toNat + val noise.toInt)
  | padImageSize : Computes R C (padImageSize R C)
  | originalImageSize : Computes R C (originalImageSize R C)
  /-- `index + k` in the import and export loops. -/
  | index {p : ℤ × ℤ} (hp : p ∈ fullImage R C) {k : ℤ} (hk : 0 ≤ k ∧ k < cn) :
      Computes R C (index C p + val k)
  /-- The ends of the policy of the kernels. -/
  | policyRows : Computes R C (imagePadSize R - val 1)
  | policyCols : Computes R C (imagePadSize C - val 1)
  /-- `(i + j) % 2` in the kernels. -/
  | colour {x : Ix} (hx : x ∈ gaussOriginalImage R C) :
      Computes R C ((val x.1 + val x.2.1) % val 2)
  /-- `i - 1` and `j - 1` in the kernels. -/
  | before {x : Ix} (hx : x ∈ gaussOriginalImage R C) {i : ℤ} (hi : i = x.1 ∨ i = x.2.1) :
      Computes R C (val i - val 1)
  /-- `i + 1` and `j + 1` in the kernels. -/
  | after {x : Ix} (hx : x ∈ gaussOriginalImage R C) {i : ℤ} (hi : i = x.1 ∨ i = x.2.1) :
      Computes R C (val i + val 1)
  /-- `pixel + left + right + up + down` in the kernels. -/
  | stencilSum (pixel left right up down : UInt8) : Computes R C
      (val pixel.toNat + val left.toNat + val right.toNat + val up.toNat + val down.toNat)
  | traffic : Computes R C (traffic R C)
  /-- The size of the region that is kept. -/
  | roiWidth : Computes R C (imagePadSize C - val PADDING - val PADDING)
  | roiHeight : Computes R C (imagePadSize R - val PADDING - val PADDING)

variable {R C : ℕ}

/-! ### The traffic count -/

theorem le_pixels (hR : 0 < R) (hC : 0 < C) : (R : ℤ) ≤ R * C ∧ (C : ℤ) ≤ R * C := by
  constructor
  · exact_mod_cast Nat.le_mul_of_pos_right R hC
  · exact_mod_cast Nat.le_mul_of_pos_left C hR

/-- **The largest picture that the traffic count can take.** -/
theorem inRange_traffic_iff (hR : 0 < R) (hC : 0 < C) :
    (traffic R C).InRange Int32Range ↔ R * C ≤ 11930464 := by
  obtain ⟨hr, hc⟩ := le_pixels hR hC
  simp only [traffic, imgSize, channels, ITERATIONS, IntExpr.inRange_mul, IntExpr.inRange_val,
    IntExpr.exact_mul, IntExpr.exact_val, Int32Range, cn]
  zify
  constructor
  · rintro ⟨-, -, -, hlast⟩
    omega
  · intro h
    omega

/-! ### All expressions -/

section Small

variable (hR : 0 < R) (hC : 0 < C) (h : R * C ≤ 11930464)

include hR hC h

/-- Padding makes a picture at most nine times as large. -/
theorem sizes_le : (R : ℤ) ≤ 11930464 ∧ (C : ℤ) ≤ 11930464 ∧
    ((R : ℤ) + 2) * (C + 2) ≤ 9 * 11930464 := by
  obtain ⟨hr, hc⟩ := le_pixels hR hC
  have hexp : ((R : ℤ) + 2) * (C + 2) = R * C + 2 * R + 2 * C + 4 := by ring
  have h' : (R : ℤ) * C ≤ 11930464 := by exact_mod_cast h
  rw [hexp]
  omega

theorem inRange_originalImageSize : (originalImageSize R C).InRange Int32Range := by
  -- it is a part of the traffic count
  have htraffic := (inRange_traffic_iff hR hC).2 h
  exact htraffic.1.1

theorem inRange_padImageSize : (padImageSize R C).InRange Int32Range := by
  obtain ⟨hr, hc, hpad⟩ := sizes_le hR hC h
  have hnonneg : 0 ≤ ((R : ℤ) + 2) * (C + 2) := by positivity
  simp only [padImageSize, imagePadSize, channels, IntExpr.inRange_mul, IntExpr.inRange_val,
    IntExpr.exact_mul, IntExpr.exact_val, Int32Range, cn]
  omega

/-- An offset into the padded picture is smaller than its size, and so are the parts of it. -/
theorem inRange_index {p : ℤ × ℤ} (hp : p ∈ fullImage R C) {k : ℤ} (hk : 0 ≤ k ∧ k < cn) :
    (index C p + val k).InRange Int32Range := by
  obtain ⟨hr, hc, hpad⟩ := sizes_le hR hC h
  obtain ⟨i, j⟩ := p
  obtain ⟨hi, hj⟩ := mem_mdRange2.1 hp
  obtain ⟨-, hcell⟩ := cell_bounds hi hj
  have hrow : 0 ≤ i * ((C : ℤ) + 2) := Int.mul_nonneg hi.1 (by omega)
  push_cast at hi hj hcell
  simp only [index, imagePadSize, channels, IntExpr.inRange_add, IntExpr.inRange_mul,
    IntExpr.inRange_val, IntExpr.exact_add, IntExpr.exact_mul, IntExpr.exact_val, Int32Range,
    cn] at hk ⊢
  omega

theorem loopBound_le {bound : ℤ} (hb : bound ∈ loopBounds R C) : bound ≤ 11930466 := by
  obtain ⟨hr, hc, -⟩ := sizes_le hR hC h
  simp only [loopBounds, NOISE_ITER, ITERATIONS, List.mem_cons, List.not_mem_nil, or_false] at hb
  omega

/-- The indices of a kernel are smaller than the padded picture. -/
theorem kernelIndex_bounds {x : Ix} (hx : x ∈ gaussOriginalImage R C) :
    (1 ≤ x.1 ∧ x.1 ≤ 11930464) ∧ 1 ≤ x.2.1 ∧ x.2.1 ≤ 11930464 := by
  obtain ⟨hr, hc, -⟩ := sizes_le hR hC h
  obtain ⟨⟨hi₁, hi₂, hj₁, hj₂⟩, -⟩ := mem_gaussOriginalImage.1 hx
  exact ⟨⟨hi₁, hi₂.trans hr⟩, hj₁, hj₂.trans hc⟩

/-- Where the traffic count is in range, every expression is. -/
theorem inRange_of_computes {e : IntExpr} (he : Computes R C e) : e.InRange Int32Range := by
  obtain ⟨hr, hc, -⟩ := sizes_le hR hC h
  cases he with
  | count hb hi =>
    have hbound := loopBound_le hR hC h hb
    simp only [IntExpr.inRange_add, IntExpr.inRange_val, IntExpr.exact_val, Int32Range]
    omega
  | noiseLast => decide
  | destPixel source noise =>
    have hsource := source.toNat_lt
    have hlo := noise.le_toInt
    have hhi := noise.toInt_lt
    simp only [IntExpr.inRange_add, IntExpr.inRange_val, IntExpr.exact_val, Int32Range]
    omega
  | padImageSize => exact inRange_padImageSize hR hC h
  | originalImageSize => exact inRange_originalImageSize hR hC h
  | index hp hk => exact inRange_index hR hC h hp hk
  | policyRows | policyCols =>
    simp only [imagePadSize, IntExpr.inRange_sub, IntExpr.inRange_val, IntExpr.exact_val,
      Int32Range]
    omega
  | @colour x hx =>
    obtain ⟨hi, hj⟩ := kernelIndex_bounds hR hC h hx
    have hsum : 0 ≤ x.1 + x.2.1 := by omega
    simp only [IntExpr.inRange_mod, IntExpr.inRange_add, IntExpr.inRange_val, IntExpr.exact_add,
      IntExpr.exact_val, Int32Range, Int.tdiv_eq_ediv_of_nonneg hsum,
      Int.tmod_eq_emod_of_nonneg hsum]
    omega
  | before hx hi | after hx hi =>
    have hbounds := kernelIndex_bounds hR hC h hx
    simp only [IntExpr.inRange_add, IntExpr.inRange_sub, IntExpr.inRange_val, IntExpr.exact_val,
      Int32Range]
    omega
  | stencilSum pixel left right up down =>
    have hpixel := pixel.toNat_lt
    have hleft := left.toNat_lt
    have hright := right.toNat_lt
    have hup := up.toNat_lt
    have hdown := down.toNat_lt
    simp only [IntExpr.inRange_add, IntExpr.inRange_val, IntExpr.exact_add, IntExpr.exact_val,
      Int32Range]
    omega
  | traffic => exact (inRange_traffic_iff hR hC).2 h
  | roiWidth | roiHeight =>
    simp only [imagePadSize, PADDING, IntExpr.inRange_sub, IntExpr.inRange_val, IntExpr.exact_sub,
      IntExpr.exact_val, Int32Range]
    omega

end Small

/-- **When no `int` overflows**: all expressions of a run have their exact values iff the picture
has at most `11930464` pixels, so that `180` times their number is below `2 ^ 31`. -/
theorem exact_iff (R C : ℕ) (hR : 0 < R) (hC : 0 < C) :
    (∀ e, Computes R C e → e.eval Int32Range = some e.exact) ↔ R * C ≤ 11930464 := by
  constructor
  · intro hexact
    exact (inRange_traffic_iff hR hC).1 (IntExpr.eval_eq_exact_iff.1 (hexact _ .traffic))
  · intro h e he
    exact IntExpr.eval_eq_exact_iff.2 (inRange_of_computes hR hC h he)

/-- A picture of one pixel. -/
theorem exact_one_one :
    (∀ e, Computes 1 1 e → e.eval Int32Range = some e.exact) ↔ 1 * 1 ≤ 11930464 :=
  exact_iff 1 1 Nat.one_pos Nat.one_pos

/-- The traffic count of a `3000 × 4000` picture is `2160000000`. -/
theorem not_exact : ¬ ∀ R C : ℕ, 1 ≤ R ∧ R ≤ 2 ^ 20 → 1 ≤ C ∧ C ≤ 2 ^ 20 → R * C ≤ 2 ^ 30 →
    ∀ e, Computes R C e → e.eval Int32Range = some e.exact := by
  intro h
  have htraffic := h 3000 4000 (by decide) (by decide) (by decide) _ .traffic
  exact absurd htraffic (by decide)

end ParallelGaussSeidel

end KokkosStencil
