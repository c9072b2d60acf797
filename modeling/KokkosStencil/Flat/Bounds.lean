import KokkosStencil.Flat.CpuJacobi
import KokkosStencil.Flat.GaussSeidel

/-!
# Which bytes the flat stencils touch

All flat programs address the buffer of the padded picture with the row length of the picture
without padding, so their pixel `(i, j)` is pixel number `i * C + j` of the buffer, and the pixels
above and below it are `C` pixel numbers away.

* `staysInBuffer_iff` : of all the bytes a body touches, only those above it can leave the buffer;
  they do so exactly in the first row;
* `jacobi_staysInBuffer_iff` : the two Jacobi programs start in that row, so they read in front of
  the buffer for every picture that has a pixel;
* `IterativeGaussSeidel.sweep_window` : the Gauss–Seidel loop starts one row later.  It stays in
  the buffer, writes one interval of pixel numbers in ascending order, and its result satisfies
  the recurrence of an in-place sweep.
-/

namespace KokkosStencil

variable {R C : ℕ}

/-- The number of pixel `(i, j)` in the buffer. -/
def position (cols : ℕ) (p : ℤ × ℤ) : ℤ := p.1 * cols + p.2

/-- All offsets that the body at pixel `p` reads or writes for channel `k` lie in the buffer of the
padded picture. -/
def StaysInBuffer (R C : ℕ) (p : ℤ × ℤ) (k : ℤ) : Prop :=
  (∀ o ∈ stencilOffsets C p k, InBuffer ((R + 2) * (C + 2) * 3) o) ∧
    InBuffer ((R + 2) * (C + 2) * 3) (index C p + k)

instance (R C : ℕ) (p : ℤ × ℤ) (k : ℤ) : Decidable (StaysInBuffer R C p k) :=
  inferInstanceAs (Decidable (_ ∧ _))

theorem stencilOffsets_eq (cols : ℕ) (p : ℤ × ℤ) (k : ℤ) : stencilOffsets cols p k =
    [3 * position cols p + k, 3 * (position cols p - 1) + k, 3 * (position cols p + 1) + k,
      3 * (position cols p - cols) + k, 3 * (position cols p + cols) + k] := by
  obtain ⟨i, j⟩ := p
  simp only [stencilOffsets, position, cn, List.cons.injEq, and_true]
  refine ⟨?_, ?_, ?_, ?_, ?_⟩ <;> ring

/-- **Only the pixels above can be outside**: up to the last pixel of row `R`, a body stays in the
buffer iff its own number is at least the row length. -/
theorem staysInBuffer_iff (hC : 0 < C) {p : ℤ × ℤ} {k : ℤ} (hk : 0 ≤ k ∧ k < cn)
    (h₀ : 0 ≤ position C p) (h₁ : position C p ≤ (R + 1) * C) :
    StaysInBuffer R C p k ↔ (C : ℤ) ≤ position C p := by
  obtain ⟨hk₀, hk₁⟩ := hk
  have hexp : ((R : ℤ) + 1) * C = R * C + C := by ring
  have hwrite : index C p + k = 3 * position C p + k := by rw [index_eq, position]
  rw [hexp] at h₁
  simp only [cn] at hk₁
  simp only [StaysInBuffer, stencilOffsets_eq, hwrite, List.mem_cons, List.not_mem_nil, or_false,
    forall_eq_or_imp, forall_eq, InBuffer, size_eq]
  constructor
  · rintro ⟨⟨-, -, -, ⟨hup, -⟩, -⟩, -⟩
    omega
  · intro h
    refine ⟨⟨?_, ?_, ?_, ?_, ?_⟩, ?_⟩ <;> constructor <;> omega

/-! ### The Jacobi programs -/

/-- In the rows of the picture the row number decides. -/
theorem le_position_iff {p : ℤ × ℤ} (hi : 0 ≤ p.1) (hj : 0 ≤ p.2 ∧ p.2 < C) :
    (C : ℤ) ≤ position C p ↔ 1 ≤ p.1 := by
  obtain ⟨i, j⟩ := p
  simp only [position] at *
  constructor
  · intro h
    by_contra hi'
    have hzero : i = 0 := by omega
    rw [hzero, zero_mul, zero_add] at h
    exact absurd hj.2 (not_lt.2 h)
  · intro h
    have hmul : 1 * (C : ℤ) ≤ i * C := Int.mul_le_mul_of_nonneg_right h (Int.natCast_nonneg C)
    linarith

theorem staysInBuffer_iff_of_picture {p : ℤ × ℤ} (hi : 0 ≤ p.1 ∧ p.1 < R)
    (hj : 0 ≤ p.2 ∧ p.2 < C) {k : ℤ} (hk : 0 ≤ k ∧ k < cn) :
    StaysInBuffer R C p k ↔ 1 ≤ p.1 := by
  obtain ⟨h₀, h₁⟩ := cell_bounds hi hj
  have hC : 0 < C := by omega
  have hlast : position C p ≤ (R + 1) * C := by
    have hexp : ((R : ℤ) + 1) * C = R * C + C := by ring
    rw [hexp, position]
    omega
  rw [staysInBuffer_iff hC hk h₀ hlast, le_position_iff hi.1 hj]

theorem mem_loopPixels {p : ℤ × ℤ} : p ∈ IterativeJacobi.loopPixels R C ↔
    (0 ≤ p.1 ∧ p.1 < R) ∧ 0 ≤ p.2 ∧ p.2 < C := by
  obtain ⟨i, j⟩ := p
  simp only [IterativeJacobi.loopPixels, List.mem_product, Int.mem_range_iff]

theorem mem_originalImage {p : ℤ × ℤ} : p ∈ CpuParallelJacobi.originalImage R C ↔
    (0 ≤ p.1 ∧ p.1 < R) ∧ 0 ≤ p.2 ∧ p.2 < C := mem_mdRange2

/-- The first pixel reads in front of the buffer. -/
theorem not_staysInBuffer_zero (hR : 0 < R) (hC : 0 < C) : ¬ StaysInBuffer R C (0, 0) 0 := by
  have hrow : (0 : ℤ) < R := by exact_mod_cast hR
  have hcol : (0 : ℤ) < C := by exact_mod_cast hC
  rw [staysInBuffer_iff_of_picture ⟨le_rfl, hrow⟩ ⟨le_rfl, hcol⟩ (by decide)]
  decide

/-- **Where the flat Jacobi sweeps leave their buffers**: at a loop index of the sequential sweep,
and of the kernel `apply_jacobi`, all five reads and the write of a channel stay in the buffer iff
the index is not in the first row; so for a picture that has a pixel they do not all stay. -/
theorem jacobi_staysInBuffer_iff (R C : ℕ) :
    (∀ p ∈ IterativeJacobi.loopPixels R C, ∀ k, 0 ≤ k ∧ k < cn →
        (StaysInBuffer R C p k ↔ 1 ≤ p.1)) ∧
      (∀ p ∈ CpuParallelJacobi.originalImage R C, ∀ k, 0 ≤ k ∧ k < cn →
        (StaysInBuffer R C p k ↔ 1 ≤ p.1)) ∧
      (0 < R → 0 < C →
        (¬ ∀ p ∈ IterativeJacobi.loopPixels R C, ∀ k, 0 ≤ k ∧ k < cn → StaysInBuffer R C p k) ∧
          ¬ ∀ p ∈ CpuParallelJacobi.originalImage R C, ∀ k, 0 ≤ k ∧ k < cn →
            StaysInBuffer R C p k) := by
  refine ⟨fun p hp k hk => ?_, fun p hp k hk => ?_, fun hR hC => ?_⟩
  · obtain ⟨hi, hj⟩ := mem_loopPixels.1 hp
    exact staysInBuffer_iff_of_picture hi hj hk
  · obtain ⟨hi, hj⟩ := mem_originalImage.1 hp
    exact staysInBuffer_iff_of_picture hi hj hk
  · have hfirst : (0 ≤ (0 : ℤ) ∧ (0 : ℤ) < R) ∧ 0 ≤ (0 : ℤ) ∧ (0 : ℤ) < C := by
      refine ⟨⟨le_rfl, ?_⟩, le_rfl, ?_⟩
      · exact_mod_cast hR
      · exact_mod_cast hC
    constructor
    · intro h
      exact not_staysInBuffer_zero hR hC (h (0, 0) (mem_loopPixels.2 hfirst) 0 (by decide))
    · intro h
      exact not_staysInBuffer_zero hR hC (h (0, 0) (mem_originalImage.2 hfirst) 0 (by decide))

/-- In the `1 × 1` picture the only pixel reads the offsets `-3` to the left and above. -/
theorem not_staysInBuffer_one_one :
    ¬ ∀ p ∈ IterativeJacobi.loopPixels 1 1, ∀ k, 0 ≤ k ∧ k < cn → StaysInBuffer 1 1 p k :=
  fun h => not_staysInBuffer_zero Nat.one_pos Nat.one_pos
    (h (0, 0) (mem_loopPixels.2 (by decide)) 0 (by decide))

/-! ### The Gauss–Seidel program -/

namespace IterativeGaussSeidel

theorem staysInBuffer_of_mem {p : ℤ × ℤ} (hp : p ∈ loopPixels R C) {k : ℤ} (hk : 0 ≤ k ∧ k < cn) :
    StaysInBuffer R C p k := by
  obtain ⟨i, j⟩ := p
  rw [loopPixels, List.mem_product, Int.mem_range_iff, Int.mem_range_iff] at hp
  obtain ⟨⟨hi₁, hi₂⟩, hj₁, hj₂⟩ := hp
  have hlow : 1 * (C : ℤ) ≤ i * C := Int.mul_le_mul_of_nonneg_right hi₁ (Int.natCast_nonneg C)
  have hhigh : i * (C : ℤ) ≤ R * C :=
    Int.mul_le_mul_of_nonneg_right (by omega) (Int.natCast_nonneg C)
  have hexp : ((R : ℤ) + 1) * C = R * C + C := by ring
  have hC : 0 < C := by omega
  rw [staysInBuffer_iff hC hk] <;> simp only [position] <;> omega

/-- The sweep does not depend on what reads outside the buffer return. -/
theorem sweep_congr_oob (oob oob' : ℤ → UInt8) (b : Buffer ((R + 2) * (C + 2) * 3)) :
    sweep oob b = sweep oob' b := by
  refine List.foldl_ext _ _ _ fun b p hp => ?_
  exact sweepPixel_congr fun k hk o ho =>
    Region.read_congr_oob ((staysInBuffer_of_mem hp hk).1 o ho) _

/-- The loop visits consecutive pixel numbers. -/
theorem map_position_loopPixels (R C : ℕ) :
    (loopPixels R C).map (position C) = Int.range (C + 1) ((R + 1) * C + 1) := by
  have h := Scan.map_product_range 1 1 R C
  rw [add_comm (1 : ℤ) R, add_comm (1 : ℤ) C, one_mul] at h
  exact h

/-- **The recurrence of the sweep**: a pixel of the window holds the mean of the final pixels
`C` and `1` before it and the initial pixels `0`, `1` and `C` after it. -/
theorem read_sweep_position (oob : ℤ → UInt8) (b : Buffer ((R + 2) * (C + 2) * 3)) {q : ℤ}
    (hq₀ : C + 1 ≤ q) (hq₁ : q ≤ (R + 1) * C) {k : ℤ} (hk : 0 ≤ k ∧ k < cn) :
    (sweep oob b).read oob (3 * q + k) =
      mean5 ((sweep oob b).read oob (3 * (q - C) + k)) ((sweep oob b).read oob (3 * (q - 1) + k))
        (b.read oob (3 * q + k)) (b.read oob (3 * (q + 1) + k)) (b.read oob (3 * (q + C) + k)) := by
  obtain ⟨hk₀, hk₁⟩ := hk
  simp only [cn] at hk₁
  have hC : 0 < C := by
    rcases Nat.eq_zero_or_pos C with h | h
    · rw [h, Nat.cast_zero, mul_zero] at hq₁
      omega
    · exact h
  have hwin : InWindow R C (3 * q + k) := by
    constructor <;> omega
  have hup : 3 * q + k - 3 * (C : ℤ) = 3 * (q - C) + k := by ring
  have hleft : 3 * q + k - 3 = 3 * (q - 1) + k := by ring
  have hright : 3 * q + k + 3 = 3 * (q + 1) + k := by ring
  have hdown : 3 * q + k + 3 * (C : ℤ) = 3 * (q + C) + k := by ring
  -- the pixels above and to the left are visited before, the pixels to the right and below after
  have hnewUp : 3 * (q - (C : ℤ)) + k < 3 * q + k := by omega
  have hnewLeft : 3 * (q - 1) + k < 3 * q + k := by omega
  have holdRight : ¬ 3 * (q + 1) + k < 3 * q + k := by omega
  have holdDown : ¬ 3 * (q + (C : ℤ)) + k < 3 * q + k := by omega
  rw [read_sweep_apply, if_pos hwin, Cross.mean]
  simp only [flatCross, hup, hleft, hright, hdown, Sweep.overlay, lt_irrefl, hnewUp, hnewLeft,
    holdRight, holdDown, if_true, if_false]
  exact mean5_congr (by omega)

/-- **The sweep touches one window of the buffer.**  All its reads and writes are in the buffer;
the pixel numbers it writes are `C + 1, …, (R + 1) * C` in this order; the bytes outside these
pixels keep their values; and the pixels of the window satisfy the recurrence of an in-place
sweep. -/
theorem sweep_window (oob : ℤ → UInt8) (b : Buffer ((R + 2) * (C + 2) * 3)) :
    (∀ p ∈ loopPixels R C, ∀ k, 0 ≤ k ∧ k < cn → StaysInBuffer R C p k) ∧
      (loopPixels R C).map (position C) = Int.range (C + 1) ((R + 1) * C + 1) ∧
      (∀ o, ¬ InWindow R C o → (sweep oob b).read oob o = b.read oob o) ∧
      ∀ q : ℤ, C + 1 ≤ q → q ≤ (R + 1) * C → ∀ k, 0 ≤ k ∧ k < cn →
        (sweep oob b).read oob (3 * q + k) =
          mean5 ((sweep oob b).read oob (3 * (q - C) + k))
            ((sweep oob b).read oob (3 * (q - 1) + k)) (b.read oob (3 * q + k))
            (b.read oob (3 * (q + 1) + k)) (b.read oob (3 * (q + C) + k)) := by
  refine ⟨fun p hp k hk => staysInBuffer_of_mem hp hk, map_position_loopPixels R C, fun o ho => ?_,
    fun q hq₀ hq₁ k hk => read_sweep_position oob b hq₀ hq₁ hk⟩
  rw [read_sweep_apply, if_neg ho]

end IterativeGaussSeidel

end KokkosStencil
