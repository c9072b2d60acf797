import KokkosStencil.Flat.Basic

/-!
# `iterative_gauss_seidel.cpp`

The sweep visits the pixels `1 ≤ i ≤ img.rows`, `1 ≤ j ≤ img.cols` of the buffer of the padded
picture, whose rows have `img.cols + 2` pixels, with the row length `img.cols` in every offset.

* `read_sweep` : the loop is an in-place sweep of one interval of bytes, the window
  (`InWindow`), with neighbours at the unpadded row length;
* `paddedGaussSeidel_iff` : it performs a Gauss–Seidel sweep of the padded picture exactly when,
  along that sweep, the wrong row length makes no difference at any byte;
* `not_paddedGaussSeidel` : for every size there is a picture where it does.
-/

namespace KokkosStencil

namespace IterativeGaussSeidel

variable {R C : ℕ}

/-- The body of the loop: replace the bytes of pixel `(i, j)` by the means with the pixels above,
to the left, below and to the right. -/
def sweepPixel {size : ℕ} (cols : ℕ) (oob : ℤ → UInt8) (p : ℤ × ℤ) (pixelPtr : Buffer size) :
    Buffer size :=
  let (i, j) := p
  let px := pixelPtr.read oob
  let b := px (i * cols * cn + j * cn + 0)
  let g := px (i * cols * cn + j * cn + 1)
  let r := px (i * cols * cn + j * cn + 2)
  let up_b := px ((i - 1) * cols * cn + j * cn + 0)
  let up_g := px ((i - 1) * cols * cn + j * cn + 1)
  let up_r := px ((i - 1) * cols * cn + j * cn + 2)
  let down_b := px ((i + 1) * cols * cn + j * cn + 0)
  let down_g := px ((i + 1) * cols * cn + j * cn + 1)
  let down_r := px ((i + 1) * cols * cn + j * cn + 2)
  let left_b := px (i * cols * cn + (j - 1) * cn + 0)
  let left_g := px (i * cols * cn + (j - 1) * cn + 1)
  let left_r := px (i * cols * cn + (j - 1) * cn + 2)
  let right_b := px (i * cols * cn + (j + 1) * cn + 0)
  let right_g := px (i * cols * cn + (j + 1) * cn + 1)
  let right_r := px (i * cols * cn + (j + 1) * cn + 2)
  let avg_b := mean5 up_b left_b down_b right_b b
  let avg_g := mean5 up_g left_g down_g right_g g
  let avg_r := mean5 up_r left_r down_r right_r r
  ((pixelPtr.write (i * cols * cn + j * cn + 0) avg_b).write
    (i * cols * cn + j * cn + 1) avg_g).write
    (i * cols * cn + j * cn + 2) avg_r

/-- The pixels of the double loop, in its order. -/
def loopPixels (R C : ℕ) : List (ℤ × ℤ) := Int.range 1 (R + 1) ×ˢ Int.range 1 (C + 1)

/-- The double loop. -/
def sweep (oob : ℤ → UInt8) (pixelPtr : Buffer ((R + 2) * (C + 2) * 3)) :
    Buffer ((R + 2) * (C + 2) * 3) :=
  (loopPixels R C).foldl (fun b p => sweepPixel C oob p b) pixelPtr

/-! ### The loop is a sweep of an interval of bytes -/

/-- The bytes of the pixels `C + 1, …, (R + 1) * C`. -/
def InWindow (R C : ℕ) (o : ℤ) : Prop := 3 * (C + 1 : ℤ) ≤ o ∧ o < 3 * ((R + 1) * C + 1 : ℤ)

instance : DecidablePred (InWindow R C) := fun _ => inferInstanceAs (Decidable (_ ∧ _))

/-- The window as a list of offsets. -/
def window (R C : ℕ) : List ℤ := Int.range (3 * (C + 1 : ℤ)) (3 * ((R + 1) * C + 1 : ℤ))

theorem pairwise_window : (window R C).Pairwise (· < ·) := Scan.pairwise_range _ _

theorem mem_window {o : ℤ} : o ∈ window R C ↔ InWindow R C o := Int.mem_range_iff

theorem inBuffer_of_inWindow {o : ℤ} (h : InWindow R C o) : InBuffer ((R + 2) * (C + 2) * 3) o := by
  obtain ⟨h₀, h₁⟩ := h
  have hexp : ((R : ℤ) + 1) * C = R * C + C := by ring
  rw [hexp] at h₁
  refine ⟨by omega, ?_⟩
  rw [size_eq]
  omega

theorem flatMap_loopPixels (R C : ℕ) :
    (loopPixels R C).flatMap (pixelBytes C) = window R C := by
  have h := pixelBytes_range 1 1 R C
  rw [add_comm (1 : ℤ) R, add_comm (1 : ℤ) C] at h
  rw [loopPixels, h, window]
  congr 2
  ring

theorem sweepPixel_eq {size : ℕ} (cols : ℕ) (oob : ℤ → UInt8) (p : ℤ × ℤ) (b : Buffer size) :
    sweepPixel cols oob p b =
      Region.scatter ((flatCross cols).mean (b.read oob)) (pixelBytes cols p) b := by
  obtain ⟨i, j⟩ := p
  have hmean : ∀ k : ℤ, mean5 (b.read oob ((i - 1) * cols * cn + j * cn + k))
      (b.read oob (i * cols * cn + (j - 1) * cn + k))
      (b.read oob ((i + 1) * cols * cn + j * cn + k))
      (b.read oob (i * cols * cn + (j + 1) * cn + k))
      (b.read oob (i * cols * cn + j * cn + k)) =
      (flatCross cols).mean (b.read oob) (index cols (i, j) + k) := by
    intro k
    refine Eq.trans ?_ (mean_pix (b.read oob) cols (i, j) k).symm
    exact mean5_congr (by simp only [pix]; omega)
  simp only [sweepPixel, hmean]
  rfl

/-- The body reads the buffer at the `stencilOffsets` only. -/
theorem sweepPixel_congr {size : ℕ} {cols : ℕ} {oob oob' : ℤ → UInt8} {p : ℤ × ℤ}
    {b : Buffer size} (h : ∀ k, 0 ≤ k ∧ k < cn → ∀ o ∈ stencilOffsets cols p k,
      b.read oob o = b.read oob' o) : sweepPixel cols oob p b = sweepPixel cols oob' p b := by
  rw [sweepPixel_eq, sweepPixel_eq]
  exact scatter_mean_congr h

/-- **The double loop is an in-place sweep of the window**, with the unpadded row length. -/
theorem read_sweep (oob : ℤ → UInt8) (b : Buffer ((R + 2) * (C + 2) * 3)) :
    (sweep oob b).read oob =
      Sweep.inPlace (flatCross C).mean (window R C) (b.read oob) :=
  read_foldl_pixels (sweepPixel_eq C oob) (flatMap_loopPixels R C)
    (fun _ ho => inBuffer_of_inWindow (mem_window.1 ho)) b

/-- A byte of the window becomes the mean of itself, the new bytes before it and the old bytes
after it; the other bytes stay. -/
theorem read_sweep_apply (oob : ℤ → UInt8) (b : Buffer ((R + 2) * (C + 2) * 3)) (o : ℤ) :
    (sweep oob b).read oob o = if InWindow R C o then
      (flatCross C).mean (Sweep.overlay (· < o) ((sweep oob b).read oob) (b.read oob)) o
    else b.read oob o :=
  (Sweep.inPlace_eq_iff_visit Scan.lt_asymm_int pairwise_window fun _ => mem_window).1
    (read_sweep oob b).symm o

/-! ### Gauss–Seidel on the padded picture -/

/-- `new` is what a sequential Gauss–Seidel sweep makes of the padded picture `old`: every
interior pixel is the mean of its old value, the new pixels above and to the left and the old
pixels below and to the right, and the padding is as it was. -/
def PaddedGaussSeidel (old new : Image (R + 2) (C + 2)) : Prop :=
  ∀ k, 0 ≤ k ∧ k < cn →
    (∀ p, Grid.Interior R C p → new.plane k p =
      mean5 (old.plane k p) (new.plane k (p.1 - 1, p.2)) (new.plane k (p.1, p.2 - 1))
        (old.plane k (p.1 + 1, p.2)) (old.plane k (p.1, p.2 + 1))) ∧
    ∀ p, Grid.Border R C p → new.plane k p = old.plane k p

/-- The bytes of the interior, in ascending order. -/
def interiorBytes (R C : ℕ) : List ℤ :=
  (Int.range 0 ((R + 2) * (C + 2) * 3 : ℕ)).filter fun o => InteriorByte R C o

theorem mem_interiorBytes {o : ℤ} : o ∈ interiorBytes R C ↔ InteriorByte R C o := by
  rw [interiorBytes, List.mem_filter, Int.mem_range_iff, decide_eq_true_iff]
  exact and_iff_right_of_imp inBuffer_of_interiorByte

theorem pairwise_interiorBytes : (interiorBytes R C).Pairwise (· < ·) :=
  (Scan.pairwise_range _ _).filter _

/-- What a Gauss–Seidel sweep of the padded picture leaves in the buffer. -/
def paddedSweep (oob : ℤ → UInt8) (b : Buffer ((R + 2) * (C + 2) * 3)) : ℤ → UInt8 :=
  Sweep.inPlace (flatCross (C + 2)).mean (interiorBytes R C) (b.read oob)

theorem pix_up_lt (p : ℤ × ℤ) (k : ℤ) :
    pix (C + 2) (p.1 - 1, p.2, k) < pix (C + 2) (p.1, p.2, k) := by
  rw [← flatCross_up]
  simp only [flatCross]
  omega

theorem pix_left_lt (p : ℤ × ℤ) (k : ℤ) :
    pix (C + 2) (p.1, p.2 - 1, k) < pix (C + 2) (p.1, p.2, k) := by
  rw [← flatCross_left]
  simp only [flatCross]
  omega

theorem not_pix_down_lt (p : ℤ × ℤ) (k : ℤ) :
    ¬ pix (C + 2) (p.1 + 1, p.2, k) < pix (C + 2) (p.1, p.2, k) := by
  rw [← flatCross_down]
  simp only [flatCross]
  omega

theorem not_pix_right_lt (p : ℤ × ℤ) (k : ℤ) :
    ¬ pix (C + 2) (p.1, p.2 + 1, k) < pix (C + 2) (p.1, p.2, k) := by
  rw [← flatCross_right]
  simp only [flatCross]
  omega

/-- At an interior byte, the bytes above and to the left come before it and the others after. -/
theorem mean_overlay_pix {b b' : Buffer ((R + 2) * (C + 2) * 3)} (oob : ℤ → UInt8) {p : ℤ × ℤ}
    {k : ℤ} (hp : Grid.Interior R C p) (hk : 0 ≤ k ∧ k < cn) :
    (flatCross (C + 2)).mean (Sweep.overlay (· < pix (C + 2) (p.1, p.2, k)) (b'.read oob)
        (b.read oob)) (pix (C + 2) (p.1, p.2, k)) =
      mean5 ((Image.ofData b).plane k p) ((Image.ofData b').plane k (p.1 - 1, p.2))
        ((Image.ofData b').plane k (p.1, p.2 - 1)) ((Image.ofData b).plane k (p.1 + 1, p.2))
        ((Image.ofData b).plane k (p.1, p.2 + 1)) := by
  obtain ⟨hself, -, hright, -, hdown⟩ := read_pix_cross (b := b) oob hp hk
  obtain ⟨-, hleft, -, hup, -⟩ := read_pix_cross (b := b') oob hp hk
  rw [mean_pix]
  simp only [Sweep.overlay, lt_irrefl, pix_left_lt, pix_up_lt, not_pix_right_lt, not_pix_down_lt,
    if_true, if_false]
  rw [hself, hleft, hright, hup, hdown]
  exact mean5_congr (by omega)

/-- The equations of a Gauss–Seidel sweep, byte by byte. -/
theorem paddedGaussSeidel_iff_read (b b' : Buffer ((R + 2) * (C + 2) * 3)) (oob : ℤ → UInt8) :
    PaddedGaussSeidel (Image.ofData b) (Image.ofData b') ↔
      paddedSweep oob b = b'.read oob := by
  rw [paddedSweep, Sweep.inPlace_eq_iff_visit Scan.lt_asymm_int pairwise_interiorBytes
    fun _ => mem_interiorBytes]
  -- outside the buffer both sides are the stray read
  rw [forall_offset_iff fun o ho => by
    rw [if_neg fun hi => ho (inBuffer_of_interiorByte hi), Region.read_of_invalid ho,
      Region.read_of_invalid ho]]
  refine forall₂_congr fun k hk => and_congr (forall₂_congr fun p hp => ?_)
    (forall₂_congr fun p hp => ?_)
  · have hx := (inExtents_pad_iff hk).2 (Or.inl hp)
    rw [if_pos ((interiorByte_pix hx).2 hp), mean_overlay_pix oob hp hk, read_pix hx]
  · have hx := (inExtents_pad_iff hk).2 (Or.inr hp)
    rw [if_neg fun h => hp.2 ((interiorByte_pix hx).1 h), read_pix hx, read_pix hx]

/-! ### When the row length does not show -/

/-- Along a Gauss–Seidel sweep of the padded picture in `b`, the wrong row length makes no
difference at any byte. -/
def RowLengthHidden (oob : ℤ → UInt8) (b : Buffer ((R + 2) * (C + 2) * 3)) : Prop :=
  ∀ o, RowLengthHiddenAt R C (InWindow R C)
    (Sweep.overlay (· < o) (paddedSweep oob b) (b.read oob)) (b.read oob) o

/-- **When the program computes Gauss–Seidel** on the padded picture: iff the wrong row length is
hidden along the way.  Reads outside the buffer do not occur, so `oob` is arbitrary. -/
theorem paddedGaussSeidel_iff (oob : ℤ → UInt8) (b : Buffer ((R + 2) * (C + 2) * 3)) :
    PaddedGaussSeidel (Image.ofData b) (Image.ofData (sweep oob b)) ↔ RowLengthHidden oob b := by
  rw [paddedGaussSeidel_iff_read b _ oob, eq_comm, read_sweep]
  refine (Sweep.inPlace_eq_inPlace_iff Scan.lt_asymm_int pairwise_window pairwise_interiorBytes
    (fun _ => mem_window) (fun _ => mem_interiorBytes) rfl).trans ?_
  exact forall_congr' fun o => rowLengthHiddenAt_iff

/-! ### A picture of every size that shows it -/

/-- A black picture but for one byte of the last pixel of its first row, the first byte that the
loop changes. -/
def whiteFirst (R C : ℕ) : Buffer ((R + 2) * (C + 2) * 3) :=
  fun o => if o.1 = 3 * (C + 1) then 255 else 0

theorem read_whiteFirst {o : ℤ} (h : InBuffer ((R + 2) * (C + 2) * 3) o) (oob : ℤ → UInt8) :
    (whiteFirst R C).read oob o = if o = 3 * (C + 1) then 255 else 0 := Region.read_of_valid h

/-- For every size, the loop changes a byte of the padding of this picture. -/
theorem not_paddedGaussSeidel (hR : 0 < R) (hC : 0 < C) (oob : ℤ → UInt8) :
    ¬ PaddedGaussSeidel (Image.ofData (whiteFirst R C))
      (Image.ofData (sweep oob (whiteFirst R C))) := by
  intro h
  have hRC : (C : ℤ) ≤ R * C := by
    have := Nat.le_mul_of_pos_left C hR
    exact_mod_cast this
  have hin : InWindow R C (3 * (C + 1)) := ⟨le_rfl, by linarith⟩
  -- around the white byte everything is black, before the sweep and after it
  have hblack : ∀ q : ℤ, 0 ≤ q → q ≤ 3 * (2 * C + 1) → q ≠ 3 * (C + 1) →
      Sweep.overlay (· < 3 * (C + 1 : ℤ)) ((sweep oob (whiteFirst R C)).read oob)
        ((whiteFirst R C).read oob) q = 0 := by
    intro q h₀ h₁ hne
    have hold : (whiteFirst R C).read oob q = 0 := by
      rw [read_whiteFirst (inBuffer_of_twoRows h₀ (by omega)), if_neg hne]
    by_cases hlt : q < 3 * (C + 1 : ℤ)
    · have hout : ¬ InWindow R C q := fun hq => absurd hq.1 (by omega)
      refine (if_pos hlt).trans ?_
      rw [read_sweep_apply, if_neg hout, hold]
    · exact (if_neg hlt).trans hold
  have hself : Sweep.overlay (· < 3 * (C + 1 : ℤ)) ((sweep oob (whiteFirst R C)).read oob)
      ((whiteFirst R C).read oob) (3 * (C + 1)) = 255 := by
    refine (if_neg (lt_irrefl _)).trans ?_
    rw [read_whiteFirst (inBuffer_of_twoRows (by omega) (by omega)), if_pos rfl]
  have hborder : Grid.Border R C (0, (C + 1 : ℤ)) := by
    simp only [Grid.Border, Grid.Interior]; omega
  have hchannel : (0 : ℤ) ≤ 0 ∧ (0 : ℤ) < cn := by decide
  have hx := (inExtents_pad_iff hchannel).2 (Or.inr hborder)
  have hpix : pix (C + 2) (0, C + 1, 0) = 3 * (C + 1) := by rw [pix_eq]; ring
  have hkeep := (h 0 hchannel).2 _ hborder
  rw [← read_pix hx oob, ← read_pix hx oob, hpix, read_sweep_apply, if_pos hin, Cross.mean, hself,
    read_whiteFirst (inBuffer_of_twoRows (by omega) (by omega)), if_pos rfl] at hkeep
  simp only [flatCross] at hkeep
  rw [hblack _ (by omega) (by omega) (by omega), hblack _ (by omega) (by omega) (by omega),
    hblack _ (by omega) (by omega) (by omega), hblack _ (by omega) (by omega) (by omega)] at hkeep
  revert hkeep
  decide

/-- In the padded `1 × 1` picture, the loop replaces the last white byte `255` of the first row by
`51`. -/
theorem not_paddedGaussSeidel_one_one :
    ¬ PaddedGaussSeidel (Image.ofData (whiteFirst 1 1))
      (Image.ofData (sweep (fun _ => 0) (whiteFirst 1 1))) :=
  not_paddedGaussSeidel Nat.one_pos Nat.one_pos _

end IterativeGaussSeidel

end KokkosStencil
