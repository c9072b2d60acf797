import KokkosStencil.Flat.Basic

/-!
# `iterative_jacobi.cpp`

Every outer iteration visits the pixels `0 ≤ i < img.rows`, `0 ≤ j < img.cols` and overwrites
each, in the buffer it reads from, by its mean.  `read_sweep` describes an iteration as an
in-place sweep of the first `img.rows * img.cols * 3` bytes of the buffer.
-/

namespace KokkosStencil

namespace IterativeJacobi

variable {R C : ℕ}

/-- The body of the loop: replace the bytes of pixel `(i, j)` by the means with the pixels to the
left, to the right, above and below. -/
def sweepPixel {size : ℕ} (cols : ℕ) (oob : ℤ → UInt8) (p : ℤ × ℤ) (pixelPtr : Buffer size) :
    Buffer size :=
  let (i, j) := p
  let px := pixelPtr.read oob
  let b := px (i * cols * cn + j * cn + 0)
  let g := px (i * cols * cn + j * cn + 1)
  let r := px (i * cols * cn + j * cn + 2)
  let left_r := px (i * cols * cn + (j - 1) * cn + 2)
  let left_g := px (i * cols * cn + (j - 1) * cn + 1)
  let left_b := px (i * cols * cn + (j - 1) * cn + 0)
  let right_r := px (i * cols * cn + (j + 1) * cn + 2)
  let right_g := px (i * cols * cn + (j + 1) * cn + 1)
  let right_b := px (i * cols * cn + (j + 1) * cn + 0)
  let up_r := px ((i - 1) * cols * cn + j * cn + 2)
  let up_g := px ((i - 1) * cols * cn + j * cn + 1)
  let up_b := px ((i - 1) * cols * cn + j * cn + 0)
  let down_r := px ((i + 1) * cols * cn + j * cn + 2)
  let down_g := px ((i + 1) * cols * cn + j * cn + 1)
  let down_b := px ((i + 1) * cols * cn + j * cn + 0)
  let avg_r := mean5 r left_r right_r up_r down_r
  let avg_g := mean5 g left_g right_g up_g down_g
  let avg_b := mean5 b left_b right_b up_b down_b
  ((pixelPtr.write (i * cols * cn + j * cn + 0) avg_b).write
    (i * cols * cn + j * cn + 1) avg_g).write
    (i * cols * cn + j * cn + 2) avg_r

/-- The pixels of the two inner loops, in their order. -/
def loopPixels (R C : ℕ) : List (ℤ × ℤ) := Int.range 0 R ×ˢ Int.range 0 C

/-- One outer iteration. -/
def sweep (oob : ℤ → UInt8) (pixelPtr : Buffer ((R + 2) * (C + 2) * 3)) :
    Buffer ((R + 2) * (C + 2) * 3) :=
  (loopPixels R C).foldl (fun b p => sweepPixel C oob p b) pixelPtr

/-- The bytes that an iteration changes, in its order. -/
def pictureBytes (R C : ℕ) : List ℤ := Int.range 0 (R * C * 3 : ℕ)

theorem mem_pictureBytes {o : ℤ} : o ∈ pictureBytes R C ↔ InBuffer (R * C * 3) o :=
  Int.mem_range_iff

theorem pairwise_pictureBytes : (pictureBytes R C).Pairwise (· < ·) := Scan.pairwise_range _ _

theorem flatMap_loopPixels (R C : ℕ) :
    (loopPixels R C).flatMap (pixelBytes C) = pictureBytes R C := by
  have h := pixelBytes_range 0 0 R C
  simp only [zero_add, zero_mul, mul_zero, add_zero] at h
  rw [loopPixels, h, pictureBytes]
  congr 1
  push_cast
  ring

theorem sweepPixel_eq {size : ℕ} (cols : ℕ) (oob : ℤ → UInt8) (p : ℤ × ℤ) (b : Buffer size) :
    sweepPixel cols oob p b =
      Region.scatter ((flatCross cols).mean (b.read oob)) (pixelBytes cols p) b := by
  obtain ⟨i, j⟩ := p
  have hmean : ∀ k : ℤ, mean5 (b.read oob (i * cols * cn + j * cn + k))
      (b.read oob (i * cols * cn + (j - 1) * cn + k))
      (b.read oob (i * cols * cn + (j + 1) * cn + k))
      (b.read oob ((i - 1) * cols * cn + j * cn + k))
      (b.read oob ((i + 1) * cols * cn + j * cn + k)) =
      (flatCross cols).mean (b.read oob) (index cols (i, j) + k) :=
    fun k => (mean_pix (b.read oob) cols (i, j) k).symm
  simp only [sweepPixel, hmean]
  rfl

/-- The body reads the buffer at the `stencilOffsets` only. -/
theorem sweepPixel_congr {size : ℕ} {cols : ℕ} {oob oob' : ℤ → UInt8} {p : ℤ × ℤ}
    {b : Buffer size} (h : ∀ k, 0 ≤ k ∧ k < cn → ∀ o ∈ stencilOffsets cols p k,
      b.read oob o = b.read oob' o) : sweepPixel cols oob p b = sweepPixel cols oob' p b := by
  rw [sweepPixel_eq, sweepPixel_eq]
  exact scatter_mean_congr h

/-- **An iteration is an in-place sweep of the first bytes of the buffer**, with the unpadded row
length. -/
theorem read_sweep (oob : ℤ → UInt8) (b : Buffer ((R + 2) * (C + 2) * 3)) :
    (sweep oob b).read oob =
      Sweep.inPlace (flatCross C).mean (pictureBytes R C) (b.read oob) :=
  read_foldl_pixels (sweepPixel_eq C oob) (flatMap_loopPixels R C)
    (fun _ ho => inBuffer_of_picture (mem_pictureBytes.1 ho)) b

end IterativeJacobi

end KokkosStencil
