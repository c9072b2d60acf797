import KokkosStencil.Flat.Basic
import KokkosStencil.Mean.Luma
import KokkosStencil.Noise.Basic

/-!
# `opencv_simple.cpp`

The picture is disturbed `NOISE_ITER` times and then turned grey in place, pixel by pixel.

* `read_greyLoop` : every pixel becomes the grey level of its own three bytes, whatever has been
  written before;
* `greyMain_eq` : the program saves the grey picture of all rounds of noise but the last, and the
  picture of all rounds.
-/

namespace KokkosStencil

namespace OpencvSimple

/-- The body of the loops. -/
def greyPixel {size : ℕ} (wild : ℚ → UInt8) (cols : ℕ) (oob : ℤ → UInt8) (p : ℤ × ℤ)
    (pixelPtr : Buffer size) : Buffer size :=
  let (i, j) := p
  let b := pixelPtr.read oob (i * cols * cn + j * cn + 0)
  let g := pixelPtr.read oob (i * cols * cn + j * cn + 1)
  let r := pixelPtr.read oob (i * cols * cn + j * cn + 2)
  let grey := grey wild r g b
  ((pixelPtr.write (i * cols * cn + j * cn + 0) grey).write
    (i * cols * cn + j * cn + 1) grey).write
    (i * cols * cn + j * cn + 2) grey

variable {rows cols : ℕ}

/-- The loops. -/
def greyLoop (wild : ℚ → UInt8) (oob : ℤ → UInt8) (pixelPtr : Buffer (rows * cols * 3)) :
    Buffer (rows * cols * 3) :=
  (mdRange2 (0, 0) ((rows : ℤ), (cols : ℤ))).foldl (fun b p => greyPixel wild cols oob p b) pixelPtr

/-- The pictures that are written to files. -/
structure Saved (rows cols : ℕ) where
  /-- `grey_res.jpg` -/
  greyRes : Image rows cols
  /-- `noised_res.jpg` -/
  noisedRes : Image rows cols

/-- `main`, from the picture that was read to the pictures that are written, unless the picture is
empty.  `fresh` are the bytes of the newly allocated `mColorNoise`. -/
def main (noiseIter : ℕ) (wild : ℚ → UInt8) (oob : ℤ → UInt8) (noise : ℕ → NoiseField rows cols)
    (fresh img : Image rows cols) : Option (Saved rows cols) :=
  if rows = 0 ∨ cols = 0 then none
  else
    let s := noiseLoop noiseIter noise (Mats.start img fresh)
    some ⟨Image.ofData (greyLoop wild oob (s.heap s.front).data), s.heap s.back⟩

/-! ### The grey picture -/

/-- The grey level of pixel `p` of a flat picture. -/
def greyAt (wild : ℚ → UInt8) (cols : ℕ) (p : ℤ × ℤ) (m : ℤ → UInt8) : UInt8 :=
  grey wild (m (index cols p + 2)) (m (index cols p + 1)) (m (index cols p + 0))

theorem greyPixel_eq {size : ℕ} (wild : ℚ → UInt8) (cols : ℕ) (oob : ℤ → UInt8) (p : ℤ × ℤ)
    (b : Buffer size) : greyPixel wild cols oob p b =
      Region.scatter (fun _ => greyAt wild cols p (b.read oob)) (pixelBytes cols p) b := rfl

/-- **Every pixel becomes grey, from its own bytes.** -/
theorem read_greyLoop (wild : ℚ → UInt8) (oob : ℤ → UInt8) (b : Buffer (rows * cols * 3))
    {p : ℤ × ℤ} (hp : p ∈ mdRange2 (0, 0) ((rows : ℤ), (cols : ℤ))) {o : ℤ}
    (ho : o ∈ pixelBytes cols p) :
    (greyLoop wild oob b).read oob o = greyAt wild cols p (b.read oob) := by
  have hvalid : ∀ q ∈ mdRange2 (0, 0) ((rows : ℤ), (cols : ℤ)), ∀ o ∈ pixelBytes cols q,
      InBuffer (rows * cols * 3) o := fun q hq o ho => exists_mem_pixelBytes_iff.1 ⟨q, hq, ho⟩
  have hdisjoint : (mdRange2 (0, 0) ((rows : ℤ), (cols : ℤ))).Pairwise fun p q =>
      (pixelBytes cols p).Disjoint (pixelBytes cols q) :=
    (nodup_mdRange2 _ _).imp_of_mem fun hp hq => disjoint_pixelBytes hp hq
  have hown : ∀ q ∈ mdRange2 (0, 0) ((rows : ℤ), (cols : ℤ)), ∀ m m' : ℤ → UInt8,
      (∀ o ∈ pixelBytes cols q, m o = m' o) → ∀ o ∈ pixelBytes cols q,
        greyAt wild cols q m = greyAt wild cols q m' := by
    intro q _ m m' h _ _
    simp only [pixelBytes, List.mem_cons, List.not_mem_nil, or_false, forall_eq_or_imp,
      forall_eq] at h
    rw [greyAt, greyAt, h.1, h.2.1, h.2.2]
  exact Region.read_foldl_own (v := fun q m _ => greyAt wild cols q m) hvalid hdisjoint hown hp ho

/-- The picture with the grey levels of its pixels in all three channels. -/
def greyImage (wild : ℚ → UInt8) (v : Image rows cols) : Image rows cols := fun x =>
  let pixel := fun k => v.read (fun _ => 0) (x.1.1, x.1.2.1, k)
  grey wild (pixel 2) (pixel 1) (pixel 0)

theorem ofData_greyLoop (wild : ℚ → UInt8) (oob : ℤ → UInt8) (v : Image rows cols) :
    Image.ofData (greyLoop wild oob v.data) = greyImage wild v := by
  funext ⟨⟨i, j, k⟩, hx⟩
  obtain ⟨hi, hj, hk⟩ := id hx
  have hp : (i, j) ∈ mdRange2 (0, 0) ((rows : ℤ), (cols : ℤ)) := mem_mdRange2.2 ⟨hi, hj⟩
  have ho : pix cols (i, j, k) ∈ pixelBytes cols (i, j) := by
    simp only [cn] at hk
    simp only [pixelBytes, index, pix, List.mem_cons, List.not_mem_nil, or_false]
    omega
  have hbyte : ∀ c, 0 ≤ c ∧ c < cn →
      v.data.read oob (index cols (i, j) + c) = v.read (fun _ => 0) (i, j, c) :=
    fun c hc => Image.read_data (x := (i, j, c)) ⟨hi, hj, hc⟩ oob _
  have hread : Image.ofData (greyLoop wild oob v.data) ⟨(i, j, k), hx⟩ =
      (greyLoop wild oob v.data).read oob (pix cols (i, j, k)) :=
    (Region.read_of_valid (inBuffer_pix hx)).symm
  rw [hread, read_greyLoop wild oob v.data hp ho, greyAt, hbyte 2 (by decide),
    hbyte 1 (by decide), hbyte 0 (by decide)]
  rfl

/-- **What the program saves**, for `NOISE_ITER = n + 1`: the grey picture of the first `n` rounds
of noise, and the picture of all rounds. -/
theorem greyMain_eq (n : ℕ) (wild : ℚ → UInt8) (oob : ℤ → UInt8) (noise : ℕ → NoiseField rows cols)
    (fresh img : Image rows cols) : main (n + 1) wild oob noise fresh img =
      if rows = 0 ∨ cols = 0 then none
      else some ⟨greyImage wild (rounds noise img n), rounds noise img (n + 1)⟩ := by
  obtain ⟨hfront, hback⟩ := noiseLoop_succ noise n img fresh
  rw [main, ← hback, ← ofData_greyLoop wild oob, ← hfront]

end OpencvSimple

end KokkosStencil
