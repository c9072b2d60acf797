import KokkosStencil.Flat.Jacobi

/-!
# `cpu_parallel_jacobi.cpp`

Three kernels work on `pixelPtr` and two flat views of its size.  `init_image` copies the padded
picture to `img_in` with the padded row length; `apply_jacobi` and `output_image` range over
`{0, 0}, {img.rows, img.cols}` with the row length `img.cols`.

* `read_filter` : the kernels recompute the first `R * C * 3` bytes from the old buffer, with the
  unpadded row length;
* `pixelPtr_eq_iff` : they leave what an iteration of `iterative_jacobi.cpp` leaves exactly when no
  byte notices that the bytes before it have been recomputed;
* `paddedJacobi_iff` : they filter the padded picture exactly when the wrong row length makes no
  difference at any byte; for every size there is a picture where it does (`not_paddedJacobi`).
-/

namespace KokkosStencil

namespace CpuParallelJacobi

variable {R C : ℕ}

/-- The memory of the program. -/
structure Memory (R C : ℕ) where
  /-- `image_pad.data` -/
  pixelPtr : Buffer ((R + 2) * (C + 2) * 3)
  /-- The view `img_in` of `pad_image_size` bytes. -/
  imgIn : Buffer ((R + 2) * (C + 2) * 3)
  /-- The view `img_out` of `pad_image_size` bytes. -/
  imgOut : Buffer ((R + 2) * (C + 2) * 3)

/-- What reads outside an allocation return, for every body `(i, j)` and every offset. -/
abbrev BodyReads := ℤ × ℤ → ℤ → UInt8

/-- The policy `original_image`. -/
def originalImage (R C : ℕ) : List (ℤ × ℤ) := mdRange2 (0, 0) ((R : ℤ), (C : ℤ))

/-- The body of `init_image`. -/
def initImage (oob : BodyReads) (p : ℤ × ℤ) (s : Memory R C) : Memory R C :=
  let (i, j) := p
  let index := i * ((C + 2 : ℕ) : ℤ) * cn + j * cn
  let px := s.pixelPtr.read (oob p)
  let imgIn := ((s.imgIn.write (index + 0) (px (index + 0))).write
    (index + 1) (px (index + 1))).write (index + 2) (px (index + 2))
  let imgOut := ((s.imgOut.write (index + 0) 0).write (index + 1) 0).write (index + 2) 0
  ⟨s.pixelPtr, imgIn, imgOut⟩

/-- The body of `apply_jacobi`. -/
def applyJacobi (oob : BodyReads) (p : ℤ × ℤ) (s : Memory R C) : Memory R C :=
  let (i, j) := p
  let index := i * C * cn + j * cn
  let imgIn := s.imgIn.read (oob p)
  let b := imgIn (index + 0)
  let g := imgIn (index + 1)
  let r := imgIn (index + 2)
  let left_r := imgIn (i * C * cn + (j - 1) * cn + 2)
  let left_g := imgIn (i * C * cn + (j - 1) * cn + 1)
  let left_b := imgIn (i * C * cn + (j - 1) * cn + 0)
  let right_r := imgIn (i * C * cn + (j + 1) * cn + 2)
  let right_g := imgIn (i * C * cn + (j + 1) * cn + 1)
  let right_b := imgIn (i * C * cn + (j + 1) * cn + 0)
  let up_r := imgIn ((i - 1) * C * cn + j * cn + 2)
  let up_g := imgIn ((i - 1) * C * cn + j * cn + 1)
  let up_b := imgIn ((i - 1) * C * cn + j * cn + 0)
  let down_r := imgIn ((i + 1) * C * cn + j * cn + 2)
  let down_g := imgIn ((i + 1) * C * cn + j * cn + 1)
  let down_b := imgIn ((i + 1) * C * cn + j * cn + 0)
  let avg_r := mean5 r left_r right_r up_r down_r
  let avg_g := mean5 g left_g right_g up_g down_g
  let avg_b := mean5 b left_b right_b up_b down_b
  let imgOut := ((s.imgOut.write (index + 0) avg_b).write (index + 1) avg_g).write
    (index + 2) avg_r
  ⟨s.pixelPtr, s.imgIn, imgOut⟩

/-- The body of `output_image`. -/
def outputImage (oob : BodyReads) (p : ℤ × ℤ) (s : Memory R C) : Memory R C :=
  let (i, j) := p
  let index := i * C * cn + j * cn
  let imgOut := s.imgOut.read (oob p)
  let pixelPtr := ((s.pixelPtr.write (index + 0) (imgOut (index + 0))).write
    (index + 1) (imgOut (index + 1))).write (index + 2) (imgOut (index + 2))
  ⟨pixelPtr, s.imgIn, s.imgOut⟩

/-- An order for each of the three launches. -/
structure Orders (R C : ℕ) where
  /-- Of `init_image`. -/
  init : LaunchOrder (fullImage R C)
  /-- Of `apply_jacobi`. -/
  apply : LaunchOrder (originalImage R C)
  /-- Of `output_image`. -/
  output : LaunchOrder (originalImage R C)

/-- Every launch in the order of its policy. -/
def inOrder (R C : ℕ) : Orders R C :=
  ⟨LaunchOrder.inOrder _, LaunchOrder.inOrder _, LaunchOrder.inOrder _⟩

/-- The three kernels. -/
def filter (oob : BodyReads) (o : Orders R C) (s : Memory R C) : Memory R C :=
  let s := launch o.init (initImage oob) s
  let s := launch o.apply (applyJacobi oob) s
  launch o.output (outputImage oob) s

/-! ### What the kernels do -/

/-- The mean that the body of its pixel computes for byte `o`. -/
def stencil (oob : BodyReads) (b : Buffer ((R + 2) * (C + 2) * 3)) (o : ℤ) : UInt8 :=
  (flatCross C).mean (b.read (oob (pixelOf C o))) o

theorem initImage_eq (oob : BodyReads) (p : ℤ × ℤ) (s : Memory R C) : initImage oob p s =
    ⟨s.pixelPtr, Region.scatter (s.pixelPtr.read (oob p)) (pixelBytes (C + 2) p) s.imgIn,
      Region.scatter (fun _ => 0) (pixelBytes (C + 2) p) s.imgOut⟩ := rfl

theorem outputImage_eq (oob : BodyReads) (p : ℤ × ℤ) (s : Memory R C) : outputImage oob p s =
    ⟨Region.scatter (s.imgOut.read (oob p)) (pixelBytes C p) s.pixelPtr, s.imgIn, s.imgOut⟩ := rfl

theorem applyJacobi_eq (oob : BodyReads) (p : ℤ × ℤ) (s : Memory R C) : applyJacobi oob p s =
    ⟨s.pixelPtr, s.imgIn, Region.scatter ((flatCross C).mean (s.imgIn.read (oob p)))
      (pixelBytes C p) s.imgOut⟩ := by
  obtain ⟨i, j⟩ := p
  have hmean : ∀ k : ℤ, mean5 (s.imgIn.read (oob (i, j)) (i * C * cn + j * cn + k))
      (s.imgIn.read (oob (i, j)) (i * C * cn + (j - 1) * cn + k))
      (s.imgIn.read (oob (i, j)) (i * C * cn + (j + 1) * cn + k))
      (s.imgIn.read (oob (i, j)) ((i - 1) * C * cn + j * cn + k))
      (s.imgIn.read (oob (i, j)) ((i + 1) * C * cn + j * cn + k)) =
      (flatCross C).mean (s.imgIn.read (oob (i, j))) (index C (i, j) + k) :=
    fun k => (mean_pix _ C (i, j) k).symm
  simp only [applyJacobi, hmean]
  rfl

/-- The body of `apply_jacobi` reads `img_in` at the `stencilOffsets` only. -/
theorem applyJacobi_congr {oob oob' : BodyReads} {p : ℤ × ℤ} {s : Memory R C}
    (h : ∀ k, 0 ≤ k ∧ k < cn → ∀ o ∈ stencilOffsets C p k,
      s.imgIn.read (oob p) o = s.imgIn.read (oob' p) o) :
    applyJacobi oob p s = applyJacobi oob' p s := by
  rw [applyJacobi_eq, applyJacobi_eq, scatter_mean_congr h]

/-- `full_image` reaches every byte of the buffer. -/
theorem exists_fullImage_iff {o : ℤ} : (∃ p ∈ fullImage R C, o ∈ pixelBytes (C + 2) p) ↔
    InBuffer ((R + 2) * (C + 2) * 3) o := exists_mem_pixelBytes_iff

/-- `original_image`, with the row length of the kernels, reaches the first bytes. -/
theorem exists_originalImage_iff {o : ℤ} : (∃ p ∈ originalImage R C, o ∈ pixelBytes C p) ↔
    InBuffer (R * C * 3) o := exists_mem_pixelBytes_iff

theorem inBuffer_of_fullImage {p : ℤ × ℤ} (hp : p ∈ fullImage R C) :
    ∀ o ∈ pixelBytes (C + 2) p, InBuffer ((R + 2) * (C + 2) * 3) o :=
  fun _ ho => exists_fullImage_iff.1 ⟨p, hp, ho⟩

theorem inBuffer_of_originalImage {p : ℤ × ℤ} (hp : p ∈ originalImage R C) :
    ∀ o ∈ pixelBytes C p, InBuffer ((R + 2) * (C + 2) * 3) o :=
  fun _ ho => inBuffer_of_picture (exists_originalImage_iff.1 ⟨p, hp, ho⟩)

/-- `init_image` leaves the picture in `img_in` and in `pixelPtr`. -/
theorem launch_initImage (oob : BodyReads) (o : LaunchOrder (fullImage R C)) (s : Memory R C) :
    (launch o (initImage oob) s).pixelPtr = s.pixelPtr ∧
      (launch o (initImage oob) s).imgIn = s.pixelPtr := by
  have hI : ∀ p t, t.pixelPtr = s.pixelPtr → (initImage oob p t).pixelPtr = s.pixelPtr :=
    fun p t ht => ht
  have hbody : ∀ p ∈ fullImage R C, ∀ t : Memory R C, t.pixelPtr = s.pixelPtr →
      (initImage oob p t).imgIn =
        Region.scatter (s.pixelPtr.read fun _ => 0) (pixelBytes (C + 2) p) t.imgIn := by
    intro p hp t ht
    have hval := inBuffer_of_fullImage hp
    rw [initImage_eq, ht]
    exact Region.scatter_congr hval (fun _ => Iff.rfl)
      fun q hq => Region.read_congr_oob (hval q hq) _
  refine ⟨(launch_scatter Memory.imgIn o hI hbody rfl).1, ?_⟩
  refine Region.ext_read (fun _ => 0) fun q hq => ?_
  rw [read_launch Memory.imgIn o hI hbody (fun p => inBuffer_of_fullImage) rfl,
    if_pos (exists_fullImage_iff.2 hq)]

/-- `apply_jacobi` leaves `pixelPtr` alone and the means in `img_out`. -/
theorem launch_applyJacobi (oob : BodyReads) (o : LaunchOrder (originalImage R C))
    (s : Memory R C) : (launch o (applyJacobi oob) s).pixelPtr = s.pixelPtr ∧
      ∀ r q, InBuffer (R * C * 3) q →
        (launch o (applyJacobi oob) s).imgOut.read r q = stencil oob s.imgIn q := by
  have hI : ∀ p (t : Memory R C), t.pixelPtr = s.pixelPtr ∧ t.imgIn = s.imgIn →
      (applyJacobi oob p t).pixelPtr = s.pixelPtr ∧ (applyJacobi oob p t).imgIn = s.imgIn :=
    fun p t ht => ht
  have hbody : ∀ p ∈ originalImage R C, ∀ t : Memory R C,
      t.pixelPtr = s.pixelPtr ∧ t.imgIn = s.imgIn → (applyJacobi oob p t).imgOut =
        Region.scatter (stencil oob s.imgIn) (pixelBytes C p) t.imgOut := by
    intro p hp t ht
    rw [applyJacobi_eq, ht.2]
    refine Region.scatter_congr (inBuffer_of_originalImage hp) (fun _ => Iff.rfl) fun q hq => ?_
    rw [stencil, pixelOf_eq (mem_mdRange2.1 hp).2 hq]
  refine ⟨(launch_scatter Memory.imgOut o hI hbody ⟨rfl, rfl⟩).1.1, fun r q hq => ?_⟩
  rw [read_launch Memory.imgOut o hI hbody (fun p => inBuffer_of_originalImage) ⟨rfl, rfl⟩,
    if_pos (exists_originalImage_iff.2 hq)]

/-- `output_image` copies the first bytes of `img_out` to `pixelPtr`. -/
theorem launch_outputImage (oob : BodyReads) (o : LaunchOrder (originalImage R C))
    (s : Memory R C) (r : ℤ → UInt8) (q : ℤ) :
    (launch o (outputImage oob) s).pixelPtr.read r q =
      if InBuffer (R * C * 3) q then s.imgOut.read r q else s.pixelPtr.read r q := by
  have hI : ∀ p (t : Memory R C), t.imgOut = s.imgOut → (outputImage oob p t).imgOut = s.imgOut :=
    fun p t ht => ht
  have hbody : ∀ p ∈ originalImage R C, ∀ t : Memory R C, t.imgOut = s.imgOut →
      (outputImage oob p t).pixelPtr =
        Region.scatter (s.imgOut.read r) (pixelBytes C p) t.pixelPtr := by
    intro p hp t ht
    have hval := inBuffer_of_originalImage hp
    rw [outputImage_eq, ht]
    exact Region.scatter_congr hval (fun _ => Iff.rfl)
      fun q hq => Region.read_congr_oob (hval q hq) _
  rw [read_launch Memory.pixelPtr o hI hbody (fun p => inBuffer_of_originalImage) rfl]
  simp only [exists_originalImage_iff]

/-- **The kernels recompute the first `R * C * 3` bytes from the old buffer** and keep the others,
in every order of their bodies. -/
theorem read_filter (oob : BodyReads) (o : Orders R C) (s : Memory R C) (r : ℤ → UInt8) (q : ℤ) :
    (filter oob o s).pixelPtr.read r q =
      if InBuffer (R * C * 3) q then stencil oob s.pixelPtr q else s.pixelPtr.read r q := by
  obtain ⟨hptr, hin⟩ := launch_initImage oob o.init s
  obtain ⟨hptr', hout⟩ := launch_applyJacobi oob o.apply (launch o.init (initImage oob) s)
  rw [filter, launch_outputImage, hptr', hptr]
  by_cases hq : InBuffer (R * C * 3) q
  · rw [if_pos hq, if_pos hq, hout r q hq, hin]
  · rw [if_neg hq, if_neg hq]

/-! ### One sweep of `iterative_jacobi.cpp` -/

/-- The bytes of the picture before byte `o`. -/
def EarlierByte (R C : ℕ) (o q : ℤ) : Prop := InBuffer (R * C * 3) q ∧ q < o

instance (o : ℤ) : DecidablePred (EarlierByte R C o) := fun _ => inferInstanceAs (Decidable (_ ∧ _))

/-- **When the two programs agree**: iff at every byte, recomputing the bytes before it leaves its
own mean as it was; what the neighbours among them lose does not carry the sum at the byte across
a multiple of `5`. -/
theorem pixelPtr_eq_iff (oob : ℤ → UInt8) (o : Orders R C) (s : Memory R C) :
    IterativeJacobi.sweep oob s.pixelPtr = (filter (fun _ => oob) o s).pixelPtr ↔
      ∀ q, InBuffer (R * C * 3) q →
        (flatCross C).Steady (EarlierByte R C q) (s.pixelPtr.read oob) q := by
  have hcpu : (filter (fun _ => oob) o s).pixelPtr.read oob =
      Sweep.simultaneous (InBuffer (R * C * 3)) (flatCross C).mean (s.pixelPtr.read oob) := by
    funext q
    exact read_filter (fun _ => oob) o s oob q
  have hearlier : ∀ p q, EarlierByte R C p q ↔ InBuffer (R * C * 3) q ∧ q < p :=
    fun _ _ => Iff.rfl
  rw [← Region.read_inj oob, IterativeJacobi.read_sweep, hcpu,
    Sweep.inPlace_eq_simultaneous_iff Scan.lt_asymm_int IterativeJacobi.pairwise_pictureBytes
      (fun _ => IterativeJacobi.mem_pictureBytes) hearlier]
  refine forall₂_congr fun q _ => ?_
  exact (flatCross C).mean_simultaneous_eq_iff fun h => lt_irrefl q h.2

/-- Black but for the first byte of the buffer. -/
def whiteCorner (R C : ℕ) : Memory R C :=
  ⟨fun o => if o.1 = 0 then 255 else 0, fun _ => 0, fun _ => 0⟩

/-- In a picture of two pixels the second reads the first: it becomes `255 / 5 = 51` from the old
byte and `51 / 5 = 10` from the new one. -/
theorem sweep_ne_filter :
    IterativeJacobi.sweep (fun _ => 0) (whiteCorner 1 2).pixelPtr ≠
      (filter (fun _ _ => 0) (inOrder 1 2) (whiteCorner 1 2)).pixelPtr := by
  intro h
  have hbyte := congrArg (fun b => Region.read b (fun _ => 0) 3) h
  simp only [IterativeJacobi.read_sweep, read_filter] at hbyte
  revert hbyte
  decide

/-! ### The padded picture -/

/-- `new` is the padded picture `old` filtered: every interior pixel is the mean of itself and its
neighbours, and the padding is as it was. -/
def PaddedJacobi (old new : Image (R + 2) (C + 2)) : Prop :=
  ∀ k, 0 ≤ k ∧ k < cn →
    (∀ p, Grid.Interior R C p → new.plane k p = Grid.cross.mean (old.plane k) p) ∧
    ∀ p, Grid.Border R C p → new.plane k p = old.plane k p

/-- **When the program filters the picture it padded**: iff the wrong row length makes no
difference at any byte. -/
theorem paddedJacobi_iff (oob : BodyReads) (o : Orders R C) (s : Memory R C) :
    PaddedJacobi (Image.ofData s.pixelPtr) (Image.ofData (filter oob o s).pixelPtr) ↔
      ∀ q, InBuffer ((R + 2) * (C + 2) * 3) q →
        RowLengthHiddenAt R C (InBuffer (R * C * 3)) (s.pixelPtr.read (oob (pixelOf C q)))
          (s.pixelPtr.read (oob (pixelOf C q))) q := by
  simp only [← rowLengthHiddenAt_iff]
  rw [forall_inBuffer_iff]
  refine forall₂_congr fun k hk => and_congr (forall₂_congr fun p hp => ?_)
    (forall₂_congr fun p hp => ?_)
  · have hx := (inExtents_pad_iff hk).2 (Or.inl hp)
    rw [if_pos ((interiorByte_pix hx).2 hp), mean_pix_of_interior _ hp hk, ← stencil, ← read_filter,
      read_pix hx]
  · have hx := (inExtents_pad_iff hk).2 (Or.inr hp)
    rw [if_neg fun h => hp.2 ((interiorByte_pix hx).1 h), ← stencil, ← read_filter oob o,
      read_pix hx, read_pix hx]

/-- For every size, every order and all stray reads, a byte of the padding changes. -/
theorem not_paddedJacobi (hR : 0 < R) (hC : 0 < C) (oob : BodyReads) (o : Orders R C) :
    ¬ PaddedJacobi (Image.ofData (whiteCorner R C).pixelPtr)
      (Image.ofData (filter oob o (whiteCorner R C)).pixelPtr) := by
  intro h
  have hread : ∀ (r : ℤ → UInt8) (q : ℤ), 0 ≤ q → q ≤ 3 * C →
      (whiteCorner R C).pixelPtr.read r q = if q = 0 then 255 else 0 :=
    fun r q h₀ h₁ => Region.read_of_valid (inBuffer_of_twoRows h₀ (by omega))
  have hborder : Grid.Border R C (0, 0) := by
    simp only [Grid.Border, Grid.Interior]; omega
  have hchannel : (0 : ℤ) ≤ 0 ∧ (0 : ℤ) < cn := by decide
  have hx := (inExtents_pad_iff hchannel).2 (Or.inr hborder)
  have hpix : pix (C + 2) (0, 0, 0) = 0 := by rw [pix_eq]; ring
  have hpic : InBuffer (R * C * 3) 0 := ⟨le_rfl, by positivity⟩
  have hkeep := (h 0 hchannel).2 _ hborder
  rw [← read_pix hx (fun _ => 0), ← read_pix hx (fun _ => 0), hpix, read_filter, if_pos hpic,
    hread _ 0 le_rfl (by omega), if_pos rfl] at hkeep
  -- the neighbours to the right and below are black, so the byte cannot stay white
  have hright : (whiteCorner R C).pixelPtr.read (oob (pixelOf C 0)) ((flatCross C).right 0) =
      0 := by
    have hne : (flatCross C).right 0 ≠ 0 := by simp only [flatCross]; omega
    rw [hread _ _ (by simp only [flatCross]; omega) (by simp only [flatCross]; omega), if_neg hne]
  have hdown : (whiteCorner R C).pixelPtr.read (oob (pixelOf C 0)) ((flatCross C).down 0) =
      0 := by
    have hne : (flatCross C).down 0 ≠ 0 := by simp only [flatCross]; omega
    rw [hread _ _ (by simp only [flatCross]; omega) (by simp only [flatCross]; omega), if_neg hne]
  have hle := Cross.toNat_mean_le hright hdown
  rw [stencil] at hkeep
  rw [hkeep] at hle
  exact absurd hle (by decide)

/-- In the padded `1 × 1` picture the white first byte becomes `255 / 5 = 51`. -/
theorem not_paddedJacobi_one_one :
    ¬ PaddedJacobi (Image.ofData (whiteCorner 1 1).pixelPtr)
      (Image.ofData (filter (fun _ _ => 0) (inOrder 1 1) (whiteCorner 1 1)).pixelPtr) :=
  not_paddedJacobi Nat.one_pos Nat.one_pos _ _

end CpuParallelJacobi

end KokkosStencil
