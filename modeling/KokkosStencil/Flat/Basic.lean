import KokkosStencil.Image.Basic

/-!
# Stencils on a flat pixel buffer

The sequential programs and the CPU version address pixels by hand-written offsets into one
buffer: with `index = i * cols * cn + j * cn`, the neighbours of byte `index + k` lie `cn` bytes
to the left and right and `cols * cn` bytes above and below it (`flatCross cols`).  All of them
use `cols = img.cols`, the row length of the picture without its padding.

* `pixelBytes_range` : the bytes of the pixels that a nested loop over one such picture visits
  are one interval of offsets, in ascending order;
* `read_foldl_pixels` : a loop that replaces pixel after pixel by its mean is an in-place sweep of
  these bytes (`scatter_pixelBytes` is the case of one pixel);
* `forall_inBuffer_iff` : the bytes of a padded picture are its interior and its border, and
  `mean_pix` gives the neighbours of an interior byte in the geometry of the padded picture;
* `rowLengthHiddenAt_iff` : when the row length `C` instead of `C + 2` makes no difference at a
  byte.
-/

namespace KokkosStencil

/-- The neighbours of a byte in a buffer with rows of `cols` pixels. -/
def flatCross (cols : ℕ) : Cross ℤ where
  up o := o - 3 * cols
  down o := o + 3 * cols
  left o := o - 3
  right o := o + 3

/-- Offset of the first byte of pixel `(i, j)`. -/
def index (cols : ℕ) (p : ℤ × ℤ) : ℤ := p.1 * cols * cn + p.2 * cn

/-- The three bytes of pixel `(i, j)`. -/
def pixelBytes (cols : ℕ) (p : ℤ × ℤ) : List ℤ :=
  [index cols p + 0, index cols p + 1, index cols p + 2]

theorem flatCross_up (cols : ℕ) (i j k : ℤ) :
    (flatCross cols).up (pix cols (i, j, k)) = pix cols (i - 1, j, k) := by
  simp only [flatCross, pix, cn]; ring

theorem flatCross_down (cols : ℕ) (i j k : ℤ) :
    (flatCross cols).down (pix cols (i, j, k)) = pix cols (i + 1, j, k) := by
  simp only [flatCross, pix, cn]; ring

theorem flatCross_left (cols : ℕ) (i j k : ℤ) :
    (flatCross cols).left (pix cols (i, j, k)) = pix cols (i, j - 1, k) := by
  simp only [flatCross, pix, cn]; ring

theorem flatCross_right (cols : ℕ) (i j k : ℤ) :
    (flatCross cols).right (pix cols (i, j, k)) = pix cols (i, j + 1, k) := by
  simp only [flatCross, pix, cn]; ring

theorem index_eq (cols : ℕ) (p : ℤ × ℤ) : index cols p = 3 * (p.1 * cols + p.2) := by
  simp only [index, cn]
  ring

theorem pixelBytes_eq (cols : ℕ) (p : ℤ × ℤ) :
    pixelBytes cols p = Int.range (3 * (p.1 * cols + p.2)) (3 * (p.1 * cols + p.2) + 3) := by
  have h := Scan.range_add (3 * (p.1 * cols + p.2)) 3
  rw [Nat.cast_ofNat] at h
  rw [h, pixelBytes, index_eq]
  rfl

theorem mem_pixelBytes {cols : ℕ} {p : ℤ × ℤ} {o : ℤ} :
    o ∈ pixelBytes cols p ↔ o / 3 = p.1 * cols + p.2 := by
  rw [pixelBytes_eq, Int.mem_range_iff]
  omega

/-- The bytes of consecutive pixels are consecutive. -/
theorem flatMap_pixel_range (a : ℤ) (n : ℕ) :
    (Int.range a (a + n)).flatMap (fun q => Int.range (3 * q) (3 * q + 3)) =
      Int.range (3 * a) (3 * (a + n)) := by
  have h := Scan.map_product_range a 0 n 3
  have hrow : ∀ q : ℤ, (Int.range 0 (0 + (3 : ℕ))).map (fun k : ℤ => q * (3 : ℕ) + k) =
      Int.range (3 * q) (3 * q + 3) := by
    intro q
    rw [Scan.map_add_range]
    congr 1 <;> push_cast <;> ring
  have hprod : (Int.range a (a + n)).flatMap (fun q => Int.range (3 * q) (3 * q + 3)) =
      (Int.range a (a + n) ×ˢ Int.range 0 (0 + (3 : ℕ))).map
        (fun p : ℤ × ℤ => p.1 * (3 : ℕ) + p.2) := by
    show _ = ((Int.range a (a + n)).flatMap fun q => (Int.range 0 (0 + (3 : ℕ))).map
      fun k => (q, k)).map _
    rw [List.map_flatMap]
    congr 1
    funext q
    rw [List.map_map, ← hrow]
    rfl
  rw [hprod, h]
  congr 1 <;> push_cast <;> ring

/-- **A nested loop over a picture of `R` rows of `C` pixels sweeps one interval of bytes**,
starting at pixel `(a, c)`. -/
theorem pixelBytes_range (a c : ℤ) (R C : ℕ) :
    (Int.range a (a + R) ×ˢ Int.range c (c + C)).flatMap (pixelBytes C) =
      Int.range (3 * (a * C + c)) (3 * ((a + R) * C + c)) := by
  have hflat : (Int.range a (a + R) ×ˢ Int.range c (c + C)).flatMap (pixelBytes C) =
      ((Int.range a (a + R) ×ˢ Int.range c (c + C)).map fun p : ℤ × ℤ => p.1 * C + p.2).flatMap
        fun q => Int.range (3 * q) (3 * q + 3) := by
    rw [List.flatMap_map]
    exact congrArg (fun f => List.flatMap f _) (funext (pixelBytes_eq C))
  have hend : (a + R) * C + c = a * C + c + ((R * C : ℕ) : ℤ) := by push_cast; ring
  -- the loop's row length is that of the offsets, so its pixels are consecutive
  rw [hflat, Scan.map_product_range, hend, flatMap_pixel_range]

/-- A double loop over a picture of `R` rows of `C` pixels, from pixel `(0, 0)` on, reaches its
`R * C * 3` bytes. -/
theorem exists_mem_pixelBytes_iff {R C : ℕ} {o : ℤ} :
    (∃ p ∈ mdRange2 (0, 0) ((R : ℤ), (C : ℤ)), o ∈ pixelBytes C p) ↔ InBuffer (R * C * 3) o := by
  have h := pixelBytes_range 0 0 R C
  simp only [zero_add, zero_mul, mul_zero, add_zero] at h
  rw [← List.mem_flatMap, mdRange2, h, Int.mem_range_iff, InBuffer]
  push_cast
  rw [mul_comm (3 : ℤ)]

/-- The pixel of a byte. -/
def pixelOf (cols : ℕ) (o : ℤ) : ℤ × ℤ := ((unpix cols o).1, (unpix cols o).2.1)

theorem pixelOf_eq {cols : ℕ} {p : ℤ × ℤ} {o : ℤ} (hj : 0 ≤ p.2 ∧ p.2 < cols)
    (ho : o ∈ pixelBytes cols p) : pixelOf cols o = p := by
  rw [mem_pixelBytes] at ho
  rw [pixelOf, unpix, ho, cell_div hj, cell_mod hj]

/-- Different pixels have different bytes. -/
theorem disjoint_pixelBytes {rows cols : ℕ} {p q : ℤ × ℤ}
    (hp : p ∈ mdRange2 (0, 0) ((rows : ℤ), (cols : ℤ)))
    (hq : q ∈ mdRange2 (0, 0) ((rows : ℤ), (cols : ℤ))) (h : p ≠ q) :
    (pixelBytes cols p).Disjoint (pixelBytes cols q) := fun _ hop hoq =>
  h ((pixelOf_eq (mem_mdRange2.1 hp).2 hop).symm.trans (pixelOf_eq (mem_mdRange2.1 hq).2 hoq))

/-- The bytes of a pixel do not read each other. -/
theorem pairwise_pixelBytes (cols : ℕ) (p : ℤ × ℤ) :
    (pixelBytes cols p).Pairwise fun y x => ∀ (g : ℤ → UInt8) b,
      (flatCross cols).mean (Function.update g y b) x = (flatCross cols).mean g x := by
  have hne : ∀ d : ℤ, 0 < d → d < 3 → ∀ (y : ℤ) (g : ℤ → UInt8) b,
      (flatCross cols).mean (Function.update g y b) (y + d) = (flatCross cols).mean g (y + d) := by
    intro d h₀ h₃ y g b
    have hy : y + d ≠ y := by omega
    refine Cross.mean_update_of_ne hy ?_ ?_ ?_ ?_ <;> simp only [flatCross] <;> omega
  simp only [pixelBytes, List.pairwise_cons, List.mem_cons, List.not_mem_nil, or_false,
    forall_eq_or_imp, forall_eq, List.Pairwise.nil, and_true, IsEmpty.forall_iff, implies_true]
  refine ⟨⟨fun g b => ?_, fun g b => ?_⟩, fun g b => ?_⟩
  · simpa using hne 1 (by omega) (by omega) (index cols p + 0) g b
  · simpa using hne 2 (by omega) (by omega) (index cols p + 0) g b
  · have h := hne 1 (by omega) (by omega) (index cols p + 1) g b
    rwa [add_assoc] at h

variable {size : ℕ}

/-- Reading all neighbours of a pixel and then writing its bytes is visiting its bytes in turn. -/
theorem scatter_pixelBytes {cols : ℕ} {p : ℤ × ℤ} (h : ∀ o ∈ pixelBytes cols p, InBuffer size o)
    (b : Buffer size) (oob : ℤ → UInt8) :
    Region.scatter ((flatCross cols).mean (b.read oob)) (pixelBytes cols p) b =
      Region.inPlace (flatCross cols).mean oob (pixelBytes cols p) b :=
  Region.scatter_eq_inPlace h (pairwise_pixelBytes cols p)

/-! ### The bytes a body touches -/

/-- The offsets of the bytes that the body at pixel `(i, j)` reads for channel `k`: of the pixel
itself and of the pixels to the left, to the right, above and below. -/
def stencilOffsets (cols : ℕ) (p : ℤ × ℤ) (k : ℤ) : List ℤ :=
  let (i, j) := p
  [i * cols * cn + j * cn + k, i * cols * cn + (j - 1) * cn + k, i * cols * cn + (j + 1) * cn + k,
    (i - 1) * cols * cn + j * cn + k, (i + 1) * cols * cn + j * cn + k]

theorem mean_congr_offsets {cols : ℕ} {p : ℤ × ℤ} {k : ℤ} {m m' : ℤ → UInt8}
    (h : ∀ o ∈ stencilOffsets cols p k, m o = m' o) :
    (flatCross cols).mean m (index cols p + k) = (flatCross cols).mean m' (index cols p + k) := by
  obtain ⟨i, j⟩ := p
  simp only [stencilOffsets, List.mem_cons, List.not_mem_nil, or_false, forall_eq_or_imp,
    forall_eq] at h
  obtain ⟨hself, hleft, hright, hup, hdown⟩ := h
  have hidx : index cols (i, j) + k = pix cols (i, j, k) := rfl
  apply Cross.mean_congr
  · exact hself
  · rw [hidx, flatCross_left]; exact hleft
  · rw [hidx, flatCross_right]; exact hright
  · rw [hidx, flatCross_up]; exact hup
  · rw [hidx, flatCross_down]; exact hdown

/-- The means of a pixel depend on the bytes at the offsets of its three channels only. -/
theorem scatter_mean_congr {cols : ℕ} {p : ℤ × ℤ} {m m' : ℤ → UInt8} {b : Buffer size}
    (h : ∀ k, 0 ≤ k ∧ k < cn → ∀ o ∈ stencilOffsets cols p k, m o = m' o) :
    Region.scatter ((flatCross cols).mean m) (pixelBytes cols p) b =
      Region.scatter ((flatCross cols).mean m') (pixelBytes cols p) b := by
  refine Region.scatter_congr_values fun o ho => ?_
  have hk : ∃ k, (0 ≤ k ∧ k < cn) ∧ o = index cols p + k := by
    rw [pixelBytes, List.mem_cons, List.mem_cons, List.mem_singleton] at ho
    rcases ho with rfl | rfl | rfl
    · exact ⟨0, by decide, rfl⟩
    · exact ⟨1, by decide, rfl⟩
    · exact ⟨2, by decide, rfl⟩
  obtain ⟨k, hk, rfl⟩ := hk
  exact mean_congr_offsets (h k hk)

/-! ### Sequential loops -/

/-- **A loop over pixels is an in-place sweep of bytes**, when its body replaces the bytes of a
pixel by their means in the current buffer. -/
theorem read_foldl_pixels {cols : ℕ} {ps : List (ℤ × ℤ)} {bytes : List ℤ} {oob : ℤ → UInt8}
    {body : ℤ × ℤ → Buffer size → Buffer size}
    (hbody : ∀ p b, body p b =
      Region.scatter ((flatCross cols).mean (b.read oob)) (pixelBytes cols p) b)
    (hbytes : ps.flatMap (pixelBytes cols) = bytes) (hval : ∀ o ∈ bytes, InBuffer size o)
    (b : Buffer size) : (ps.foldl (fun b p => body p b) b).read oob =
      Sweep.inPlace (flatCross cols).mean bytes (b.read oob) := by
  subst hbytes
  have hloop : ps.foldl (fun b p => body p b) b =
      Region.inPlace (flatCross cols).mean oob (ps.flatMap (pixelBytes cols)) b := by
    rw [← Region.foldl_inPlace]
    refine List.foldl_ext _ _ _ fun b p hp => ?_
    have hp' : ∀ o ∈ pixelBytes cols p, InBuffer size o :=
      fun o ho => hval o (List.mem_flatMap.2 ⟨p, hp, ho⟩)
    rw [hbody, scatter_pixelBytes hp']
  rw [hloop, Region.read_inPlace hval]

/-! ### The geometry of the padded picture -/

variable {R C : ℕ}

/-- The bytes of the padded picture that belong to the picture inside the padding. -/
def InteriorByte (R C : ℕ) (o : ℤ) : Prop :=
  Grid.Interior R C (pixelOf (C + 2) o)

instance : DecidablePred (InteriorByte R C) :=
  fun _ => inferInstanceAs (Decidable (Grid.Interior _ _ _))

theorem interiorByte_pix {p : ℤ × ℤ} {k : ℤ} (h : InExtents (R + 2) (C + 2) (p.1, p.2, k)) :
    InteriorByte R C (pix (C + 2) (p.1, p.2, k)) ↔ Grid.Interior R C p := by
  rw [InteriorByte, pixelOf, unpix_pix h]

theorem inBuffer_of_interiorByte {o : ℤ} (h : InteriorByte R C o) :
    InBuffer ((R + 2) * (C + 2) * 3) o := by
  have hk : 0 ≤ o % cn ∧ o % cn < 3 := by simp only [cn]; omega
  have hx := inBuffer_pix (inExtents_of_interior h hk)
  have hunpix : ((pixelOf (C + 2) o).1, (pixelOf (C + 2) o).2, o % cn) = unpix (C + 2) o := rfl
  rwa [hunpix, pix_unpix] at hx

theorem size_eq (R C : ℕ) :
    (((R + 2) * (C + 2) * 3 : ℕ) : ℤ) = 3 * ((R : ℤ) * C + 2 * R + 2 * C + 4) := by
  push_cast
  ring

/-- The picture without padding is smaller than the buffer. -/
theorem inBuffer_of_picture {o : ℤ} (h : InBuffer (R * C * 3) o) :
    InBuffer ((R + 2) * (C + 2) * 3) o := by
  obtain ⟨h₀, h₁⟩ := h
  push_cast at h₁
  refine ⟨h₀, ?_⟩
  rw [size_eq]
  omega

/-- The first two rows of the padded picture lie in the buffer. -/
theorem inBuffer_of_twoRows {o : ℤ} (h₀ : 0 ≤ o) (h₁ : o < 3 * (2 * C + 4)) :
    InBuffer ((R + 2) * (C + 2) * 3) o := by
  have hmul : (0 : ℤ) ≤ R * C := Int.mul_nonneg (Int.natCast_nonneg _) (Int.natCast_nonneg _)
  refine ⟨h₀, ?_⟩
  rw [size_eq]
  omega

/-- The bytes of a padded picture are those of its interior and those of its border. -/
theorem forall_inBuffer_iff {Q : ℤ → Prop} :
    (∀ o, InBuffer ((R + 2) * (C + 2) * 3) o → Q o) ↔ ∀ k, 0 ≤ k ∧ k < cn →
      (∀ p, Grid.Interior R C p → Q (pix (C + 2) (p.1, p.2, k))) ∧
        ∀ p, Grid.Border R C p → Q (pix (C + 2) (p.1, p.2, k)) := by
  constructor
  · intro h k hk
    refine ⟨fun p hp => h _ (inBuffer_pix ?_), fun p hp => h _ (inBuffer_pix ?_)⟩
    · exact (inExtents_pad_iff hk).2 (Or.inl hp)
    · exact (inExtents_pad_iff hk).2 (Or.inr hp)
  · intro h o ho
    have hx := inExtents_unpix ho
    obtain ⟨hint, hbor⟩ := h _ hx.2.2
    rw [← pix_unpix (C + 2) o]
    rcases (inExtents_pad_iff (p := ((unpix (C + 2) o).1, (unpix (C + 2) o).2.1)) hx.2.2).1 hx
      with hp | hp
    · exact hint _ hp
    · exact hbor _ hp

/-- For what holds anyway at the offsets outside the buffer. -/
theorem forall_offset_iff {Q : ℤ → Prop} (hout : ∀ o, ¬ InBuffer ((R + 2) * (C + 2) * 3) o → Q o) :
    (∀ o, Q o) ↔ ∀ k, 0 ≤ k ∧ k < cn →
      (∀ p, Grid.Interior R C p → Q (pix (C + 2) (p.1, p.2, k))) ∧
        ∀ p, Grid.Border R C p → Q (pix (C + 2) (p.1, p.2, k)) := by
  rw [← forall_inBuffer_iff]
  refine ⟨fun h o _ => h o, fun h o => ?_⟩
  by_cases ho : InBuffer ((R + 2) * (C + 2) * 3) o
  · exact h o ho
  · exact hout o ho

theorem read_pix {b : Buffer ((R + 2) * (C + 2) * 3)} {p : ℤ × ℤ} {k : ℤ}
    (h : InExtents (R + 2) (C + 2) (p.1, p.2, k)) (oob : ℤ → UInt8) :
    b.read oob (pix (C + 2) (p.1, p.2, k)) = (Image.ofData b).plane k p := by
  rw [Region.read_of_valid (inBuffer_pix h), Image.plane, Region.read_of_valid h]
  rfl

/-- With the row length of the padded picture, the neighbours of a byte are those of its pixel. -/
theorem mean_pix (m : ℤ → UInt8) (cols : ℕ) (p : ℤ × ℤ) (k : ℤ) :
    (flatCross cols).mean m (pix cols (p.1, p.2, k)) =
      mean5 (m (pix cols (p.1, p.2, k))) (m (pix cols (p.1, p.2 - 1, k)))
        (m (pix cols (p.1, p.2 + 1, k))) (m (pix cols (p.1 - 1, p.2, k)))
        (m (pix cols (p.1 + 1, p.2, k))) := by
  rw [Cross.mean, flatCross_up, flatCross_down, flatCross_left, flatCross_right]

/-- Around an interior pixel the buffer holds the channel's grid. -/
theorem read_pix_cross {b : Buffer ((R + 2) * (C + 2) * 3)} (oob : ℤ → UInt8) {p : ℤ × ℤ} {k : ℤ}
    (hp : Grid.Interior R C p) (hk : 0 ≤ k ∧ k < cn) :
    b.read oob (pix (C + 2) (p.1, p.2, k)) = (Image.ofData b).plane k p ∧
      b.read oob (pix (C + 2) (p.1, p.2 - 1, k)) = (Image.ofData b).plane k (p.1, p.2 - 1) ∧
      b.read oob (pix (C + 2) (p.1, p.2 + 1, k)) = (Image.ofData b).plane k (p.1, p.2 + 1) ∧
      b.read oob (pix (C + 2) (p.1 - 1, p.2, k)) = (Image.ofData b).plane k (p.1 - 1, p.2) ∧
      b.read oob (pix (C + 2) (p.1 + 1, p.2, k)) = (Image.ofData b).plane k (p.1 + 1, p.2) := by
  obtain ⟨i, j⟩ := p
  refine ⟨read_pix ?_ oob, read_pix (p := (i, j - 1)) ?_ oob, read_pix (p := (i, j + 1)) ?_ oob,
    read_pix (p := (i - 1, j)) ?_ oob, read_pix (p := (i + 1, j)) ?_ oob⟩ <;>
  · simp only [Grid.Interior, InExtents, cn] at hp hk ⊢
    push_cast
    omega

/-- At an interior byte, the stencil with the padded row length is that of the channel's grid. -/
theorem mean_pix_of_interior {b : Buffer ((R + 2) * (C + 2) * 3)} (oob : ℤ → UInt8) {p : ℤ × ℤ}
    {k : ℤ} (hp : Grid.Interior R C p) (hk : 0 ≤ k ∧ k < cn) :
    (flatCross (C + 2)).mean (b.read oob) (pix (C + 2) (p.1, p.2, k)) =
      Grid.cross.mean ((Image.ofData b).plane k) p := by
  obtain ⟨hself, hleft, hright, hup, hdown⟩ := read_pix_cross (b := b) oob hp hk
  rw [mean_pix, hself, hleft, hright, hup, hdown]
  rfl

/-! ### The wrong row length -/

/-- Taking `C` for the row length makes no difference at byte `o`.  The program recomputes the
bytes of `W`; `m` is what its stencil finds in the buffer, `old` what the buffer held:

* at an interior byte of `W`, the pixels above and below in rows of `C + 2` pixels and those in
  rows of `C` pixels differ in their sums by no carry across a multiple of `5`;
* at a border byte of `W`, the mean happens to be the old byte;
* at an interior byte outside `W`, the mean it should have become happens to be the old byte. -/
structure RowLengthHiddenAt (R C : ℕ) (W : ℤ → Prop) (m old : ℤ → UInt8) (o : ℤ) : Prop where
  carry : W o → InteriorByte R C o → NoCarry
    (((m (o - 3 * (C + 2))).toNat + (m (o + 3 * (C + 2))).toNat : ℤ) -
      ((m (o - 3 * C)).toNat + (m (o + 3 * C)).toNat))
    ((flatCross (C + 2)).sum m o)
  border : W o → ¬ InteriorByte R C o → (flatCross C).mean m o = old o
  missed : ¬ W o → InteriorByte R C o → (flatCross (C + 2)).mean m o = old o

theorem mean_rowLength_iff {m : ℤ → UInt8} {o : ℤ} :
    (flatCross C).mean m o = (flatCross (C + 2)).mean m o ↔ NoCarry
      (((m (o - 3 * (C + 2))).toNat + (m (o + 3 * (C + 2))).toNat : ℤ) -
        ((m (o - 3 * C)).toNat + (m (o + 3 * C)).toNat))
      ((flatCross (C + 2)).sum m o) := by
  have hdiff : ((flatCross (C + 2)).sum m o : ℤ) - (flatCross C).sum m o =
      ((m (o - 3 * (C + 2))).toNat + (m (o + 3 * (C + 2))).toNat : ℤ) -
        ((m (o - 3 * C)).toNat + (m (o + 3 * C)).toNat) := by
    simp only [Cross.sum, flatCross]
    push_cast
    ring
  rw [Cross.mean_eq_mean_iff, hdiff]

/-- **When the wrong row length does not show at a byte.** -/
theorem rowLengthHiddenAt_iff {W : ℤ → Prop} [DecidablePred W] {m old : ℤ → UInt8} {o : ℤ} :
    ((if W o then (flatCross C).mean m o else old o) =
      if InteriorByte R C o then (flatCross (C + 2)).mean m o else old o) ↔
    RowLengthHiddenAt R C W m old o := by
  -- one case per field; at a border byte outside `W` there is nothing to hide
  by_cases hW : W o <;> by_cases hI : InteriorByte R C o
  · rw [if_pos hW, if_pos hI, mean_rowLength_iff]
    exact ⟨fun h => ⟨fun _ _ => h, fun _ h' => absurd hI h', fun h' => absurd hW h'⟩,
      fun h => h.carry hW hI⟩
  · rw [if_pos hW, if_neg hI]
    exact ⟨fun h => ⟨fun _ h' => absurd h' hI, fun _ _ => h, fun h' => absurd hW h'⟩,
      fun h => h.border hW hI⟩
  · rw [if_neg hW, if_pos hI]
    exact ⟨fun h => ⟨fun h' => absurd h' hW, fun h' => absurd h' hW, fun _ _ => h.symm⟩,
      fun h => (h.missed hW hI).symm⟩
  · rw [if_neg hW, if_neg hI]
    exact ⟨fun _ => ⟨fun h' => absurd h' hW, fun h' => absurd h' hW, fun _ h' => absurd h' hI⟩,
      fun _ => rfl⟩

end KokkosStencil
