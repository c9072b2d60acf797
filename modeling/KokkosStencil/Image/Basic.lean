import KokkosStencil.Grid.Basic
import Mathlib.Tactic.Linarith

/-!
# Images and pixel buffers

The programs hold a picture in two shapes:

* element-wise, as a `cv::Mat` accessed with `at<Vec3b>` or a rank-3 `Kokkos::View`:
  `Image rows cols` has one byte at every index `(i, j, k)` inside the extents;
* flat, through `uint8_t *pixelPtr = image_pad.data`: `Buffer size` has one byte at every offset
  `0 ≤ o < size`, and element `(i, j, k)` of a contiguous picture lies at offset
  `pix cols (i, j, k) = i * cols * cn + j * cn + k`.

`Image.data` and `Image.ofData` pass from one shape to the other (`ofData_data`, `data_ofData`);
`mem_flatMap_pixelIx` says that a double loop over the pixels reaches every element, and
`Layout.mem_offsets` that it reaches every byte, however a buffer arranges the elements.
`Image.plane v k` is colour channel `k` as a grid of the abstract layer, `copyMakeBorder` and
`crop` add and remove the padding, and `PaddedImage` is a picture whose padding is black.
-/

namespace KokkosStencil

/-- Number of colour channels of the pictures (`IMREAD_COLOR`). -/
abbrev cn : ℤ := 3

/-- Index of an element: row, column, channel.  They are C `int`s, so `i - 1` may be negative. -/
abbrev Ix := ℤ × ℤ × ℤ

/-- The indices inside the extents `rows × cols × 3`. -/
def InExtents (rows cols : ℕ) (x : Ix) : Prop :=
  (0 ≤ x.1 ∧ x.1 < rows) ∧ (0 ≤ x.2.1 ∧ x.2.1 < cols) ∧ 0 ≤ x.2.2 ∧ x.2.2 < cn

/-- The offsets inside a buffer of `size` bytes. -/
def InBuffer (size : ℕ) (o : ℤ) : Prop := 0 ≤ o ∧ o < size

instance (rows cols : ℕ) : DecidablePred (InExtents rows cols) :=
  fun _ => inferInstanceAs (Decidable (_ ∧ _))

instance (size : ℕ) : DecidablePred (InBuffer size) := fun _ => inferInstanceAs (Decidable (_ ∧ _))

/-- A three-channel 8-bit picture, one byte for every index inside its extents. -/
abbrev Image (rows cols : ℕ) := Region (InExtents rows cols) UInt8

/-- A block of `size` bytes behind a `uint8_t *`. -/
abbrev Buffer (size : ℕ) := Region (InBuffer size) UInt8

/-- Offset of an element in a contiguous picture with `cols` columns. -/
def pix (cols : ℕ) (x : Ix) : ℤ := x.1 * cols * cn + x.2.1 * cn + x.2.2

/-- The element at an offset. -/
def unpix (cols : ℕ) (o : ℤ) : Ix := (o / cn / cols, o / cn % cols, o % cn)

variable {rows cols : ℕ}

/-! ### Offsets and indices -/

/-- The number of a pixel in row-major order stays below the number of pixels. -/
theorem cell_bounds {i j : ℤ} (hi : 0 ≤ i ∧ i < rows) (hj : 0 ≤ j ∧ j < cols) :
    0 ≤ i * cols + j ∧ i * cols + j < rows * cols := by
  have h₀ : 0 ≤ i * cols := Int.mul_nonneg hi.1 (Int.natCast_nonneg _)
  have h₁ : (i + 1) * cols ≤ rows * cols :=
    Int.mul_le_mul_of_nonneg_right (by omega) (Int.natCast_nonneg _)
  have h₂ : (i + 1) * (cols : ℤ) = i * cols + cols := by ring
  omega

theorem cell_div {i j : ℤ} (hj : 0 ≤ j ∧ j < cols) : (i * cols + j) / cols = i := by
  rw [Int.add_comm, Int.add_mul_ediv_right _ _ (by omega), Int.ediv_eq_zero_of_lt hj.1 hj.2,
    Int.zero_add]

theorem cell_mod {i j : ℤ} (hj : 0 ≤ j ∧ j < cols) : (i * cols + j) % cols = j := by
  rw [Int.add_comm, Int.add_mul_emod_self_right, Int.emod_eq_of_lt hj.1 hj.2]

theorem pix_eq (cols : ℕ) (x : Ix) : pix cols x = 3 * (x.1 * cols + x.2.1) + x.2.2 := by
  simp only [pix, cn]
  ring

theorem inBuffer_pix {x : Ix} (h : InExtents rows cols x) :
    InBuffer (rows * cols * 3) (pix cols x) := by
  obtain ⟨hi, hj, hk⟩ := h
  have hcell := cell_bounds hi hj
  simp only [cn] at hk
  rw [InBuffer, pix_eq]
  push_cast
  omega

theorem inExtents_unpix {o : ℤ} (h : InBuffer (rows * cols * 3) o) :
    InExtents rows cols (unpix cols o) := by
  obtain ⟨h₀, h₁⟩ := h
  push_cast at h₁
  -- a picture without columns has no offsets
  have hpos : (0 : ℤ) < cols := by
    rcases Nat.eq_zero_or_pos cols with h | h
    · subst h; simp only [Nat.cast_zero, Int.mul_zero, Int.zero_mul] at h₁; omega
    · omega
  have hq₀ : 0 ≤ o / 3 := by omega
  have hq₁ : o / 3 < rows * cols := by omega
  refine ⟨⟨Int.ediv_nonneg hq₀ hpos.le, Int.ediv_lt_of_lt_mul hpos hq₁⟩,
    ⟨Int.emod_nonneg _ hpos.ne', Int.emod_lt_of_pos _ hpos⟩, ?_⟩
  simp only [unpix, cn]
  omega

theorem unpix_pix {x : Ix} (h : InExtents rows cols x) : unpix cols (pix cols x) = x := by
  obtain ⟨i, j, k⟩ := x
  obtain ⟨-, hj, hk⟩ := h
  simp only [cn] at hk
  have hq : pix cols (i, j, k) / cn = i * cols + j := by rw [pix_eq]; simp only [cn]; omega
  have hr : pix cols (i, j, k) % cn = k := by rw [pix_eq]; simp only [cn]; omega
  rw [unpix, hq, hr, cell_div hj, cell_mod hj]

theorem pix_unpix (cols : ℕ) (o : ℤ) : pix cols (unpix cols o) = o := by
  have h := Int.mul_ediv_add_emod (o / 3) cols
  rw [Int.mul_comm] at h
  rw [pix_eq]
  simp only [unpix, cn]
  omega

namespace Image

/-- The bytes of a contiguous picture in memory order. -/
def data (v : Image rows cols) : Buffer (rows * cols * 3) :=
  fun o => v ⟨unpix cols o, inExtents_unpix o.2⟩

/-- The picture whose bytes are `b`. -/
def ofData (b : Buffer (rows * cols * 3)) : Image rows cols :=
  fun x => b ⟨pix cols x, inBuffer_pix x.2⟩

theorem ofData_data (v : Image rows cols) : ofData v.data = v := by
  funext x
  exact congrArg v (Subtype.ext (unpix_pix x.2))

theorem data_ofData (b : Buffer (rows * cols * 3)) : (ofData b).data = b := by
  funext o
  exact congrArg b (Subtype.ext (pix_unpix cols o))

theorem read_data {v : Image rows cols} {x : Ix} (h : InExtents rows cols x) (oob : ℤ → UInt8)
    (oob' : Ix → UInt8) : v.data.read oob (pix cols x) = v.read oob' x := by
  rw [Region.read_of_valid (inBuffer_pix h), Region.read_of_valid h]
  exact congrArg v (Subtype.ext (unpix_pix h))

/-! ### Channels -/

/-- Colour channel `k` as a grid; the cells outside the extents are black. -/
def plane (v : Image rows cols) (k : ℤ) : ℤ × ℤ → UInt8 :=
  fun p => v.read (fun _ => 0) (p.1, p.2, k)

theorem plane_of_not_inExtents {v : Image rows cols} {p : ℤ × ℤ} {k : ℤ}
    (h : ¬ InExtents rows cols (p.1, p.2, k)) : v.plane k p = 0 := Region.read_of_invalid h

end Image

/-! ### Pixel by pixel -/

/-- The elements of pixel `p`. -/
def pixelIx (p : ℤ × ℤ) : List Ix := [(p.1, p.2, 0), (p.1, p.2, 1), (p.1, p.2, 2)]

theorem mem_pixelIx {x : Ix} {p : ℤ × ℤ} :
    x ∈ pixelIx p ↔ p = (x.1, x.2.1) ∧ 0 ≤ x.2.2 ∧ x.2.2 < cn := by
  obtain ⟨i, j, k⟩ := x
  obtain ⟨i', j'⟩ := p
  simp only [pixelIx, List.mem_cons, Prod.mk.injEq, List.not_mem_nil, or_false, cn]
  omega

/-- Different pixels have different elements. -/
theorem nodup_flatMap_pixelIx {ps : List (ℤ × ℤ)} (h : ps.Nodup) : (ps.flatMap pixelIx).Nodup := by
  rw [List.nodup_flatMap]
  constructor
  · intro p _
    simp [pixelIx]
  · refine h.imp fun {p q} hne => ?_
    intro x hp hq
    exact hne ((mem_pixelIx.1 hp).1.trans (mem_pixelIx.1 hq).1.symm)

/-- A double loop over the pixels of a picture reaches every element. -/
theorem mem_flatMap_pixelIx {x : Ix} :
    x ∈ (mdRange2 (0, 0) ((rows : ℤ), (cols : ℤ))).flatMap pixelIx ↔ InExtents rows cols x := by
  simp only [List.mem_flatMap, mem_mdRange2, mem_pixelIx]
  constructor
  · rintro ⟨p, ⟨hi, hj⟩, rfl, hk⟩
    exact ⟨hi, hj, hk⟩
  · rintro ⟨hi, hj, hk⟩
    exact ⟨_, ⟨hi, hj⟩, rfl, hk⟩

/-! ### Layouts -/

/-- A placement of the elements of a picture in a buffer of its size. -/
structure Layout (rows cols : ℕ) where
  /-- The offset of an element. -/
  offset : Ix → ℤ
  /-- The element at an offset. -/
  element : ℤ → Ix
  inBuffer : ∀ {x}, InExtents rows cols x → InBuffer (rows * cols * 3) (offset x)
  inExtents : ∀ {o}, InBuffer (rows * cols * 3) o → InExtents rows cols (element o)
  element_offset : ∀ {x}, InExtents rows cols x → element (offset x) = x
  offset_element : ∀ {o}, InBuffer (rows * cols * 3) o → offset (element o) = o

namespace Layout

/-- A contiguous picture. -/
def pixels (rows cols : ℕ) : Layout rows cols where
  offset := pix cols
  element := unpix cols
  inBuffer := inBuffer_pix
  inExtents := inExtents_unpix
  element_offset := unpix_pix
  offset_element _ := pix_unpix cols _

/-- The offsets of all elements, in the order of a double loop over the pixels. -/
def offsets (L : Layout rows cols) : List ℤ :=
  ((mdRange2 (0, 0) ((rows : ℤ), (cols : ℤ))).flatMap pixelIx).map L.offset

variable (L : Layout rows cols)

theorem mem_offsets {o : ℤ} : o ∈ L.offsets ↔ InBuffer (rows * cols * 3) o := by
  rw [offsets, List.mem_map]
  constructor
  · rintro ⟨x, hx, rfl⟩
    exact L.inBuffer (mem_flatMap_pixelIx.1 hx)
  · intro ho
    exact ⟨L.element o, mem_flatMap_pixelIx.2 (L.inExtents ho), L.offset_element ho⟩

theorem nodup_offsets : L.offsets.Nodup := by
  refine (nodup_flatMap_pixelIx (nodup_mdRange2 _ _)).map_on fun x hx y hy hxy => ?_
  -- an element can be told from its offset
  rw [← L.element_offset (mem_flatMap_pixelIx.1 hx), hxy,
    L.element_offset (mem_flatMap_pixelIx.1 hy)]

end Layout

/-! ### Padding -/

variable {R C : ℕ}

/-- The pixels of the padded picture (`full_image`, and the import and export loops). -/
def fullImage (R C : ℕ) : List (ℤ × ℤ) := mdRange2 (0, 0) (((R + 2 : ℕ) : ℤ), ((C + 2 : ℕ) : ℤ))

theorem mem_fullImage_pixelIx {x : Ix} :
    x ∈ (fullImage R C).flatMap pixelIx ↔ InExtents (R + 2) (C + 2) x := mem_flatMap_pixelIx

/-- A picture surrounded by one row and one column of black pixels on every side. -/
def copyMakeBorder (img : Image R C) : Image (R + 2) (C + 2) :=
  fun x => img.read (fun _ => 0) (x.1.1 - 1, x.1.2.1 - 1, x.1.2.2)

/-- The picture without its padding: `image_pad(roi).clone()` with the roi at `(1, 1)`. -/
def crop (v : Image (R + 2) (C + 2)) : Image R C :=
  fun x => v.read (fun _ => 0) (x.1.1 + 1, x.1.2.1 + 1, x.1.2.2)

theorem crop_copyMakeBorder (img : Image R C) : crop (copyMakeBorder img) = img := by
  funext ⟨⟨i, j, k⟩, hx⟩
  have hin : InExtents (R + 2) (C + 2) (i + 1, j + 1, k) := by
    simp only [InExtents, cn] at hx ⊢
    omega
  simp only [crop]
  rw [Region.read_of_valid hin, copyMakeBorder]
  simp only [add_sub_cancel_right]
  exact Region.read_of_valid hx

theorem inExtents_of_interior {p : ℤ × ℤ} {k : ℤ} (h : Grid.Interior R C p)
    (hk : 0 ≤ k ∧ k < 3) : InExtents (R + 2) (C + 2) (p.1, p.2, k) := by
  simp only [Grid.Interior, InExtents, cn] at h ⊢
  omega

theorem inExtents_pad_iff {p : ℤ × ℤ} {k : ℤ} (hk : 0 ≤ k ∧ k < 3) :
    InExtents (R + 2) (C + 2) (p.1, p.2, k) ↔ Grid.Interior R C p ∨ Grid.Border R C p := by
  simp only [Grid.Interior, Grid.Border, InExtents, cn]
  omega

theorem copyMakeBorder_of_border (img : Image R C) {x : {x // InExtents (R + 2) (C + 2) x}}
    (hb : Grid.Border R C (x.1.1, x.1.2.1)) : copyMakeBorder img x = 0 := by
  have hout : ¬ InExtents R C (x.1.1 - 1, x.1.2.1 - 1, x.1.2.2) := by
    have hi := hb.2
    simp only [Grid.Interior, InExtents] at hi ⊢
    omega
  exact Region.read_of_invalid hout

theorem copyMakeBorder_crop_of_interior (v : Image (R + 2) (C + 2))
    {x : {x // InExtents (R + 2) (C + 2) x}} (hi : Grid.Interior R C (x.1.1, x.1.2.1)) :
    copyMakeBorder (crop v) x = v x := by
  have hin : InExtents R C (x.1.1 - 1, x.1.2.1 - 1, x.1.2.2) := by
    have hx := x.2
    simp only [Grid.Interior, InExtents] at hi hx ⊢
    omega
  rw [copyMakeBorder, Region.read_of_valid hin, crop]
  simp only [sub_add_cancel]
  exact Region.read_of_valid x.2

/-- Padding what is left after cropping restores a picture iff its padding was black. -/
theorem eq_copyMakeBorder_crop_iff {v : Image (R + 2) (C + 2)} :
    v = copyMakeBorder (crop v) ↔
      ∀ x : {x // InExtents (R + 2) (C + 2) x}, Grid.Border R C (x.1.1, x.1.2.1) → v x = 0 := by
  constructor
  · intro h x hb
    rw [h, copyMakeBorder_of_border _ hb]
  · intro h
    funext x
    by_cases hi : Grid.Interior R C (x.1.1, x.1.2.1)
    · rw [copyMakeBorder_crop_of_interior v hi]
    · have hb : Grid.Border R C (x.1.1, x.1.2.1) := by
        refine ⟨?_, hi⟩
        have hx := x.2
        simp only [InExtents] at hx
        push_cast at hx
        omega
      rw [h x hb, copyMakeBorder_of_border _ hb]

/-- A padded picture whose padding is black. -/
structure PaddedImage (R C : ℕ) where
  /-- The picture with its padding. -/
  img : Image (R + 2) (C + 2)
  /-- The padding is black in every channel. -/
  border : ∀ k p, ¬ Grid.Interior R C p → img.plane k p = 0

theorem plane_copyMakeBorder (img : Image R C) (k : ℤ) (p : ℤ × ℤ) :
    (copyMakeBorder img).plane k p = img.plane k (p.1 - 1, p.2 - 1) := by
  by_cases h : InExtents (R + 2) (C + 2) (p.1, p.2, k)
  · rw [Image.plane, Region.read_of_valid h]; rfl
  · rw [Image.plane_of_not_inExtents h, Image.plane_of_not_inExtents]
    simp only [InExtents, cn] at h ⊢
    omega

/-- `copyMakeBorder` makes a padded picture. -/
def PaddedImage.ofImage (img : Image R C) : PaddedImage R C where
  img := copyMakeBorder img
  border k p h := by
    rw [plane_copyMakeBorder, Image.plane_of_not_inExtents]
    simp only [Grid.Interior, InExtents, cn] at h ⊢
    omega

end KokkosStencil
