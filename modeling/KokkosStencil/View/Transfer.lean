import KokkosStencil.Memory.Copy
import KokkosStencil.View.LayoutLeft

/-!
# Import and export, byte by byte

`pixelPtr` holds the padded picture pixel after pixel, a `LayoutLeft` view column after column of
one colour plane after the other.  The import loop and the export loop of the parallel programs
walk through both with the same indices.

* `Layout.exchange_copies` : copying all elements from one layout to another writes every byte of
  the target once and reads every byte of the source once;
* `allocations_importLoop`, `exportLoopLeft_leftData` : on the allocations of the views the loops do
  what they do on the views;
* `transfers_inverse` : the loops perform the copies between the two layouts, so each undoes the
  other.
-/

namespace KokkosStencil

/-! ### From one layout to another -/

namespace Layout

variable {rows cols : ℕ}

/-- A `LayoutLeft` view. -/
def left (rows cols : ℕ) : Layout rows cols where
  offset := leftOffset rows cols
  element := unleft rows cols
  inBuffer := inBuffer_leftOffset
  inExtents := inExtents_unleft
  element_offset := unleft_leftOffset
  offset_element _ := leftOffset_unleft rows cols _

variable (L L' : Layout rows cols)

/-- The copies that take the elements of pixel `p` from layout `L'` to layout `L`. -/
def pixelCopies (p : ℤ × ℤ) : List (ℤ × ℤ) := (pixelIx p).map fun x => (L.offset x, L'.offset x)

/-- The copies that take a picture from layout `L'` to layout `L`. -/
def copies : List (ℤ × ℤ) := (mdRange2 (0, 0) ((rows : ℤ), (cols : ℤ))).flatMap (pixelCopies L L')

theorem targets_copies : (copies L L').map Prod.fst = L.offsets := by
  simp only [copies, pixelCopies, offsets, List.map_flatMap, List.map_map, Function.comp_def]

theorem swap_copies : (copies L L').map Prod.swap = copies L' L := by
  simp only [copies, pixelCopies, List.map_flatMap, List.map_map, Function.comp_def,
    Prod.swap_prod_mk]
  rfl

theorem sources_copies : (copies L L').map Prod.snd = L'.offsets := by
  rw [← targets_copies L' L, ← swap_copies L L', List.map_map]
  rfl

/-- **From one layout to another**, every byte of the target is written once and every byte of the
source is read once. -/
theorem exchange_copies :
    Region.Exchange (InBuffer (rows * cols * 3)) (InBuffer (rows * cols * 3)) (copies L L') where
  nodup_targets := by rw [targets_copies]; exact L.nodup_offsets
  mem_targets _ := by rw [targets_copies]; exact L.mem_offsets
  nodup_sources := by rw [sources_copies]; exact L'.nodup_offsets
  mem_sources _ := by rw [sources_copies]; exact L'.mem_offsets

/-- The targets are the offsets of the buffer in another order. -/
theorem perm_targets_copies :
    ((copies L L').map Prod.fst).Perm (Int.range 0 ((rows * cols * 3 : ℕ) : ℤ)) := by
  rw [targets_copies]
  refine (List.perm_ext_iff_of_nodup L.nodup_offsets
    (Sweep.nodup_of_pairwise Scan.lt_asymm_int (Scan.pairwise_range _ _))).2 fun o => ?_
  rw [mem_offsets, Int.mem_range_iff, InBuffer]

end Layout

/-! ### The loops on the allocations -/

/-- The allocations of `host_img_in` and `host_img_out`. -/
structure Allocations (R C : ℕ) where
  /-- `host_img_in` -/
  imgIn : Buffer ((R + 2) * (C + 2) * 3)
  /-- `host_img_out` -/
  imgOut : Buffer ((R + 2) * (C + 2) * 3)

variable {R C : ℕ}

/-- One round of the import loop. -/
def importPixelLeft (oob : ℤ → UInt8) (pixelPtr : Buffer ((R + 2) * (C + 2) * 3)) (p : ℤ × ℤ)
    (h : Allocations R C) : Allocations R C :=
  let (i, j) := p
  let index := i * ((C + 2 : ℕ) : ℤ) * cn + j * cn
  let offset := fun k => leftOffset (R + 2) (C + 2) (i, j, k)
  { imgIn := ((h.imgIn.write (offset 0) (pixelPtr.read oob (index + 0))).write
      (offset 1) (pixelPtr.read oob (index + 1))).write
      (offset 2) (pixelPtr.read oob (index + 2))
    imgOut := ((h.imgOut.write (offset 0) 0).write (offset 1) 0).write (offset 2) 0 }

/-- The import loop. -/
def importLoopLeft (oob : ℤ → UInt8) (pixelPtr : Buffer ((R + 2) * (C + 2) * 3))
    (h : Allocations R C) : Allocations R C :=
  (fullImage R C).foldl (fun h p => importPixelLeft oob pixelPtr p h) h

/-- One round of the export loop. -/
def exportPixelLeft (oob : ℤ → UInt8) (hostImgOut : Buffer ((R + 2) * (C + 2) * 3)) (p : ℤ × ℤ)
    (pixelPtr : Buffer ((R + 2) * (C + 2) * 3)) : Buffer ((R + 2) * (C + 2) * 3) :=
  let (i, j) := p
  let index := i * ((C + 2 : ℕ) : ℤ) * cn + j * cn
  let offset := fun k => leftOffset (R + 2) (C + 2) (i, j, k)
  ((pixelPtr.write (index + 0) (hostImgOut.read oob (offset 0))).write
    (index + 1) (hostImgOut.read oob (offset 1))).write
    (index + 2) (hostImgOut.read oob (offset 2))

/-- The export loop. -/
def exportLoopLeft (oob : ℤ → UInt8) (hostImgOut : Buffer ((R + 2) * (C + 2) * 3))
    (pixelPtr : Buffer ((R + 2) * (C + 2) * 3)) : Buffer ((R + 2) * (C + 2) * 3) :=
  (fullImage R C).foldl (fun b p => exportPixelLeft oob hostImgOut p b) pixelPtr

/-- The copies of the import loop, as pairs of an offset in the view and one in `pixelPtr`. -/
def importCopies (R C : ℕ) : List (ℤ × ℤ) :=
  Layout.copies (Layout.left (R + 2) (C + 2)) (Layout.pixels (R + 2) (C + 2))

/-- The copies of the export loop, as pairs of an offset in `pixelPtr` and one in the view. -/
def exportCopies (R C : ℕ) : List (ℤ × ℤ) :=
  Layout.copies (Layout.pixels (R + 2) (C + 2)) (Layout.left (R + 2) (C + 2))

theorem importPixelLeft_eq (oob : ℤ → UInt8) (pixelPtr : Buffer ((R + 2) * (C + 2) * 3))
    (p : ℤ × ℤ) (h : Allocations R C) : importPixelLeft oob pixelPtr p h =
      ⟨Region.copy pixelPtr oob (Layout.pixelCopies (Layout.left (R + 2) (C + 2))
          (Layout.pixels (R + 2) (C + 2)) p) h.imgIn,
        Region.scatter (fun _ => 0) ((pixelIx p).map (leftOffset (R + 2) (C + 2))) h.imgOut⟩ := rfl

theorem exportPixelLeft_eq (oob : ℤ → UInt8) (v b : Buffer ((R + 2) * (C + 2) * 3)) (p : ℤ × ℤ) :
    exportPixelLeft oob v p b = Region.copy v oob (Layout.pixelCopies
      (Layout.pixels (R + 2) (C + 2)) (Layout.left (R + 2) (C + 2)) p) b := rfl

/-- **The import loop performs its copies**, and blackens the view of the output. -/
theorem importLoopLeft_eq (oob : ℤ → UInt8) (pixelPtr : Buffer ((R + 2) * (C + 2) * 3))
    (h : Allocations R C) : importLoopLeft oob pixelPtr h =
      ⟨Region.copy pixelPtr oob (importCopies R C) h.imgIn,
        Region.scatter (fun _ => 0) ((importCopies R C).map Prod.fst) h.imgOut⟩ := by
  have hin : (importLoopLeft oob pixelPtr h).imgIn =
      Region.copy pixelPtr oob (importCopies R C) h.imgIn := by
    rw [importCopies, Layout.copies, ← Region.foldl_copy]
    exact (List.foldl_hom Allocations.imgIn fun h p =>
      (congrArg Allocations.imgIn (importPixelLeft_eq oob pixelPtr p h)).symm).symm
  have hout : (importLoopLeft oob pixelPtr h).imgOut =
      Region.scatter (fun _ => 0) ((importCopies R C).map Prod.fst) h.imgOut := by
    rw [importCopies, Layout.targets_copies, Layout.offsets, List.map_flatMap,
      ← Region.foldl_scatter]
    exact (List.foldl_hom Allocations.imgOut fun h p =>
      (congrArg Allocations.imgOut (importPixelLeft_eq oob pixelPtr p h)).symm).symm
  rw [← hin, ← hout]

/-- **The export loop performs its copies.** -/
theorem exportLoopLeft_eq (oob : ℤ → UInt8) (v b : Buffer ((R + 2) * (C + 2) * 3)) :
    exportLoopLeft oob v b = Region.copy v oob (exportCopies R C) b := by
  rw [exportCopies, Layout.copies, ← Region.foldl_copy]
  exact List.foldl_ext _ _ _ fun b p _ => exportPixelLeft_eq oob v b p

/-! ### The loops on the views -/

variable {N M : ℕ}

theorem leftData_write {v : Image N M} {x : Ix} (hx : InExtents N M x) (b : UInt8) :
    Image.leftData (v.write x b) = v.leftData.write (leftOffset N M x) b := by
  refine Region.ext_read (fun _ => 0) fun o ho => ?_
  have hread : ∀ w : Image N M, w.leftData.read (fun _ => 0) o =
      w.read (fun _ => 0) (unleft N M o) := fun w => by
    rw [Region.read_of_valid ho, Region.read_of_valid (inExtents_unleft ho)]
    rfl
  rw [hread, Region.read_write hx, Region.read_write (inBuffer_leftOffset hx)]
  by_cases hox : o = leftOffset N M x
  · rw [hox, unleft_leftOffset hx, Function.update_self, Function.update_self]
  · have hne : unleft N M o ≠ x := fun h => hox (by rw [← h, leftOffset_unleft])
    rw [Function.update_of_ne hox, Function.update_of_ne hne, hread]

theorem read_leftData {v : Image N M} {x : Ix} (hx : InExtents N M x) (oob : ℤ → UInt8)
    (oob' : Ix → UInt8) : v.leftData.read oob (leftOffset N M x) = v.read oob' x :=
  readLeft_of_eq hx rfl oob'

/-- The allocations of two views. -/
def Views.allocations (s : Views R C) : Allocations R C := ⟨s.imgIn.leftData, s.imgOut.leftData⟩

theorem allocations_importPixel (stray : StrayReads) (pixelPtr : Buffer ((R + 2) * (C + 2) * 3))
    {p : ℤ × ℤ} (hp : p ∈ fullImage R C) (h : Views R C) :
    (importPixel stray pixelPtr p h).allocations =
      importPixelLeft stray.ptr pixelPtr p h.allocations := by
  obtain ⟨i, j⟩ := p
  obtain ⟨hi, hj⟩ := mem_mdRange2.1 hp
  have hx : ∀ k : ℤ, 0 ≤ k ∧ k < cn → InExtents (R + 2) (C + 2) (i, j, k) :=
    fun k hk => ⟨hi, hj, hk⟩
  simp only [importPixel, importPixelLeft, Views.allocations, leftData_write (hx 0 (by decide)),
    leftData_write (hx 1 (by decide)), leftData_write (hx 2 (by decide))]

/-- **The import loop on the allocations** is the import loop on the views. -/
theorem allocations_importLoop (stray : StrayReads) (pixelPtr : Buffer ((R + 2) * (C + 2) * 3))
    (h : Views R C) : (importLoop stray pixelPtr h).allocations =
      importLoopLeft stray.ptr pixelPtr h.allocations := by
  refine List.foldl_rel (r := fun (s : Views R C) a => s.allocations = a) rfl ?_
  rintro p hp s _ rfl
  exact allocations_importPixel stray pixelPtr hp s

theorem exportPixelLeft_leftData (stray : StrayReads) (oob : ℤ → UInt8)
    (v : Image (R + 2) (C + 2)) {p : ℤ × ℤ} (hp : p ∈ fullImage R C)
    (b : Buffer ((R + 2) * (C + 2) * 3)) :
    exportPixelLeft oob v.leftData p b = exportPixel stray v p b := by
  obtain ⟨i, j⟩ := p
  obtain ⟨hi, hj⟩ := mem_mdRange2.1 hp
  have hread : ∀ k : ℤ, 0 ≤ k ∧ k < cn →
      v.leftData.read oob (leftOffset (R + 2) (C + 2) (i, j, k)) = v.read stray.view (i, j, k) :=
    fun k hk => read_leftData ⟨hi, hj, hk⟩ _ _
  simp only [exportPixelLeft, exportPixel, hread 0 (by decide), hread 1 (by decide),
    hread 2 (by decide)]

/-- **The export loop on the allocation** is the export loop on the view. -/
theorem exportLoopLeft_leftData (stray : StrayReads) (oob : ℤ → UInt8)
    (v : Image (R + 2) (C + 2)) (b : Buffer ((R + 2) * (C + 2) * 3)) :
    exportLoopLeft oob v.leftData b = exportLoop stray v b :=
  List.foldl_ext _ _ _ fun b _ hp => exportPixelLeft_leftData stray oob v hp b

/-! ### There and back -/

/-- The copies write every byte of the target once, in some order, and read inside the source. -/
def CopiesOnce (R C : ℕ) (cs : List (ℤ × ℤ)) : Prop :=
  (cs.map Prod.fst).Perm (Int.range 0 (((R + 2) * (C + 2) * 3 : ℕ) : ℤ)) ∧
    ∀ c ∈ cs, InBuffer ((R + 2) * (C + 2) * 3) c.2

theorem copiesOnce_copies (L L' : Layout (R + 2) (C + 2)) :
    CopiesOnce R C (Layout.copies L L') :=
  ⟨Layout.perm_targets_copies L L', (Layout.exchange_copies L L').source_valid⟩

theorem exportLoopLeft_importLoopLeft (oob oob' : ℤ → UInt8) (h : Allocations R C)
    (pixelPtr pixelPtr' : Buffer ((R + 2) * (C + 2) * 3)) :
    exportLoopLeft oob' (importLoopLeft oob pixelPtr h).imgIn pixelPtr' = pixelPtr := by
  rw [exportLoopLeft_eq, importLoopLeft_eq, exportCopies, ← Layout.swap_copies]
  exact Region.copy_swap_copy (Layout.exchange_copies _ _) _ _

theorem importLoopLeft_exportLoopLeft (oob oob' : ℤ → UInt8) (h : Allocations R C)
    (v pixelPtr : Buffer ((R + 2) * (C + 2) * 3)) :
    (importLoopLeft oob (exportLoopLeft oob' v pixelPtr) h).imgIn = v := by
  rw [exportLoopLeft_eq, importLoopLeft_eq, importCopies, ← Layout.swap_copies]
  exact Region.copy_swap_copy (Layout.exchange_copies _ _) _ _

/-- **Import and export are inverse.**  Exporting what was imported gives `pixelPtr`, importing what
was exported gives the view.  Each loop performs a list of copies that writes every byte of its
target once and reads inside its source, and the exported picture without its padding is the
picture that was padded. -/
theorem transfers_inverse (oob oob' : ℤ → UInt8) (R C : ℕ) :
    (∀ (h : Allocations R C) pixelPtr pixelPtr',
        exportLoopLeft oob' (importLoopLeft oob pixelPtr h).imgIn pixelPtr' = pixelPtr) ∧
      (∀ (h : Allocations R C) v pixelPtr,
        (importLoopLeft oob (exportLoopLeft oob' v pixelPtr) h).imgIn = v) ∧
      (∀ (h : Allocations R C) pixelPtr, importLoopLeft oob pixelPtr h =
        ⟨Region.copy pixelPtr oob (importCopies R C) h.imgIn,
          Region.scatter (fun _ => 0) ((importCopies R C).map Prod.fst) h.imgOut⟩) ∧
      (∀ v pixelPtr : Buffer ((R + 2) * (C + 2) * 3), exportLoopLeft oob' v pixelPtr =
        Region.copy v oob' (exportCopies R C) pixelPtr) ∧
      CopiesOnce R C (importCopies R C) ∧ CopiesOnce R C (exportCopies R C) ∧
      ∀ (img : Image R C) (h : Allocations R C) pixelPtr', crop (Image.ofData (exportLoopLeft oob'
        (importLoopLeft oob (copyMakeBorder img).data h).imgIn pixelPtr')) = img := by
  refine ⟨fun h pixelPtr pixelPtr' => ?_, fun h v pixelPtr => ?_, fun h pixelPtr => ?_,
    fun v pixelPtr => ?_, ?_, ?_, fun img h pixelPtr' => ?_⟩
  · exact exportLoopLeft_importLoopLeft oob oob' h pixelPtr pixelPtr'
  · exact importLoopLeft_exportLoopLeft oob oob' h v pixelPtr
  · exact importLoopLeft_eq oob pixelPtr h
  · exact exportLoopLeft_eq oob' v pixelPtr
  · exact copiesOnce_copies _ _
  · exact copiesOnce_copies _ _
  · rw [exportLoopLeft_importLoopLeft, Image.ofData_data, crop_copyMakeBorder]

end KokkosStencil
