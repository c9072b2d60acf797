import KokkosStencil.View.Basic

/-!
# From `pixelPtr` through the views and back

The parallel programs share the frame around their device loop: the padded picture is copied
pixel by pixel into host mirrors of the views, `deep_copy` moves the mirrors to the device, the
loop runs there, and `img_out` travels back the same way into `pixelPtr`.

`create_mirror_view` returns separate host views in a device build and the views themselves in a
host build, where every `deep_copy` between a view and its mirror copies a view onto itself.  The
frame is one function of the build, `filterStage`, and `filterStage_eq` shows that the build does
not show: in both the loop starts from the picture in `pixelPtr` and a black `img_out`, and the
final `img_out` is written back byte for byte.
-/

namespace KokkosStencil

variable {R C : ℕ}

/-- Where the views live. -/
inductive Build where
  /-- The views are in host memory and are their own mirrors. -/
  | host
  /-- The views are in device memory; the mirrors are separate host views. -/
  | device

/-- The memory of a parallel program: the views, and the separate mirrors of a device build. -/
structure Mirrored (R C : ℕ) where
  /-- `img_in` and `img_out` -/
  dev : Views R C
  /-- The separate host mirrors; unused in a host build. -/
  sep : Views R C

/-- What reads outside an allocation return. -/
structure StrayReads where
  /-- From a view. -/
  view : Ix → UInt8
  /-- Through a byte pointer. -/
  ptr : ℤ → UInt8

namespace Mirrored

/-- `host_img_in` and `host_img_out` -/
def mirrors (b : Build) (m : Mirrored R C) : Views R C :=
  match b with
  | .host => m.dev
  | .device => m.sep

/-- Change the mirrors. -/
def setMirrors (b : Build) (m : Mirrored R C) (v : Views R C) : Mirrored R C :=
  match b with
  | .host => { m with dev := v }
  | .device => { m with sep := v }

@[simp] theorem mirrors_setMirrors (b : Build) (m : Mirrored R C) (v : Views R C) :
    (m.setMirrors b v).mirrors b = v := by cases b <;> rfl

/-- `deep_copy(img_in, host_img_in)` -/
def copyIn (b : Build) (m : Mirrored R C) : Mirrored R C :=
  { m with dev := { m.dev with imgIn := (m.mirrors b).imgIn } }

/-- `deep_copy(img_out, host_img_out)` -/
def copyOut (b : Build) (m : Mirrored R C) : Mirrored R C :=
  { m with dev := { m.dev with imgOut := (m.mirrors b).imgOut } }

/-- `deep_copy(host_img_out, img_out)` -/
def copyBack (b : Build) (m : Mirrored R C) : Mirrored R C :=
  m.setMirrors b { m.mirrors b with imgOut := m.dev.imgOut }

/-- In either build the two copies make the views equal to the mirrors. -/
theorem dev_copyOut_copyIn (b : Build) (m : Mirrored R C) (v : Views R C) :
    (((m.setMirrors b v).copyIn b).copyOut b).dev = v := by cases b <;> rfl

theorem mirrors_copyBack (b : Build) (m : Mirrored R C) :
    ((m.copyBack b).mirrors b).imgOut = m.dev.imgOut := by
  rw [copyBack, mirrors_setMirrors]

end Mirrored

/-- One round of the import loop: the three bytes of pixel `p` go to `host_img_in`, black goes to
`host_img_out`. -/
def importPixel (stray : StrayReads) (pixelPtr : Buffer ((R + 2) * (C + 2) * 3)) (p : ℤ × ℤ)
    (h : Views R C) : Views R C :=
  let (i, j) := p
  let index := i * ((C + 2 : ℕ) : ℤ) * cn + j * cn
  { imgIn := ((h.imgIn.write (i, j, 0) (pixelPtr.read stray.ptr (index + 0))).write
      (i, j, 1) (pixelPtr.read stray.ptr (index + 1))).write
      (i, j, 2) (pixelPtr.read stray.ptr (index + 2))
    imgOut := ((h.imgOut.write (i, j, 0) 0).write (i, j, 1) 0).write (i, j, 2) 0 }

/-- The import loop. -/
def importLoop (stray : StrayReads) (pixelPtr : Buffer ((R + 2) * (C + 2) * 3))
    (h : Views R C) : Views R C :=
  (fullImage R C).foldl (fun h p => importPixel stray pixelPtr p h) h

/-- One round of the export loop: pixel `p` of `host_img_out` goes back to `pixelPtr`. -/
def exportPixel (stray : StrayReads) (hostImgOut : Image (R + 2) (C + 2)) (p : ℤ × ℤ)
    (pixelPtr : Buffer ((R + 2) * (C + 2) * 3)) : Buffer ((R + 2) * (C + 2) * 3) :=
  let (i, j) := p
  let index := i * ((C + 2 : ℕ) : ℤ) * cn + j * cn
  ((pixelPtr.write (index + 0) (hostImgOut.read stray.view (i, j, 0))).write
    (index + 1) (hostImgOut.read stray.view (i, j, 1))).write
    (index + 2) (hostImgOut.read stray.view (i, j, 2))

/-- The export loop. -/
def exportLoop (stray : StrayReads) (hostImgOut : Image (R + 2) (C + 2))
    (pixelPtr : Buffer ((R + 2) * (C + 2) * 3)) : Buffer ((R + 2) * (C + 2) * 3) :=
  (fullImage R C).foldl (fun b p => exportPixel stray hostImgOut p b) pixelPtr

/-- The import loop and the two copies to the device. -/
def prepare (b : Build) (stray : StrayReads) (m : Mirrored R C)
    (pixelPtr : Buffer ((R + 2) * (C + 2) * 3)) : Mirrored R C :=
  ((m.setMirrors b (importLoop stray pixelPtr (m.mirrors b))).copyIn b).copyOut b

/-- The copy from the device and the export loop. -/
def finish (b : Build) (stray : StrayReads) (m : Mirrored R C)
    (pixelPtr : Buffer ((R + 2) * (C + 2) * 3)) : Buffer ((R + 2) * (C + 2) * 3) :=
  exportLoop stray ((m.copyBack b).mirrors b).imgOut pixelPtr

/-- From `pixelPtr` to `pixelPtr`, around the device loop `loop`. -/
def filterStage (b : Build) (stray : StrayReads) (loop : Views R C → Views R C)
    (m : Mirrored R C) (pixelPtr : Buffer ((R + 2) * (C + 2) * 3)) :
    Buffer ((R + 2) * (C + 2) * 3) :=
  let m := prepare b stray m pixelPtr
  finish b stray { m with dev := loop m.dev } pixelPtr

/-! ### What the loops do -/

theorem importPixel_eq (stray : StrayReads) (pixelPtr : Buffer ((R + 2) * (C + 2) * 3))
    (p : ℤ × ℤ) (h : Views R C) : importPixel stray pixelPtr p h =
      ⟨Region.scatter (fun x => pixelPtr.read stray.ptr (pix (C + 2) x)) (pixelIx p) h.imgIn,
        Region.scatter (fun _ => 0) (pixelIx p) h.imgOut⟩ := rfl

/-- **The import loop** leaves the picture in `host_img_in` and black in `host_img_out`. -/
theorem importLoop_eq (stray : StrayReads) (pixelPtr : Buffer ((R + 2) * (C + 2) * 3))
    (h : Views R C) : importLoop stray pixelPtr h = Views.start (Image.ofData pixelPtr) := by
  have hin : (importLoop stray pixelPtr h).imgIn = Region.scatter
      (fun x => pixelPtr.read stray.ptr (pix (C + 2) x)) ((fullImage R C).flatMap pixelIx)
      h.imgIn := by
    rw [← Region.foldl_scatter]
    exact (List.foldl_hom Views.imgIn fun h p =>
      (congrArg Views.imgIn (importPixel_eq stray pixelPtr p h)).symm).symm
  have hout : (importLoop stray pixelPtr h).imgOut =
      Region.scatter (fun _ => 0) ((fullImage R C).flatMap pixelIx) h.imgOut := by
    rw [← Region.foldl_scatter]
    exact (List.foldl_hom Views.imgOut fun h p =>
      (congrArg Views.imgOut (importPixel_eq stray pixelPtr p h)).symm).symm
  have hval : ∀ x ∈ (fullImage R C).flatMap pixelIx, InExtents (R + 2) (C + 2) x :=
    fun x hx => mem_fullImage_pixelIx.1 hx
  refine Views.ext ?_ ?_
  · refine Region.ext_read stray.view fun x hx => ?_
    rw [hin, Region.read_scatter_of_mem hval (mem_fullImage_pixelIx.2 hx), Region.read_of_valid hx,
      Region.read_of_valid (inBuffer_pix hx)]
    rfl
  · refine Region.ext_read stray.view fun x hx => ?_
    rw [hout, Region.read_scatter_of_mem hval (mem_fullImage_pixelIx.2 hx), Region.read_of_valid hx]
    rfl

theorem exportPixel_eq (stray : StrayReads) (v : Image (R + 2) (C + 2)) {p : ℤ × ℤ}
    (hp : p ∈ fullImage R C) (b : Buffer ((R + 2) * (C + 2) * 3)) : exportPixel stray v p b =
      Region.scatter (v.data.read stray.ptr) ((pixelIx p).map (pix (C + 2))) b := by
  have hx : ∀ x ∈ pixelIx p, v.read stray.view x = v.data.read stray.ptr (pix (C + 2) x) := by
    intro x hx
    have hin := mem_fullImage_pixelIx.1 (List.mem_flatMap.2 ⟨p, hp, hx⟩)
    exact (Image.read_data hin _ _).symm
  simp only [pixelIx, List.mem_cons, List.not_mem_nil, or_false, forall_eq_or_imp,
    forall_eq] at hx
  obtain ⟨h₀, h₁, h₂⟩ := hx
  obtain ⟨i, j⟩ := p
  simp only [exportPixel, h₀, h₁, h₂]
  rfl

/-- **The export loop** overwrites every byte of `pixelPtr` with the picture in the view. -/
theorem exportLoop_eq (stray : StrayReads) (v : Image (R + 2) (C + 2))
    (b : Buffer ((R + 2) * (C + 2) * 3)) : exportLoop stray v b = v.data := by
  have hoff : (fullImage R C).flatMap (fun p => (pixelIx p).map (pix (C + 2))) =
      (Layout.pixels (R + 2) (C + 2)).offsets := by
    rw [Layout.offsets, List.map_flatMap]
    rfl
  have hfold : exportLoop stray v b =
      Region.scatter (v.data.read stray.ptr) (Layout.pixels (R + 2) (C + 2)).offsets b := by
    rw [← hoff, ← Region.foldl_scatter]
    exact List.foldl_ext _ _ _ fun b p hp => exportPixel_eq stray v hp b
  refine Region.ext_read stray.ptr fun o ho => ?_
  rw [hfold, Region.read_scatter_of_mem (fun _ => (Layout.mem_offsets _).1)
    ((Layout.mem_offsets _).2 ho)]

/-- In either build the loop starts from the picture and a black `img_out`. -/
theorem dev_prepare (b : Build) (stray : StrayReads) (m : Mirrored R C)
    (pixelPtr : Buffer ((R + 2) * (C + 2) * 3)) :
    (prepare b stray m pixelPtr).dev = Views.start (Image.ofData pixelPtr) := by
  rw [prepare, importLoop_eq, Mirrored.dev_copyOut_copyIn]

/-- In either build `pixelPtr` receives the `img_out` of the device. -/
theorem finish_eq (b : Build) (stray : StrayReads) (m : Mirrored R C)
    (pixelPtr : Buffer ((R + 2) * (C + 2) * 3)) :
    finish b stray m pixelPtr = m.dev.imgOut.data := by
  rw [finish, exportLoop_eq, Mirrored.mirrors_copyBack]

/-- **The build does not show**: the stage hands the loop the picture in `pixelPtr` and writes
back the `img_out` the loop leaves. -/
theorem filterStage_eq (b : Build) (stray : StrayReads) (loop : Views R C → Views R C)
    (m : Mirrored R C) (pixelPtr : Buffer ((R + 2) * (C + 2) * 3)) :
    filterStage b stray loop m pixelPtr =
      (loop (Views.start (Image.ofData pixelPtr))).imgOut.data := by
  simp only [filterStage, finish_eq, dev_prepare]

end KokkosStencil
