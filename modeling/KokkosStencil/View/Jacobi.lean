import KokkosStencil.View.Pipeline

/-!
# `parallel_jacobi.cpp`

The policy `stencil_image` of the kernel `apply_jacobi` ranges over the padding as well as over
the picture.  At a padding pixel some neighbours lie outside the extents of `img_in`; what such a
read returns is unknown, and may differ from sweep to sweep and from body to body, so a run is
parametrised by a `SweepReads`.

* `plane_iteration` : one iteration recomputes every pixel of the padded picture;
* `keptRun_iff` : the pixels the crop keeps follow the Jacobi run with fixed padding exactly as
  long as the drift of the padding never shows in the means next to it;
* `keptAt_one` : after one sweep it never does;
* `forall_keptAt_iff` : with two sweeps or more some picture and some stray reads show it.
-/

namespace KokkosStencil

namespace ParallelJacobi

variable {R C : ℕ}

/-- What stray reads of `img_in` return, for every sweep, every body `(i, j)` and every index. -/
abbrev SweepReads := ℕ → ℤ × ℤ → Ix → UInt8

/-- The policy `stencil_image`. -/
def stencilImage (R C : ℕ) : List (ℤ × ℤ) := mdRange2 (0, 0) ((R + 2 : ℤ), (C + 2 : ℤ))

/-- The body of `apply_jacobi`.  The product by `0.2` truncated to `uint8_t` is the quotient by
`5`. -/
def applyJacobi (oob : ℤ × ℤ → Ix → UInt8) (p : ℤ × ℤ) (s : Views R C) : Views R C :=
  let (i, j) := p
  let imgIn := s.imgIn.read (oob p)
  let pixel := fun k => imgIn (i, j, k)
  let left := fun k => imgIn (i, j - 1, k)
  let right := fun k => imgIn (i, j + 1, k)
  let up := fun k => imgIn (i - 1, j, k)
  let down := fun k => imgIn (i + 1, j, k)
  let out := (Int.range 0 cn).foldl
    (fun out k => out.write (i, j, k) (mean5 (pixel k) (left k) (right k) (up k) (down k))) s.imgOut
  { s with imgOut := out }

/-- One iteration: the launch of `apply_jacobi`, then `deep_copy(img_in, img_out)`. -/
def iteration (oob : ℤ × ℤ → Ix → UInt8) (o : LaunchOrder (stencilImage R C)) (s : Views R C) :
    Views R C := (launch o (applyJacobi oob) s).deepCopy

/-- `t` iterations; iteration `s` uses the order `orders s` and the stray reads `oob s`. -/
def loop (oob : SweepReads) (orders : ℕ → LaunchOrder (stencilImage R C)) :
    ℕ → Views R C → Views R C
  | 0, s => s
  | t + 1, s => iteration (oob t) (orders t) (loop oob orders t s)

/-! ### What an iteration does -/

/-- The mean that the body of its pixel computes for element `x`. -/
def stencil (oob : ℤ × ℤ → Ix → UInt8) (v : Image (R + 2) (C + 2)) (x : Ix) : UInt8 :=
  viewCross.mean (v.read (oob (x.1, x.2.1))) x

theorem applyJacobi_eq (oob : ℤ × ℤ → Ix → UInt8) (p : ℤ × ℤ) (s : Views R C) :
    applyJacobi oob p s =
      ⟨s.imgIn, Region.scatter (stencil oob s.imgIn) (pixelIx p) s.imgOut⟩ := rfl

/-- **An iteration recomputes every pixel of the padded picture**, in every order. -/
theorem plane_iteration (oob : ℤ × ℤ → Ix → UInt8) (o : LaunchOrder (stencilImage R C))
    (s : Views R C) {x : Ix} (hx : InExtents (R + 2) (C + 2) x) :
    (iteration oob o s).imgIn.plane x.2.2 (x.1, x.2.1) = stencil oob s.imgIn x := by
  -- the policy covers the padding too, so every element is written
  have hmem : ∀ y, y ∈ o.1.flatMap pixelIx ↔ InExtents (R + 2) (C + 2) y := by
    intro y
    rw [← mem_fullImage_pixelIx]
    simp only [List.mem_flatMap, LaunchOrder.mem_iff]
    rfl
  rw [iteration, Views.launch_scatter o (stencil oob) pixelIx (applyJacobi_eq oob)]
  exact Region.read_scatter_of_mem (fun y hy => (hmem y).1 hy) ((hmem x).2 hx)

/-- At an interior pixel the new value is the mean in the channel's grid. -/
theorem plane_iteration_of_interior (oob : ℤ × ℤ → Ix → UInt8)
    (o : LaunchOrder (stencilImage R C)) (s : Views R C) (k : ℤ) {p : ℤ × ℤ}
    (hp : Grid.Interior R C p) :
    (iteration oob o s).imgIn.plane k p = Grid.cross.mean (s.imgIn.plane k) p := by
  by_cases hk : 0 ≤ k ∧ k < 3
  · have hx : Views.InteriorIx R C (p.1, p.2, k) := ⟨hp, hk⟩
    rw [plane_iteration oob o s (Views.inExtents_of_interiorIx hx)]
    exact Views.mean_congr_oob s.imgIn hx _ _
  · -- no such channel: both sides are black
    have hout : ∀ q : ℤ × ℤ, ¬ InExtents (R + 2) (C + 2) (q.1, q.2, k) := fun q h => hk h.2.2
    have hblack : ∀ q, s.imgIn.plane k q = 0 := fun q => Image.plane_of_not_inExtents (hout q)
    rw [Image.plane_of_not_inExtents (hout p)]
    simp only [Cross.mean, hblack, mean5_zero]

/-! ### The pixels the crop keeps -/

/-- The views after `t` iterations. -/
def run (oob : SweepReads) (orders : ℕ → LaunchOrder (stencilImage R C))
    (img : Image (R + 2) (C + 2)) (t : ℕ) : Views R C := loop oob orders t (Views.start img)

theorem run_succ (oob : SweepReads) (orders : ℕ → LaunchOrder (stencilImage R C))
    (img : Image (R + 2) (C + 2)) (t : ℕ) :
    run oob orders img (t + 1) = iteration (oob t) (orders t) (run oob orders img t) := rfl

/-- The part of `main` from the padded picture `pixelPtr` to the cropped result, with `t`
iterations. -/
def filtered (b : Build) (stray : StrayReads) (oob : SweepReads)
    (orders : ℕ → LaunchOrder (stencilImage R C)) (m : Mirrored R C)
    (pixelPtr : Buffer ((R + 2) * (C + 2) * 3)) (t : ℕ) : Image R C :=
  crop (Image.ofData (filterStage b stray (loop oob orders t) m pixelPtr))

/-- After `t` iterations every kept pixel is what `t` Jacobi sweeps with fixed padding give. -/
def KeptAt (b : Build) (stray : StrayReads) (oob : SweepReads)
    (orders : ℕ → LaunchOrder (stencilImage R C)) (m : Mirrored R C)
    (pixelPtr : Buffer ((R + 2) * (C + 2) * 3)) (t : ℕ) : Prop :=
  ∀ k p, Grid.Interior R C p →
    (filtered b stray oob orders m pixelPtr t).plane k (p.1 - 1, p.2 - 1) =
      (Grid.jacobi R C)^[t] ((Image.ofData pixelPtr).plane k) p

/-- Channel `k` of the picture after `t` iterations with the padding set back to its initial
values. -/
def pinned (oob : SweepReads) (orders : ℕ → LaunchOrder (stencilImage R C))
    (img : Image (R + 2) (C + 2)) (t : ℕ) (k : ℤ) : ℤ × ℤ → UInt8 :=
  Sweep.overlay (Grid.Interior R C) ((run oob orders img t).imgIn.plane k) (img.plane k)

/-- At no kept pixel does the drift of the padding show in the next mean: what its padding
neighbours have lost together since the start does not carry the five-point sum with the initial
padding across a multiple of `5`. -/
def DriftHidden (oob : SweepReads) (orders : ℕ → LaunchOrder (stencilImage R C))
    (img : Image (R + 2) (C + 2)) (t : ℕ) : Prop :=
  ∀ k p, Grid.Interior R C p →
    NoCarry (Grid.cross.change (pinned oob orders img t k) ((run oob orders img t).imgIn.plane k) p)
      (Grid.cross.sum (pinned oob orders img t k) p)

theorem plane_crop (v : Image (R + 2) (C + 2)) (k : ℤ) {p : ℤ × ℤ} (hp : Grid.Interior R C p) :
    (crop v).plane k (p.1 - 1, p.2 - 1) = v.plane k p := by
  have h : InExtents R C (p.1 - 1, p.2 - 1, k) ↔ InExtents (R + 2) (C + 2) (p.1, p.2, k) := by
    simp only [Grid.Interior, InExtents, cn] at hp ⊢
    omega
  by_cases hx : InExtents R C (p.1 - 1, p.2 - 1, k)
  · rw [Image.plane, Region.read_of_valid hx, crop]
    simp only [sub_add_cancel]
    rfl
  · rw [Image.plane_of_not_inExtents hx, Image.plane_of_not_inExtents fun h' => hx (h.2 h')]

/-- The kept pixels are those of the `img_out` that the loop leaves. -/
theorem plane_crop_filterStage (b : Build) (stray : StrayReads) (loop : Views R C → Views R C)
    (m : Mirrored R C) (pixelPtr : Buffer ((R + 2) * (C + 2) * 3)) (k : ℤ) {p : ℤ × ℤ}
    (hp : Grid.Interior R C p) :
    (crop (Image.ofData (filterStage b stray loop m pixelPtr))).plane k (p.1 - 1, p.2 - 1) =
      (loop (Views.start (Image.ofData pixelPtr))).imgOut.plane k p := by
  rw [filterStage_eq, Image.ofData_data, plane_crop _ k hp]

/-- The kept pixels are those of `img_in` after the last iteration. -/
theorem plane_filtered (b : Build) (stray : StrayReads) (oob : SweepReads)
    (orders : ℕ → LaunchOrder (stencilImage R C)) (m : Mirrored R C)
    (pixelPtr : Buffer ((R + 2) * (C + 2) * 3)) (t : ℕ) (k : ℤ) {p : ℤ × ℤ}
    (hp : Grid.Interior R C p) :
    (filtered b stray oob orders m pixelPtr (t + 1)).plane k (p.1 - 1, p.2 - 1) =
      (run oob orders (Image.ofData pixelPtr) (t + 1)).imgIn.plane k p :=
  plane_crop_filterStage b stray (loop oob orders (t + 1)) m pixelPtr k hp

/-- The invariant of a right run: inside the padding `img_in` is the Jacobi run. -/
def InteriorRight (oob : SweepReads) (orders : ℕ → LaunchOrder (stencilImage R C))
    (img : Image (R + 2) (C + 2)) (t : ℕ) : Prop :=
  ∀ k p, Grid.Interior R C p →
    (run oob orders img t).imgIn.plane k p = (Grid.jacobi R C)^[t] (img.plane k) p

theorem keptAt_succ_iff (b : Build) (stray : StrayReads) (oob : SweepReads)
    (orders : ℕ → LaunchOrder (stencilImage R C)) (m : Mirrored R C)
    (pixelPtr : Buffer ((R + 2) * (C + 2) * 3)) (t : ℕ) :
    KeptAt b stray oob orders m pixelPtr (t + 1) ↔
      InteriorRight oob orders (Image.ofData pixelPtr) (t + 1) := by
  refine forall₂_congr fun k p => forall_congr' fun hp => ?_
  rw [plane_filtered _ _ _ _ _ _ _ _ hp]

/-- If the interior is right, the Jacobi run is the pinned picture. -/
theorem iterate_jacobi_eq_pinned (oob : SweepReads) (orders : ℕ → LaunchOrder (stencilImage R C))
    (img : Image (R + 2) (C + 2)) (t : ℕ) (h : InteriorRight oob orders img t) (k : ℤ) :
    (Grid.jacobi R C)^[t] (img.plane k) = pinned oob orders img t k := by
  funext p
  by_cases hp : Grid.Interior R C p
  · rw [pinned, Sweep.overlay_of_mem hp, h k p hp]
  · rw [pinned, Sweep.overlay_of_notMem hp, Grid.iterate_jacobi_of_not_interior hp]

/-- If the interior is right before a sweep, it is right after it iff no mean shows the drift. -/
theorem interiorRight_succ_iff (oob : SweepReads) (orders : ℕ → LaunchOrder (stencilImage R C))
    (img : Image (R + 2) (C + 2)) (t : ℕ) (h : InteriorRight oob orders img t) :
    InteriorRight oob orders img (t + 1) ↔ DriftHidden oob orders img t := by
  refine forall₂_congr fun k p => forall_congr' fun hp => ?_
  have hpin := iterate_jacobi_eq_pinned oob orders img t h k
  have hp' : pinned oob orders img t k p = (run oob orders img t).imgIn.plane k p :=
    Sweep.overlay_of_mem hp
  rw [run_succ, plane_iteration_of_interior _ _ _ _ hp, Function.iterate_succ_apply',
    Grid.jacobi_of_interior hp, hpin, Cross.mean_eq_iff_change hp']

/-- **When the program computes Jacobi sweeps with fixed padding**: the kept pixels are right
after each of the first `t` sweeps iff the drift of the padding is hidden before each of them. -/
theorem keptRun_iff (b : Build) (stray : StrayReads) (oob : SweepReads)
    (orders : ℕ → LaunchOrder (stencilImage R C)) (m : Mirrored R C)
    (pixelPtr : Buffer ((R + 2) * (C + 2) * 3)) (t : ℕ) :
    (∀ s < t, KeptAt b stray oob orders m pixelPtr (s + 1)) ↔
      ∀ s < t, DriftHidden oob orders (Image.ofData pixelPtr) s := by
  have h₀ : InteriorRight oob orders (Image.ofData pixelPtr) 0 := fun _ _ _ => rfl
  simp only [keptAt_succ_iff]
  exact forall_lt_succ_iff_forall_lt h₀ (interiorRight_succ_iff oob orders _) t

/-! ### One sweep and more -/

/-- Before the first sweep there is no drift. -/
theorem driftHidden_zero (oob : SweepReads) (orders : ℕ → LaunchOrder (stencilImage R C))
    (img : Image (R + 2) (C + 2)) : DriftHidden oob orders img 0 := by
  intro k p hp
  have hpin : pinned oob orders img 0 k = img.plane k := by
    funext q
    simp only [pinned, Sweep.overlay]
    split_ifs <;> rfl
  rw [hpin]
  exact (Cross.mean_eq_iff_change rfl).1 rfl

/-- The first sweep is right whatever stray reads return. -/
theorem keptAt_one (b : Build) (stray : StrayReads) (oob : SweepReads)
    (orders : ℕ → LaunchOrder (stencilImage R C)) (m : Mirrored R C)
    (pixelPtr : Buffer ((R + 2) * (C + 2) * 3)) : KeptAt b stray oob orders m pixelPtr 1 := by
  have h₀ : InteriorRight oob orders (Image.ofData pixelPtr) 0 := fun _ _ _ => rfl
  rw [keptAt_succ_iff, interiorRight_succ_iff oob orders _ 0 h₀]
  exact driftHidden_zero oob orders _

/-- The black picture. -/
def blackPixels (R C : ℕ) : Buffer ((R + 2) * (C + 2) * 3) := fun _ => 0

theorem plane_blackPixels (k : ℤ) : (Image.ofData (blackPixels R C)).plane k = fun _ => 0 := by
  funext p
  by_cases h : InExtents (R + 2) (C + 2) (p.1, p.2, k)
  · rw [Image.plane, Region.read_of_valid h]; rfl
  · exact Image.plane_of_not_inExtents h

/-- When stray reads are white, the padding above the first pixel is at least `255 / 5 = 51`
after every sweep. -/
theorem le_padding (orders : ℕ → LaunchOrder (stencilImage R C)) (img : Image (R + 2) (C + 2))
    (t : ℕ) :
    51 ≤ ((run (fun _ _ _ => 255) orders img (t + 1)).imgIn.plane 0 (0, 1)).toNat := by
  have hx : InExtents (R + 2) (C + 2) (0, 1, 0) := by simp only [InExtents, cn]; omega
  have hup : ¬ InExtents (R + 2) (C + 2) (viewCross.up (0, 1, 0)) := by
    simp [InExtents, viewCross]
  have hle := viewCross.up_div_le_mean
    ((run (fun _ _ _ => 255) orders img t).imgIn.read fun _ => 255) (0, 1, 0)
  rw [Region.read_of_invalid hup] at hle
  rw [run_succ, plane_iteration _ _ _ hx]
  exact hle

/-- From the second sweep on, white stray reads show in the first pixel of a black picture. -/
theorem not_keptAt_of_two_le (hR : 0 < R) (hC : 0 < C) (b : Build) (stray : StrayReads)
    (orders : ℕ → LaunchOrder (stencilImage R C)) (m : Mirrored R C) (t : ℕ) :
    ¬ KeptAt b stray (fun _ _ _ => 255) orders m (blackPixels R C) (t + 2) := by
  intro h
  have hp : Grid.Interior R C (1, 1) := by simp only [Grid.Interior]; omega
  have hcell := h 0 (1, 1) hp
  rw [plane_filtered _ _ _ _ _ _ _ _ hp, run_succ, plane_iteration_of_interior _ _ _ _ hp,
    plane_blackPixels, Grid.iterate_jacobi_black] at hcell
  have hle := Grid.cross.up_div_le_mean
    ((run (fun _ _ _ => 255) orders (Image.ofData (blackPixels R C)) (t + 1)).imgIn.plane 0) (1, 1)
  have hpad := le_padding orders (Image.ofData (blackPixels R C)) t
  have hzero : (0 : UInt8).toNat = 0 := rfl
  rw [hcell, hzero] at hle
  change (((run (fun _ _ _ => 255) orders (Image.ofData (blackPixels R C)) (t + 1)).imgIn.plane 0
    (0, 1)).toNat) / 5 ≤ 0 at hle
  omega

/-- **One sweep, and no more, is right for every picture**: of all numbers of iterations, only
`1` gives Jacobi sweeps with fixed padding for all contents and all stray reads. -/
theorem forall_keptAt_iff (hR : 0 < R) (hC : 0 < C) {t : ℕ} (ht : 1 ≤ t) (b : Build)
    (stray : StrayReads) (orders : ℕ → LaunchOrder (stencilImage R C)) (m : Mirrored R C) :
    (∀ oob pixelPtr, KeptAt b stray oob orders m pixelPtr t) ↔ t = 1 := by
  constructor
  · intro h
    by_contra hne
    obtain ⟨s, rfl⟩ : ∃ s, t = s + 2 := ⟨t - 2, by omega⟩
    exact not_keptAt_of_two_le hR hC b stray orders m s (h _ _)
  · rintro rfl
    exact fun oob pixelPtr => keptAt_one b stray oob orders m pixelPtr

/-- On the black `1 × 1` picture two sweeps with white stray reads leave `204 / 5 = 40` in its
pixel, where fixed padding gives black. -/
theorem not_keptAt_two : ¬ KeptAt (R := 1) (C := 1) .host ⟨fun _ => 0, fun _ => 0⟩
    (fun _ _ _ => 255) (fun _ => LaunchOrder.inOrder _)
    ⟨Views.start fun _ => 0, Views.start fun _ => 0⟩ (blackPixels 1 1) 2 :=
  not_keptAt_of_two_le Nat.zero_lt_one Nat.zero_lt_one _ _ _ _ 0

end ParallelJacobi

end KokkosStencil
