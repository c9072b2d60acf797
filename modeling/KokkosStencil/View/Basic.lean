import KokkosStencil.Image.Basic

/-!
# Kokkos views

The parallel programs keep two views `img_in`, `img_out` of the extents of the padded picture
(`Views`), run kernels over index policies, and copy one view onto the other.

* `launch_scatter` : a kernel whose bodies write to `img_out` values computed from `img_in` leaves
  the same views in every order of its bodies;
* `sweep` is what one pass of a five-point kernel over all interior elements followed by
  `deep_copy(img_in, img_out)` does, whatever launches the pass consists of; `iterate_sweep` says
  that from a picture with black padding it performs Jacobi sweeps channel by channel.
-/

namespace KokkosStencil

/-- The two views of a parallel program. -/
structure Views (R C : ℕ) where
  /-- `img_in` -/
  imgIn : Image (R + 2) (C + 2)
  /-- `img_out` -/
  imgOut : Image (R + 2) (C + 2)

/-- The neighbours of an element, in the same channel. -/
def viewCross : Cross Ix where
  up x := (x.1 - 1, x.2)
  down x := (x.1 + 1, x.2)
  left x := (x.1, x.2.1 - 1, x.2.2)
  right x := (x.1, x.2.1 + 1, x.2.2)

namespace Views

variable {R C : ℕ}

@[ext] theorem ext {s s' : Views R C} (hin : s.imgIn = s'.imgIn) (hout : s.imgOut = s'.imgOut) :
    s = s' := by
  cases s
  cases s'
  simp only at hin hout
  rw [hin, hout]

/-- `img_in` holding the picture and `img_out` black: the views when the first kernel starts. -/
def start (img : Image (R + 2) (C + 2)) : Views R C := ⟨img, fun _ => 0⟩

/-- `deep_copy(img_in, img_out)` -/
def deepCopy (s : Views R C) : Views R C := { s with imgIn := s.imgOut }

/-- Bodies that scatter values computed from `img_in` over `img_out`, run one after the other. -/
theorem foldl_scatter {κ : Type*} (val : Image (R + 2) (C + 2) → Ix → UInt8) (cells : κ → List Ix)
    {body : κ → Views R C → Views R C}
    (hbody : ∀ x s, body x s = ⟨s.imgIn, Region.scatter (val s.imgIn) (cells x) s.imgOut⟩)
    (xs : List κ) (s : Views R C) : xs.foldl (fun s x => body x s) s =
      ⟨s.imgIn, Region.scatter (val s.imgIn) (xs.flatMap cells) s.imgOut⟩ := by
  induction xs generalizing s with
  | nil => rfl
  | cons x xs ih =>
    rw [List.foldl_cons, ih, hbody, List.flatMap_cons, Region.scatter_append]

/-- A launch of such bodies. -/
theorem launch_scatter {κ : Type*} {policy : List κ} (o : LaunchOrder policy)
    (val : Image (R + 2) (C + 2) → Ix → UInt8) (cells : κ → List Ix)
    {body : κ → Views R C → Views R C}
    (hbody : ∀ x s, body x s = ⟨s.imgIn, Region.scatter (val s.imgIn) (cells x) s.imgOut⟩)
    (s : Views R C) : launch o body s =
      ⟨s.imgIn, Region.scatter (val s.imgIn) (o.1.flatMap cells) s.imgOut⟩ :=
  foldl_scatter val cells hbody o.1 s

/-! ### One sweep of the interior -/

/-- The interior elements of the views. -/
def InteriorIx (R C : ℕ) (x : Ix) : Prop :=
  Grid.Interior R C (x.1, x.2.1) ∧ 0 ≤ x.2.2 ∧ x.2.2 < cn

/-- All interior elements, as the policy `{1, 1, 0}, {rows - 1, cols - 1, cn}` lists them. -/
def interiorIx (R C : ℕ) : List Ix := mdRange3 (1, 1, 0) ((R + 2 : ℤ) - 1, (C + 2 : ℤ) - 1, cn)

theorem mem_interiorIx {x : Ix} : x ∈ interiorIx R C ↔ InteriorIx R C x := by
  simp only [interiorIx, mem_mdRange3, InteriorIx, Grid.Interior, cn]
  omega

theorem inExtents_of_interiorIx {x : Ix} (h : InteriorIx R C x) :
    InExtents (R + 2) (C + 2) x := inExtents_of_interior h.1 h.2

/-- The means of all interior elements of `img_in` replace them in `img_out`, which is then
copied onto `img_in`. -/
def sweep (s : Views R C) : Views R C :=
  deepCopy ⟨s.imgIn,
    Region.scatter (viewCross.mean (s.imgIn.read fun _ => 0)) (interiorIx R C) s.imgOut⟩

/-- The stencil at an interior element stays inside the extents. -/
theorem inExtents_neighbours {x : Ix} (h : InteriorIx R C x) :
    InExtents (R + 2) (C + 2) x ∧ InExtents (R + 2) (C + 2) (viewCross.left x) ∧
      InExtents (R + 2) (C + 2) (viewCross.right x) ∧
      InExtents (R + 2) (C + 2) (viewCross.up x) ∧
      InExtents (R + 2) (C + 2) (viewCross.down x) := by
  simp only [InteriorIx, Grid.Interior, InExtents, viewCross, cn] at h ⊢
  omega

/-- So it does not depend on what reads outside the extents return. -/
theorem mean_congr_oob (v : Image (R + 2) (C + 2)) {x : Ix} (h : InteriorIx R C x)
    (oob oob' : Ix → UInt8) :
    viewCross.mean (v.read oob) x = viewCross.mean (v.read oob') x := by
  obtain ⟨h₀, hl, hr, hu, hd⟩ := inExtents_neighbours h
  exact Cross.mean_congr (Region.read_congr_oob h₀ _) (Region.read_congr_oob hl _)
    (Region.read_congr_oob hr _) (Region.read_congr_oob hu _) (Region.read_congr_oob hd _)

/-- Scattering the means over the interior elements, in any order and any number of launches,
and copying the result back is a `sweep`. -/
theorem deepCopy_scatter_eq_sweep (s : Views R C) (oob : Ix → UInt8) {xs : List Ix}
    (hxs : ∀ x, x ∈ xs ↔ InteriorIx R C x) :
    deepCopy ⟨s.imgIn, Region.scatter (viewCross.mean (s.imgIn.read oob)) xs s.imgOut⟩ =
      sweep s := by
  have h : Region.scatter (viewCross.mean (s.imgIn.read oob)) xs s.imgOut =
      Region.scatter (viewCross.mean (s.imgIn.read fun _ => 0)) (interiorIx R C) s.imgOut :=
    Region.scatter_congr (fun x hx => inExtents_of_interiorIx ((hxs x).1 hx))
      (fun x => (hxs x).trans mem_interiorIx.symm)
      fun x hx => mean_congr_oob s.imgIn ((hxs x).1 hx) _ _
  rw [sweep, h]

theorem sweep_imgIn (s : Views R C) : (sweep s).imgIn = (sweep s).imgOut := rfl

theorem plane_sweep (s : Views R C) (k : ℤ) (p : ℤ × ℤ) :
    (sweep s).imgOut.plane k p =
      if Grid.Interior R C p then Grid.cross.mean (s.imgIn.plane k) p else s.imgOut.plane k p := by
  have hval : ∀ x ∈ interiorIx R C, InExtents (R + 2) (C + 2) x :=
    fun x hx => inExtents_of_interiorIx (mem_interiorIx.1 hx)
  show (Region.scatter _ (interiorIx R C) s.imgOut).read _ (p.1, p.2, k) = _
  rw [Region.read_scatter hval]
  by_cases hp : Grid.Interior R C p
  · rw [if_pos hp]
    by_cases hk : 0 ≤ k ∧ k < 3
    · rw [if_pos (mem_interiorIx.2 ⟨hp, hk⟩)]; rfl
    · -- no such channel: both sides are black
      have hout : ∀ q : ℤ × ℤ, ¬ InExtents (R + 2) (C + 2) (q.1, q.2, k) := fun q h => hk h.2.2
      have hblack : ∀ q, s.imgIn.plane k q = 0 := fun q => Image.plane_of_not_inExtents (hout q)
      rw [if_neg fun h => hk (mem_interiorIx.1 h).2, Region.read_of_invalid (hout p)]
      simp only [Cross.mean, hblack, mean5_zero]
  · rw [if_neg hp, if_neg fun h => hp (mem_interiorIx.1 h).1]; rfl

/-- A sweep keeps the border of `img_out`. -/
theorem plane_sweep_of_not_interior (s : Views R C) (k : ℤ) {p : ℤ × ℤ}
    (hp : ¬ Grid.Interior R C p) : (sweep s).imgOut.plane k p = s.imgOut.plane k p := by
  rw [plane_sweep, if_neg hp]

/-- Along a run started from a black `img_out` the border of `img_out` stays black. -/
theorem plane_iterate_sweep_of_not_interior (img : Image (R + 2) (C + 2)) (k : ℤ) {p : ℤ × ℤ}
    (hp : ¬ Grid.Interior R C p) (t : ℕ) : (sweep^[t] (start img)).imgOut.plane k p = 0 := by
  induction t with
  | zero =>
    by_cases h : InExtents (R + 2) (C + 2) (p.1, p.2, k)
    · rw [Function.iterate_zero_apply, Image.plane, Region.read_of_valid h]; rfl
    · exact Image.plane_of_not_inExtents h
  | succ t ih => rw [Function.iterate_succ_apply', plane_sweep_of_not_interior _ _ hp, ih]

/-- **Sweeps of a picture with black padding are Jacobi sweeps**, channel by channel. -/
theorem iterate_sweep (img : PaddedImage R C) (k : ℤ) (t : ℕ) :
    (sweep^[t] (start img.img)).imgIn.plane k = (Grid.jacobi R C)^[t] (img.img.plane k) := by
  induction t with
  | zero => rfl
  | succ t ih =>
    funext p
    rw [Function.iterate_succ_apply', Function.iterate_succ_apply', sweep_imgIn, plane_sweep, ih]
    by_cases hp : Grid.Interior R C p
    · rw [if_pos hp, Grid.jacobi_of_interior hp]
    · rw [if_neg hp, Grid.jacobi_of_not_interior hp, Grid.iterate_jacobi_of_not_interior hp,
        img.border k p hp, plane_iterate_sweep_of_not_interior _ _ hp]

end Views

end KokkosStencil
