import KokkosStencil.View.Pipeline

/-!
# `parallel_gauss_seidel.cpp`

Every iteration launches `apply_gauss_red` over the interior, then `apply_gauss_black`, then
copies `img_out` onto `img_in`.  Both kernels read `img_in`, which neither of them writes, so:

* `iteration_eq_sweep` : an iteration is one sweep of the interior from the old picture, in every
  order of the bodies of the two launches;
* `backEnds_agree` : the bytes written back to `pixelPtr` do not depend on the build, on the
  orders or on stray reads, and the borders of both views are black after every iteration;
* `redBlackRun_iff` : a run is a run of red-black Gauss–Seidel sweeps exactly when every picture
  it passes through is steady at its black cells.  The black cells read the old red cells, so in
  general it is not (`not_redBlackRun`).
-/

namespace KokkosStencil

namespace ParallelGaussSeidel

/-- `#define RED 1` -/
def RED : ℤ := 1

/-- `#define BLACK 0` -/
def BLACK : ℤ := 0

variable {R C : ℕ}

/-- The policy `gauss_original_image`. -/
def gaussOriginalImage (R C : ℕ) : List Ix :=
  mdRange3 (1, 1, 0) ((R + 2 : ℤ) - 1, (C + 2 : ℤ) - 1, cn)

/-- The elements the body at `(i, j, k)` reads. -/
def stencilReads : Ix → List Ix
  | (i, j, k) => [(i, j, k), (i, j - 1, k), (i, j + 1, k), (i - 1, j, k), (i + 1, j, k)]

/-- The body of the two kernels, which differ in the colour they select.  The product by `0.2`
truncated to `uint8_t` is the quotient by `5`. -/
def applyGauss (colour : ℤ) (oob : Ix → UInt8) (x : Ix) (s : Views R C) : Views R C :=
  let (i, j, k) := x
  if (i + j) % 2 = colour then
    let pixel := s.imgIn.read oob (i, j, k)
    let left := s.imgIn.read oob (i, j - 1, k)
    let right := s.imgIn.read oob (i, j + 1, k)
    let up := s.imgIn.read oob (i - 1, j, k)
    let down := s.imgIn.read oob (i + 1, j, k)
    { s with imgOut := s.imgOut.write (i, j, k) (mean5 pixel left right up down) }
  else s

/-- `apply_gauss_red` -/
def applyGaussRed (oob : Ix → UInt8) (x : Ix) (s : Views R C) : Views R C :=
  applyGauss RED oob x s

/-- `apply_gauss_black` -/
def applyGaussBlack (oob : Ix → UInt8) (x : Ix) (s : Views R C) : Views R C :=
  applyGauss BLACK oob x s

/-- The orders of the two launches of an iteration. -/
structure Orders (R C : ℕ) where
  /-- The order of `apply_gauss_red`. -/
  red : LaunchOrder (gaussOriginalImage R C)
  /-- The order of `apply_gauss_black`. -/
  black : LaunchOrder (gaussOriginalImage R C)

/-- Both launches in the order of their policy. -/
def Orders.inOrder (R C : ℕ) : Orders R C := ⟨LaunchOrder.inOrder _, LaunchOrder.inOrder _⟩

/-- One iteration: the red launch, the black launch, `deep_copy(img_in, img_out)`. -/
def iteration (oob : Ix → UInt8) (o : Orders R C) (s : Views R C) : Views R C :=
  let s := launch o.red (applyGaussRed oob) s
  let s := launch o.black (applyGaussBlack oob) s
  s.deepCopy

/-- `t` iterations; iteration `s` uses the orders `orders s`. -/
def loop (oob : Ix → UInt8) (orders : ℕ → Orders R C) : ℕ → Views R C → Views R C
  | 0, s => s
  | t + 1, s => iteration oob (orders t) (loop oob orders t s)

/-! ### An iteration is a sweep of the interior -/

theorem mem_gaussOriginalImage {x : Ix} : x ∈ gaussOriginalImage R C ↔ Views.InteriorIx R C x :=
  Views.mem_interiorIx

/-- The elements the body at `x` writes. -/
def cells (colour : ℤ) (x : Ix) : List Ix := if (x.1 + x.2.1) % 2 = colour then [x] else []

theorem applyGauss_eq (colour : ℤ) (oob : Ix → UInt8) (x : Ix) (s : Views R C) :
    applyGauss colour oob x s =
      ⟨s.imgIn, Region.scatter (viewCross.mean (s.imgIn.read oob)) (cells colour x) s.imgOut⟩ := by
  obtain ⟨i, j, k⟩ := x
  simp only [applyGauss, cells]
  split_ifs <;> rfl

/-- The body reads `img_in` at the elements `stencilReads` only. -/
theorem applyGauss_congr (colour : ℤ) {oob oob' : Ix → UInt8} {x : Ix} {s s' : Views R C}
    (hout : s.imgOut = s'.imgOut)
    (hin : ∀ y ∈ stencilReads x, s.imgIn.read oob y = s'.imgIn.read oob' y) :
    (applyGauss colour oob x s).imgOut = (applyGauss colour oob' x s').imgOut := by
  obtain ⟨i, j, k⟩ := x
  simp only [stencilReads, List.mem_cons, List.not_mem_nil, or_false, forall_eq_or_imp,
    forall_eq] at hin
  obtain ⟨h₀, hl, hr, hu, hd⟩ := hin
  simp only [applyGauss, h₀, hl, hr, hu, hd]
  split_ifs
  · rw [hout]
  · exact hout

theorem launch_applyGauss (colour : ℤ) (oob : Ix → UInt8)
    (o : LaunchOrder (gaussOriginalImage R C)) (s : Views R C) :
    launch o (applyGauss colour oob) s = ⟨s.imgIn,
      Region.scatter (viewCross.mean (s.imgIn.read oob)) (o.1.flatMap (cells colour)) s.imgOut⟩ :=
  Views.launch_scatter o (fun v => viewCross.mean (v.read oob)) _ (applyGauss_eq colour oob) s

/-- Every interior element is written by one of the two launches. -/
theorem mem_cells_iff (o : Orders R C) {x : Ix} :
    x ∈ o.red.1.flatMap (cells RED) ++ o.black.1.flatMap (cells BLACK) ↔
      Views.InteriorIx R C x := by
  have hcell : ∀ colour y, x ∈ cells colour y ↔ x = y ∧ (x.1 + x.2.1) % 2 = colour := by
    intro colour y
    unfold cells
    split_ifs with h <;> simp only [List.mem_singleton, List.not_mem_nil, false_iff] <;> grind
  simp only [List.mem_append, List.mem_flatMap, LaunchOrder.mem_iff, mem_gaussOriginalImage, hcell,
    RED, BLACK]
  constructor
  · rintro (⟨y, hy, rfl, -⟩ | ⟨y, hy, rfl, -⟩) <;> exact hy
  · intro hx
    rcases Int.emod_two_eq_zero_or_one (x.1 + x.2.1) with h | h
    · exact Or.inr ⟨x, hx, rfl, h⟩
    · exact Or.inl ⟨x, hx, rfl, h⟩

/-- **An iteration is one sweep of the interior from the old picture**, in every order. -/
theorem iteration_eq_sweep (oob : Ix → UInt8) (o : Orders R C) (s : Views R C) :
    iteration oob o s = s.sweep := by
  -- both kernels read `img_in`, which the red one leaves alone: black writes stale means
  show (launch o.black (applyGauss BLACK oob) (launch o.red (applyGauss RED oob) s)).deepCopy = _
  rw [launch_applyGauss, launch_applyGauss, ← Region.scatter_append,
    Views.deepCopy_scatter_eq_sweep s oob fun x => mem_cells_iff o]

theorem loop_eq_iterate (oob : Ix → UInt8) (orders : ℕ → Orders R C) (t : ℕ) (s : Views R C) :
    loop oob orders t s = Views.sweep^[t] s := by
  induction t with
  | zero => rfl
  | succ t ih => rw [loop, ih, iteration_eq_sweep, Function.iterate_succ_apply']

/-! ### One picture on every back end -/

theorem inExtents_stencilReads {x y : Ix} (hx : x ∈ gaussOriginalImage R C)
    (hy : y ∈ stencilReads x) : InExtents (R + 2) (C + 2) y := by
  obtain ⟨h₀, hl, hr, hu, hd⟩ := Views.inExtents_neighbours (mem_gaussOriginalImage.1 hx)
  obtain ⟨i, j, k⟩ := x
  simp only [stencilReads, List.mem_cons, List.not_mem_nil, or_false] at hy
  rcases hy with rfl | rfl | rfl | rfl | rfl
  · exact h₀
  · exact hl
  · exact hr
  · exact hu
  · exact hd

/-- After every iteration both views have a black border. -/
theorem border_loop_succ (oob : Ix → UInt8) (orders : ℕ → Orders R C) (img : Image (R + 2) (C + 2))
    (t : ℕ) (k : ℤ) {p : ℤ × ℤ} (hp : Grid.Border R C p) :
    (loop oob orders (t + 1) (Views.start img)).imgIn.plane k p = 0 ∧
      (loop oob orders (t + 1) (Views.start img)).imgOut.plane k p = 0 := by
  have hout := Views.plane_iterate_sweep_of_not_interior img k hp.2 (t + 1)
  rw [loop_eq_iterate]
  refine ⟨?_, hout⟩
  rw [Function.iterate_succ_apply', Views.sweep_imgIn, ← Function.iterate_succ_apply' Views.sweep]
  exact hout

/-- **One picture on every back end.**  Two runs of the filter stage on the same bytes write the
same bytes back, whatever the builds, the orders of all their launches, the initial memory and the
values of stray reads; all reads of the stencil are inside the extents, and after every iteration
both views have a black border. -/
theorem backEnds_agree (pixelPtr : Buffer ((R + 2) * (C + 2) * 3)) (t : ℕ) (b b' : Build)
    (stray stray' : StrayReads) (orders orders' : ℕ → Orders R C) (m m' : Mirrored R C) :
    filterStage b stray (loop stray.view orders t) m pixelPtr =
        filterStage b' stray' (loop stray'.view orders' t) m' pixelPtr ∧
      (∀ x ∈ gaussOriginalImage R C, ∀ y ∈ stencilReads x, InExtents (R + 2) (C + 2) y) ∧
      ∀ s < t, ∀ k p, Grid.Border R C p →
        (loop stray.view orders (s + 1) (prepare b stray m pixelPtr).dev).imgIn.plane k p = 0 ∧
          (loop stray.view orders (s + 1) (prepare b stray m pixelPtr).dev).imgOut.plane k p = 0 := by
  refine ⟨?_, fun x hx y hy => inExtents_stencilReads hx hy, fun s _ k p hp => ?_⟩
  · rw [filterStage_eq, filterStage_eq, loop_eq_iterate, loop_eq_iterate]
  · rw [dev_prepare]
    exact border_loop_succ _ _ _ s k hp

/-! ### Red-black Gauss–Seidel -/

/-- The views after `t` iterations on a padded picture. -/
def run (oob : Ix → UInt8) (orders : ℕ → Orders R C) (img : PaddedImage R C) (t : ℕ) : Views R C :=
  loop oob orders t (Views.start img.img)

theorem plane_run (oob : Ix → UInt8) (orders : ℕ → Orders R C) (img : PaddedImage R C) (t : ℕ)
    (k : ℤ) :
    (run oob orders img t).imgIn.plane k = (Grid.jacobi R C)^[t] (img.img.plane k) := by
  rw [run, loop_eq_iterate, Views.iterate_sweep]

/-- After an iteration the view that is exported equals the view the next one reads. -/
theorem imgOut_run_succ (oob : Ix → UInt8) (orders : ℕ → Orders R C) (img : PaddedImage R C)
    (t : ℕ) : (run oob orders img (t + 1)).imgOut = (run oob orders img (t + 1)).imgIn := rfl

/-- In each of `t` iterations channel `k` makes one red-black Gauss–Seidel sweep, and the exported
view is the `t`-fold sweep of the picture. -/
def RedBlackRun (oob : Ix → UInt8) (orders : ℕ → Orders R C) (img : PaddedImage R C) (k : ℤ)
    (t : ℕ) : Prop :=
  (∀ s < t, (run oob orders img (s + 1)).imgIn.plane k =
      Grid.redBlack R C ((run oob orders img s).imgIn.plane k)) ∧
    (run oob orders img t).imgOut.plane k = (Grid.redBlack R C)^[t] (img.img.plane k)

/-- **When the program computes red-black Gauss–Seidel**: iff, in every picture of the Jacobi run
before the last, the red neighbours of each black cell together lose so little by their own means
that the five-point sum of the black cell is not carried across a multiple of `5`. -/
theorem redBlackRun_iff (oob : Ix → UInt8) (orders : ℕ → Orders R C) (img : PaddedImage R C)
    (k : ℤ) (t : ℕ) :
    RedBlackRun oob orders img k (t + 1) ↔ ∀ s < t + 1, ∀ p, Grid.Black R C p →
      Grid.cross.Steady (Grid.Red R C) ((Grid.jacobi R C)^[s] (img.img.plane k)) p := by
  have hsteps : (∀ s < t + 1, (run oob orders img (s + 1)).imgIn.plane k =
      Grid.redBlack R C ((run oob orders img s).imgIn.plane k)) ↔
      ∀ s < t + 1, ∀ p, Grid.Black R C p →
        Grid.cross.Steady (Grid.Red R C) ((Grid.jacobi R C)^[s] (img.img.plane k)) p := by
    refine forall₂_congr fun s _ => ?_
    rw [plane_run, plane_run, Function.iterate_succ_apply', eq_comm, Grid.redBlack_eq_jacobi_iff]
  rw [RedBlackRun, hsteps, and_iff_left_iff_imp]
  intro h
  rw [imgOut_run_succ, plane_run]
  exact Grid.forall_le_redBlack_iff.2 h (t + 1) le_rfl

/-- A `1 × 2` picture, black on the left and white on the right. -/
def blackWhite : PaddedImage 1 2 := PaddedImage.ofImage fun x => if x.1.2.1 = 1 then 255 else 0

/-- Its black cell `(1, 1)` becomes `(0 + 255) / 5 = 51`, the mean with the old red cell, where
red-black Gauss–Seidel gives `(0 + 51) / 5 = 10`, the mean with the new one. -/
theorem not_redBlackRun :
    ¬ RedBlackRun (fun _ => 0) (fun _ => Orders.inOrder 1 2) blackWhite 0 1 := by
  intro h
  have hcell := congrFun (h.1 0 Nat.zero_lt_one) (1, 1)
  rw [plane_run, plane_run] at hcell
  revert hcell
  decide

end ParallelGaussSeidel

end KokkosStencil
