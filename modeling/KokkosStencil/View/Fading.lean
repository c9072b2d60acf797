import KokkosStencil.Grid.Decay
import KokkosStencil.View.GaussSeidel

/-!
# The end of `parallel_gauss_seidel.cpp`

Every iteration takes truncated means inside black padding, so repeating it loses the picture.

* `plane_iteration` : from views with black padding an iteration is one Jacobi sweep of every
  channel;
* `never_brightens` : no iteration raises the largest value of a channel, or the sum of its
  values, and the padding stays black;
* `fades` : the black picture is the only one an iteration leaves as it was, and `255 * R * C`
  iterations turn every picture black.
-/

namespace KokkosStencil

namespace ParallelGaussSeidel

variable {R C : ℕ}

/-- From views with black padding an iteration is one Jacobi sweep. -/
theorem plane_iteration (oob : Ix → UInt8) (o : Orders R C) (img out : PaddedImage R C) (k : ℤ) :
    (iteration oob o ⟨img.img, out.img⟩).imgIn.plane k = Grid.jacobi R C (img.img.plane k) := by
  funext p
  rw [iteration_eq_sweep, Views.sweep_imgIn, Views.plane_sweep]
  by_cases hp : Grid.Interior R C p
  · rw [if_pos hp, Grid.jacobi_of_interior hp]
  · rw [if_neg hp, Grid.jacobi_of_not_interior hp, img.border k p hp, out.border k p hp]

/-- An iteration leaves a channel as it was iff the channel is black. -/
theorem plane_iteration_eq_iff (oob : Ix → UInt8) (o : Orders R C) (img out : PaddedImage R C)
    (k : ℤ) : (iteration oob o ⟨img.img, out.img⟩).imgIn.plane k = img.img.plane k ↔
      ∀ p, Grid.Interior R C p → img.img.plane k p = 0 := by
  rw [plane_iteration]
  constructor
  · intro h p _
    exact Grid.eq_zero_of_jacobi_eq (img.border k) h p
  · intro h
    have hblack : img.img.plane k = fun _ => 0 := by
      funext p
      by_cases hp : Grid.Interior R C p
      · exact h p hp
      · exact img.border k p hp
    rw [hblack]
    exact Grid.iterate_jacobi_black 1

theorem plane_run_succ (oob : Ix → UInt8) (orders : ℕ → Orders R C) (img : PaddedImage R C) (t : ℕ)
    (k : ℤ) : (run oob orders img (t + 1)).imgIn.plane k =
      Grid.jacobi R C ((run oob orders img t).imgIn.plane k) := by
  rw [plane_run, plane_run, Function.iterate_succ_apply']

/-- The padding of `img_in` stays black. -/
theorem plane_run_of_not_interior (oob : Ix → UInt8) (orders : ℕ → Orders R C)
    (img : PaddedImage R C) (t : ℕ) (k : ℤ) {p : ℤ × ℤ} (hp : ¬ Grid.Interior R C p) :
    (run oob orders img t).imgIn.plane k p = 0 := by
  rw [plane_run, Grid.iterate_jacobi_of_not_interior hp, img.border k p hp]

/-- **No iteration brightens a channel.**  In every run from a picture with black padding, and for
every order of the launches, an iteration raises neither the largest value inside the padding nor
the sum of the values there, and it leaves the padding of both views black. -/
theorem never_brightens (oob : Ix → UInt8) (orders : ℕ → Orders R C) (img : PaddedImage R C)
    (k : ℤ) (t : ℕ) :
    Grid.peak R C ((run oob orders img (t + 1)).imgIn.plane k) ≤
        Grid.peak R C ((run oob orders img t).imgIn.plane k) ∧
      Grid.level R C ((run oob orders img (t + 1)).imgIn.plane k) ≤
        Grid.level R C ((run oob orders img t).imgIn.plane k) ∧
      ∀ p, Grid.Border R C p → (run oob orders img (t + 1)).imgIn.plane k p = 0 ∧
        (run oob orders img (t + 1)).imgOut.plane k p = 0 := by
  have hout : ∀ p, ¬ Grid.Interior R C p → (run oob orders img t).imgIn.plane k p = 0 :=
    fun p hp => plane_run_of_not_interior oob orders img t k hp
  refine ⟨?_, ?_, fun p hp => border_loop_succ oob orders img.img t k hp⟩
  · rw [plane_run_succ]
    exact Grid.peak_jacobi_le hout
  · rw [plane_run_succ]
    exact Grid.level_jacobi_le hout

/-- After `255 * R * C` iterations `img_in` is black. -/
theorem plane_run_eq_zero (oob : Ix → UInt8) (orders : ℕ → Orders R C) (img : PaddedImage R C)
    (k : ℤ) {t : ℕ} (ht : 255 * R * C ≤ t) (p : ℤ × ℤ) :
    (run oob orders img t).imgIn.plane k p = 0 := by
  rw [plane_run]
  exact Grid.iterate_jacobi_eq_zero (img.border k) ht p

/-- **The picture fades.**  From views with black padding, an iteration leaves a channel of
`img_in` unchanged iff the channel is black, and from the `255 * R * C`-th iteration on the
channels of both views are black inside the padding, in all orders of the launches. -/
theorem fades (oob : Ix → UInt8) (img : PaddedImage R C) (k : ℤ) :
    (∀ (o : Orders R C) (out : PaddedImage R C),
        (iteration oob o ⟨img.img, out.img⟩).imgIn.plane k = img.img.plane k ↔
          ∀ p, Grid.Interior R C p → img.img.plane k p = 0) ∧
      ∀ (orders : ℕ → Orders R C) (t : ℕ), 255 * R * C ≤ t → ∀ p, Grid.Interior R C p →
        (run oob orders img t).imgIn.plane k p = 0 ∧
          (run oob orders img t).imgOut.plane k p = 0 := by
  refine ⟨fun o out => plane_iteration_eq_iff oob o img out k, fun orders t ht p hp => ?_⟩
  have hin := plane_run_eq_zero oob orders img k ht p
  refine ⟨hin, ?_⟩
  cases t with
  | zero =>
    -- a picture with an interior pixel needs an iteration
    obtain ⟨h₁, h₂, h₃, h₄⟩ := hp
    have hR : 0 < R := by omega
    have hC : 0 < C := by omega
    have hpos : 0 < 255 * R * C := Nat.mul_pos (Nat.mul_pos (by decide) hR) hC
    omega
  | succ t =>
    rw [imgOut_run_succ]
    exact hin

end ParallelGaussSeidel

end KokkosStencil
