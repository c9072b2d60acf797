import KokkosStencil.Mean.FivePoint
import KokkosStencil.Run.Launch
import KokkosStencil.Run.Scan

/-!
# Sweeps of a padded grid

One colour channel of an `R × C` image padded by one cell is a grid `ℤ × ℤ → UInt8`: rows `1..R`
and columns `1..C` are the interior, the other cells the boundary.  The three classical
relaxation sweeps with the truncated five-point mean are

* `Grid.jacobi` : all interior cells at once, from the old grid;
* `Grid.gaussSeidel` : the interior cells one after the other in row-major order, in place;
* `Grid.redBlack` : first the interior cells with `i + j` odd, then, from the grid this leaves,
  those with `i + j` even.

All three leave the boundary alone.  `Grid.redBlack_eq_jacobi_iff` and
`Grid.gaussSeidel_eq_jacobi_iff` say exactly on which grids a sweep is indistinguishable from the
Jacobi sweep, and `Grid.forall_le_redBlack_iff`, `Grid.forall_le_gaussSeidel_iff` in which runs.
-/

namespace KokkosStencil

namespace Grid

/-- The four neighbours of a cell. -/
def cross : Cross (ℤ × ℤ) where
  up p := (p.1 - 1, p.2)
  down p := (p.1 + 1, p.2)
  left p := (p.1, p.2 - 1)
  right p := (p.1, p.2 + 1)

variable (R C : ℕ)

/-- The cells of the image inside its padding. -/
def Interior (p : ℤ × ℤ) : Prop := 1 ≤ p.1 ∧ p.1 ≤ R ∧ 1 ≤ p.2 ∧ p.2 ≤ C

/-- The padding cells of the `(R + 2) × (C + 2)` grid. -/
def Border (p : ℤ × ℤ) : Prop :=
  (0 ≤ p.1 ∧ p.1 < R + 2 ∧ 0 ≤ p.2 ∧ p.2 < C + 2) ∧ ¬ Interior R C p

/-- The interior cells with `i + j` odd. -/
def Red (p : ℤ × ℤ) : Prop := Interior R C p ∧ (p.1 + p.2) % 2 = 1

/-- The interior cells with `i + j` even. -/
def Black (p : ℤ × ℤ) : Prop := Interior R C p ∧ (p.1 + p.2) % 2 = 0

/-- The interior cells that a row-major sweep visits before `p`. -/
def Earlier (p q : ℤ × ℤ) : Prop := Interior R C q ∧ Scan.Before q p

instance : DecidablePred (Interior R C) := fun _ => inferInstanceAs (Decidable (_ ∧ _))
instance : DecidablePred (Border R C) := fun _ => inferInstanceAs (Decidable (_ ∧ _))
instance : DecidablePred (Red R C) := fun _ => inferInstanceAs (Decidable (_ ∧ _))
instance : DecidablePred (Black R C) := fun _ => inferInstanceAs (Decidable (_ ∧ _))
instance (p : ℤ × ℤ) : DecidablePred (Earlier R C p) := fun _ => inferInstanceAs (Decidable (_ ∧ _))

/-- The interior cells in row-major order. -/
def rowMajor : List (ℤ × ℤ) := Int.range 1 (R + 1) ×ˢ Int.range 1 (C + 1)

/-- One Jacobi sweep. -/
def jacobi (u : ℤ × ℤ → UInt8) : ℤ × ℤ → UInt8 :=
  Sweep.simultaneous (Interior R C) cross.mean u

/-- One row-major Gauss–Seidel sweep. -/
def gaussSeidel (u : ℤ × ℤ → UInt8) : ℤ × ℤ → UInt8 := Sweep.inPlace cross.mean (rowMajor R C) u

/-- One red-black Gauss–Seidel sweep. -/
def redBlack (u : ℤ × ℤ → UInt8) : ℤ × ℤ → UInt8 :=
  Sweep.simultaneous (Black R C) cross.mean (Sweep.simultaneous (Red R C) cross.mean u)

variable {R C}

theorem mem_rowMajor {p : ℤ × ℤ} : p ∈ rowMajor R C ↔ Interior R C p := by
  obtain ⟨i, j⟩ := p
  simp only [rowMajor, List.mem_product, Int.mem_range_iff, Interior]
  omega

theorem pairwise_rowMajor : (rowMajor R C).Pairwise Scan.Before :=
  Scan.pairwise_product (Scan.pairwise_range _ _) (Scan.pairwise_range _ _)

theorem nodup_rowMajor : (rowMajor R C).Nodup :=
  Sweep.nodup_of_pairwise Scan.Before.asymm pairwise_rowMajor

theorem earlier_iff (R C : ℕ) (p q : ℤ × ℤ) :
    Earlier R C p q ↔ Interior R C q ∧ Scan.Before q p := Iff.rfl

theorem jacobi_of_interior {u : ℤ × ℤ → UInt8} {p : ℤ × ℤ} (h : Interior R C p) :
    jacobi R C u p = cross.mean u p := Sweep.simultaneous_of_mem h

theorem jacobi_of_not_interior {u : ℤ × ℤ → UInt8} {p : ℤ × ℤ} (h : ¬ Interior R C p) :
    jacobi R C u p = u p := Sweep.simultaneous_of_notMem h

/-- Jacobi sweeps never change the boundary. -/
theorem iterate_jacobi_of_not_interior {u : ℤ × ℤ → UInt8} {p : ℤ × ℤ} (h : ¬ Interior R C p)
    (t : ℕ) : (jacobi R C)^[t] u p = u p := by
  induction t with
  | zero => rfl
  | succ t ih => rw [Function.iterate_succ_apply', jacobi_of_not_interior h, ih]

/-- The black grid is a fixed point. -/
theorem iterate_jacobi_black (t : ℕ) : (jacobi R C)^[t] (fun _ => 0) = fun _ => 0 := by
  have hfix : jacobi R C (fun _ => 0) = fun _ => 0 := by
    funext p
    by_cases hp : Interior R C p
    · rw [jacobi_of_interior hp]; exact mean5_zero
    · exact jacobi_of_not_interior hp
  exact Function.iterate_fixed hfix t

theorem not_red_of_black {p : ℤ × ℤ} (h : Black R C p) : ¬ Red R C p := by
  intro h'
  have h₀ := h.2
  have h₁ := h'.2
  omega

/-! ### When the order of the cells does not show -/

theorem redBlack_eq_jacobi_iff {u : ℤ × ℤ → UInt8} :
    redBlack R C u = jacobi R C u ↔ ∀ p, Black R C p → cross.Steady (Red R C) u p := by
  constructor
  · intro h p hp
    have hval := congrFun h p
    rw [redBlack, Sweep.simultaneous_of_mem hp, jacobi_of_interior hp.1] at hval
    exact (cross.mean_simultaneous_eq_iff (not_red_of_black hp)).1 hval
  · intro h
    funext p
    -- only at a black cell do the two sweeps read different memories
    by_cases hb : Black R C p
    · rw [redBlack, Sweep.simultaneous_of_mem hb, jacobi_of_interior hb.1]
      exact (cross.mean_simultaneous_eq_iff (not_red_of_black hb)).2 (h p hb)
    · rw [redBlack, Sweep.simultaneous_of_notMem hb]
      by_cases hr : Red R C p
      · rw [Sweep.simultaneous_of_mem hr, jacobi_of_interior hr.1]
      · have hi : ¬ Interior R C p := by
          intro hi
          have hodd : ¬ (p.1 + p.2) % 2 = 1 := fun e => hr ⟨hi, e⟩
          have heven : ¬ (p.1 + p.2) % 2 = 0 := fun e => hb ⟨hi, e⟩
          omega
        rw [Sweep.simultaneous_of_notMem hr, jacobi_of_not_interior hi]

theorem gaussSeidel_eq_jacobi_iff {u : ℤ × ℤ → UInt8} :
    gaussSeidel R C u = jacobi R C u ↔
      ∀ p, Interior R C p → cross.Steady (Earlier R C p) u p := by
  rw [gaussSeidel, jacobi, Sweep.inPlace_eq_simultaneous_iff Scan.Before.asymm pairwise_rowMajor
    (fun _ => mem_rowMajor) (earlier_iff R C)]
  refine forall₂_congr fun p _ => ?_
  exact cross.mean_simultaneous_eq_iff fun h => Scan.Before.asymm _ _ h.2 h.2

/-- A run of red-black sweeps is a run of Jacobi sweeps as long as every grid it reaches is
steady at its black cells. -/
theorem forall_le_redBlack_iff {u : ℤ × ℤ → UInt8} {t : ℕ} :
    (∀ s ≤ t, (jacobi R C)^[s] u = (redBlack R C)^[s] u) ↔
      ∀ s < t, ∀ p, Black R C p → cross.Steady (Red R C) ((jacobi R C)^[s] u) p := by
  rw [iterate_agree_iff]
  refine forall₂_congr fun s _ => ?_
  rw [eq_comm, redBlack_eq_jacobi_iff]

/-- A run of Gauss–Seidel sweeps is a run of Jacobi sweeps as long as every grid it reaches is
steady with respect to the row-major order. -/
theorem forall_le_gaussSeidel_iff {u : ℤ × ℤ → UInt8} {t : ℕ} :
    (∀ s ≤ t, (jacobi R C)^[s] u = (gaussSeidel R C)^[s] u) ↔
      ∀ s < t, ∀ p, Interior R C p →
        cross.Steady (Earlier R C p) ((jacobi R C)^[s] u) p := by
  rw [iterate_agree_iff]
  refine forall₂_congr fun s _ => ?_
  rw [eq_comm, gaussSeidel_eq_jacobi_iff]

end Grid

end KokkosStencil
