import KokkosStencil.View.Jacobi

/-!
# Which pixels of `parallel_jacobi.cpp` can be trusted

Stray reads enter a run at the edge of the padded array and move one cell per sweep.  A cell whose
distance to the edge is at least the number of sweeps (`Grid.edge`) is therefore out of their reach
(`plane_run_of_edge`), and its value depends on the starting picture within the same distance only
(`run_determined`).
-/

namespace KokkosStencil

namespace Grid

/-- The distance between two cells: columns plus rows. -/
def dist (p q : ℤ × ℤ) : ℕ := (p.1 - q.1).natAbs + (p.2 - q.2).natAbs

/-- The distance of a cell to the edge of the `(R + 2) × (C + 2)` array. -/
def edge (R C : ℕ) (p : ℤ × ℤ) : ℤ := min (min p.1 p.2) (min (R + 1 - p.1) (C + 1 - p.2))

/-- The cells within distance `t` of a neighbour are within distance `t + 1` of the cell. -/
theorem dist_neighbours (p q : ℤ × ℤ) : dist p q ≤ dist (cross.left p) q + 1 ∧
    dist p q ≤ dist (cross.right p) q + 1 ∧ dist p q ≤ dist (cross.up p) q + 1 ∧
    dist p q ≤ dist (cross.down p) q + 1 := by
  simp only [dist, cross]
  omega

/-- A cell one step further inside has an interior of its own around it. -/
theorem edge_neighbours {R C : ℕ} {p : ℤ × ℤ} {t : ℕ} (h : ((t + 1 : ℕ) : ℤ) ≤ edge R C p) :
    Interior R C p ∧ (t : ℤ) ≤ edge R C p ∧ (t : ℤ) ≤ edge R C (cross.left p) ∧
      (t : ℤ) ≤ edge R C (cross.right p) ∧ (t : ℤ) ≤ edge R C (cross.up p) ∧
      (t : ℤ) ≤ edge R C (cross.down p) := by
  simp only [edge, Interior, cross, le_min_iff] at *
  omega

/-- **The domain of dependence** of the iterated mean. -/
theorem iterate_mean_congr {u v : ℤ × ℤ → UInt8} {t : ℕ} {p : ℤ × ℤ}
    (h : ∀ q, dist p q ≤ t → u q = v q) : cross.mean^[t] u p = cross.mean^[t] v p := by
  induction t generalizing p with
  | zero => exact h p (by simp [dist])
  | succ t ih =>
    -- the ball around a neighbour lies in the next larger ball around the cell
    have hball : ∀ p', (∀ q, dist p q ≤ dist p' q + 1) →
        cross.mean^[t] u p' = cross.mean^[t] v p' :=
      fun p' hp' => ih fun q hq => h q ((hp' q).trans (Nat.succ_le_succ hq))
    rw [Function.iterate_succ_apply', Function.iterate_succ_apply']
    apply Cross.mean_congr
    · exact hball p fun q => Nat.le_succ _
    · exact hball _ fun q => (dist_neighbours p q).1
    · exact hball _ fun q => (dist_neighbours p q).2.1
    · exact hball _ fun q => (dist_neighbours p q).2.2.1
    · exact hball _ fun q => (dist_neighbours p q).2.2.2

end Grid

namespace ParallelJacobi

variable {R C : ℕ}

/-- **Stray reads move one cell per sweep**: up to then a cell holds the iterated mean. -/
theorem plane_run_of_edge (oob : SweepReads) (orders : ℕ → LaunchOrder (stencilImage R C))
    (img : Image (R + 2) (C + 2)) {t : ℕ} (k : ℤ) {p : ℤ × ℤ} (h : (t : ℤ) ≤ Grid.edge R C p) :
    (run oob orders img t).imgIn.plane k p = Grid.cross.mean^[t] (img.plane k) p := by
  induction t generalizing p with
  | zero => rfl
  | succ t ih =>
    obtain ⟨hp, hself, hleft, hright, hup, hdown⟩ := Grid.edge_neighbours h
    rw [run_succ, plane_iteration_of_interior _ _ _ _ hp, Function.iterate_succ_apply']
    exact Cross.mean_congr (ih hself) (ih hleft) (ih hright) (ih hup) (ih hdown)

/-- **What a pixel depends on.**  If two pictures agree in a channel within distance `t` of a cell
that is at least `t` cells away from the edge, then after `t` sweeps of each the cell holds the
same value in that channel, whatever the orders are and whatever stray reads return in either run;
and the value is the `t`-fold simultaneous mean of the picture. -/
theorem run_determined (oob oob' : SweepReads) (orders orders' : ℕ → LaunchOrder (stencilImage R C))
    (img img' : Image (R + 2) (C + 2)) (t : ℕ) (k : ℤ) (p : ℤ × ℤ)
    (hedge : (t : ℤ) ≤ Grid.edge R C p)
    (hagree : ∀ q, Grid.dist p q ≤ t → img.plane k q = img'.plane k q) :
    (run oob orders img t).imgIn.plane k p = (run oob' orders' img' t).imgIn.plane k p ∧
      (run oob orders img t).imgIn.plane k p = Grid.cross.mean^[t] (img.plane k) p := by
  have hmean := plane_run_of_edge oob orders img k hedge
  refine ⟨?_, hmean⟩
  rw [hmean, plane_run_of_edge oob' orders' img' k hedge, Grid.iterate_mean_congr hagree]

/-- The black `1 × 1` picture, padded. -/
def black : Image 3 3 := fun _ => 0

/-- Black but for the upper left corner of the padding. -/
def whiteCorner : Image 3 3 := fun x => if x.1.1 = 0 ∧ x.1.2.1 = 0 then 255 else 0

/-- The corner is out of reach of the pixel of a `1 × 1` picture, and so are stray reads. -/
theorem run_determined_one_one :
    (run (R := 1) (C := 1) (fun _ _ _ => 0) (fun _ => LaunchOrder.inOrder _) black 1).imgIn.plane 0
        (1, 1) =
      (run (fun _ _ _ => 255) (fun _ => LaunchOrder.inOrder _) whiteCorner 1).imgIn.plane 0 (1, 1) ∧
    (run (R := 1) (C := 1) (fun _ _ _ => 0) (fun _ => LaunchOrder.inOrder _) black 1).imgIn.plane 0
        (1, 1) =
      Grid.cross.mean^[1] (black.plane 0) (1, 1) := by
  refine run_determined _ _ _ _ _ _ 1 0 (1, 1) (by decide) fun q hq => ?_
  by_cases hx : InExtents 3 3 (q.1, q.2, 0)
  · have hcorner : ¬ (q.1 = 0 ∧ q.2 = 0) := by
      rintro ⟨h₁, h₂⟩
      simp [Grid.dist, h₁, h₂] at hq
    rw [Image.plane, Image.plane, Region.read_of_valid hx, Region.read_of_valid hx]
    exact (if_neg hcorner).symm
  · rw [Image.plane_of_not_inExtents hx, Image.plane_of_not_inExtents hx]

end ParallelJacobi

end KokkosStencil
