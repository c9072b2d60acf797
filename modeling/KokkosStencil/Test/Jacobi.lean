import KokkosStencil.Grid.Decay
import KokkosStencil.View.Basic

/-!
# `test/jacobi.cpp`

`jacobi_iteration(A, A_new, iterations)` launches the kernel `"Jacobi"` once per iteration.  The
arithmetic is exact here where the program uses `double`.  The `deep_copy(A, A_new)` between the
launches is commented out, so every launch computes the same first sweep again:

* `channel_jacobiIteration` : after any positive number of iterations the interior of `A_new` is
  one sweep of `A`;
* `iterates_iff` : that is the iterated sweep iff there was one iteration, or a second sweep would
  change nothing: the residuals of `A` have zero five-point sums everywhere.
-/

namespace KokkosStencil

namespace TestJacobi

/-- `Kokkos::View<double ***>` with extents `N`, `M` and `3`. -/
abbrev Array3 (N M : ℕ) := Region (InExtents N M) ℚ

/-- The arguments of `jacobi_iteration`. -/
structure Arrays (N M : ℕ) where
  /-- `A` -/
  A : Array3 N M
  /-- `A_new` -/
  ANew : Array3 N M

variable {N M : ℕ}

/-- The policy of the kernels, `{0, 0, 0}, {N, M, 3}`. -/
def policy (N M : ℕ) : List Ix := mdRange3 (0, 0, 0) ((N : ℤ), (M : ℤ), 3)

/-- The guard of the kernel `"Jacobi"`. -/
def Inner (N M : ℕ) (p : ℤ × ℤ) : Prop := (0 < p.1 ∧ p.1 < N - 1) ∧ 0 < p.2 ∧ p.2 < M - 1

instance : DecidablePred (Inner N M) := fun _ => inferInstanceAs (Decidable (_ ∧ _))

/-- The body of the kernel `"Jacobi"`. -/
def jacobi (oob : Ix → ℚ) (x : Ix) (s : Arrays N M) : Arrays N M :=
  let (i, j, c) := x
  if Inner N M (i, j) then
    let A := s.A.read oob
    let mean := 0.2 *
      (A (i, j, c) + A (i + 1, j, c) + A (i - 1, j, c) + A (i, j + 1, c) + A (i, j - 1, c))
    { s with ANew := s.ANew.write (i, j, c) mean }
  else s

/-- `jacobi_iteration(A, A_new, iterations)`; iteration `s` uses the order `orders s`. -/
def jacobiIteration (oob : Ix → ℚ) (orders : ℕ → LaunchOrder (policy N M)) :
    ℕ → Arrays N M → Arrays N M
  | 0, s => s
  | iter + 1, s => launch (orders iter) (jacobi oob) (jacobiIteration oob orders iter s)

/-- The body of the kernel `"Initialize"`. -/
def initializeBody (oob : ℤ → UInt8) (pixelPtr : Buffer (N * M * 3)) (x : Ix) (s : Arrays N M) :
    Arrays N M :=
  let (i, j, c) := x
  ⟨s.A.write (i, j, c) (pixelPtr.read oob (i * M * cn + j * cn + c)).toNat,
    s.ANew.write (i, j, c) 0⟩

/-- `initialize(A, A_new, pixelPtr, cn)` -/
def initializeArrays (oob : ℤ → UInt8) (pixelPtr : Buffer (N * M * 3))
    (o : LaunchOrder (policy N M)) (s : Arrays N M) : Arrays N M :=
  launch o (initializeBody oob pixelPtr) s

/-- `A_new` as `initialize` leaves it. -/
def zeros (N M : ℕ) : Array3 N M := fun _ => 0

/-- Channel `c` of an array as a grid. -/
def channel (v : Array3 N M) (c : ℤ) : ℤ × ℤ → ℚ := fun p => v.read (fun _ => 0) (p.1, p.2, c)

/-- One simultaneous sweep of five-point means over the interior of an `N × M` grid. -/
def sweep (N M : ℕ) : (ℤ × ℤ → ℚ) → ℤ × ℤ → ℚ := Grid.cross.relax (Inner N M)

theorem mem_policy {x : Ix} : x ∈ policy N M ↔ InExtents N M x := mem_mdRange3

/-! ### What the kernels do -/

/-- The elements the body at `x` writes. -/
def cells (N M : ℕ) (x : Ix) : List Ix := if Inner N M (x.1, x.2.1) then [x] else []

theorem jacobi_eq (oob : Ix → ℚ) (x : Ix) (s : Arrays N M) : jacobi oob x s =
    ⟨s.A, Region.scatter (viewCross.average (s.A.read oob)) (cells N M x) s.ANew⟩ := by
  obtain ⟨i, j, c⟩ := x
  have hmean : 0.2 * (s.A.read oob (i, j, c) + s.A.read oob (i + 1, j, c) +
      s.A.read oob (i - 1, j, c) + s.A.read oob (i, j + 1, c) + s.A.read oob (i, j - 1, c)) =
      viewCross.average (s.A.read oob) (i, j, c) := by
    simp only [Cross.average, viewCross]
    ring
  simp only [jacobi, cells, hmean]
  split_ifs <;> rfl

theorem inExtents_of_inner {p : ℤ × ℤ} {c : ℤ} (hp : Inner N M p) (hc : 0 ≤ c ∧ c < cn) :
    InExtents N M (p.1, p.2, c) := by
  obtain ⟨i, j⟩ := p
  simp only [Inner] at hp
  obtain ⟨⟨h₁, h₂⟩, h₃, h₄⟩ := hp
  simp only [InExtents]
  omega

/-- Inside the guard no neighbour is outside the extents. -/
theorem average_read (v : Array3 N M) (oob : Ix → ℚ) {p : ℤ × ℤ} {c : ℤ} (hp : Inner N M p)
    (hc : 0 ≤ c ∧ c < cn) :
    viewCross.average (v.read oob) (p.1, p.2, c) = Grid.cross.average (channel v c) p := by
  obtain ⟨i, j⟩ := p
  simp only [Inner] at hp
  obtain ⟨⟨h₁, h₂⟩, h₃, h₄⟩ := hp
  have hread : ∀ i' j' : ℤ, 0 ≤ i' ∧ i' < N → 0 ≤ j' ∧ j' < M →
      v.read oob (i', j', c) = channel v c (i', j') :=
    fun i' j' hi' hj' => Region.read_congr_oob (x := (i', j', c)) ⟨hi', hj', hc⟩ _
  simp only [Cross.average, viewCross, Grid.cross]
  rw [hread i j (by omega) (by omega), hread i (j - 1) (by omega) (by omega),
    hread i (j + 1) (by omega) (by omega), hread (i - 1) j (by omega) (by omega),
    hread (i + 1) j (by omega) (by omega)]

theorem channel_of_not {v : Array3 N M} {c : ℤ} (hc : ¬ (0 ≤ c ∧ c < cn)) :
    channel v c = fun _ => 0 := by
  funext p
  exact Region.read_of_invalid fun h => hc h.2.2

theorem mem_cells {x y : Ix} : y ∈ cells N M x ↔ y = x ∧ Inner N M (x.1, x.2.1) := by
  unfold cells
  split_ifs with h
  · simp only [List.mem_singleton, h, and_true]
  · simp only [List.not_mem_nil, h, and_false]

/-- A launch writes the interior elements. -/
theorem exists_mem_cells_iff {y : Ix} :
    (∃ x ∈ policy N M, y ∈ cells N M x) ↔ InExtents N M y ∧ Inner N M (y.1, y.2.1) := by
  simp only [mem_policy, mem_cells]
  constructor
  · rintro ⟨x, hx, rfl, hp⟩
    exact ⟨hx, hp⟩
  · rintro ⟨hx, hp⟩
    exact ⟨y, hx, rfl, hp⟩

/-- **A launch of `"Jacobi"`** leaves `A` alone and the means of the interior of `A` in `A_new`. -/
theorem launch_jacobi (oob : Ix → ℚ) (o : LaunchOrder (policy N M)) (s : Arrays N M) :
    (launch o (jacobi oob) s).A = s.A ∧ ∀ c p, channel (launch o (jacobi oob) s).ANew c p =
      if Inner N M p then Grid.cross.average (channel s.A c) p else channel s.ANew c p := by
  have hI : ∀ x (t : Arrays N M), t.A = s.A → (jacobi oob x t).A = s.A := by
    intro x t ht
    rw [jacobi_eq]
    exact ht
  have hbody : ∀ x ∈ policy N M, ∀ t : Arrays N M, t.A = s.A → (jacobi oob x t).ANew =
      Region.scatter (viewCross.average (s.A.read oob)) (cells N M x) t.ANew := by
    intro x _ t ht
    rw [jacobi_eq, ht]
  have hmem : ∀ x ∈ policy N M, ∀ y ∈ cells N M x, InExtents N M y :=
    fun x hx y hy => (exists_mem_cells_iff.1 ⟨x, hx, hy⟩).1
  refine ⟨(launch_scatter Arrays.ANew o hI hbody rfl).1, fun c p => ?_⟩
  by_cases hc : 0 ≤ c ∧ c < cn
  · rw [channel, read_launch Arrays.ANew o hI hbody hmem rfl]
    by_cases hp : Inner N M p
    · rw [if_pos (exists_mem_cells_iff.2 ⟨inExtents_of_inner hp hc, hp⟩), if_pos hp,
        average_read _ _ hp hc]
    · rw [if_neg fun h => hp (exists_mem_cells_iff.1 h).2, if_neg hp]
      rfl
  · -- no such channel
    simp only [channel_of_not hc, Cross.average, add_zero, zero_div, ite_self]

/-- `initialize` leaves the picture in `A` and zeros in `A_new`. -/
theorem initializeArrays_eq (oob : ℤ → UInt8) (pixelPtr : Buffer (N * M * 3))
    (o : LaunchOrder (policy N M)) (s : Arrays N M) :
    initializeArrays oob pixelPtr o s =
      ⟨fun x => (pixelPtr ⟨pix M x.1, inBuffer_pix x.2⟩).toNat, zeros N M⟩ := by
  have hcells : ∀ x ∈ policy N M, ∀ y ∈ [x], InExtents N M y := by
    intro x hx y hy
    rw [List.mem_singleton.1 hy]
    exact mem_policy.1 hx
  have hwritten : ∀ y, InExtents N M y → ∃ x ∈ policy N M, y ∈ [x] := fun y hy =>
    ⟨y, mem_policy.2 hy, List.mem_singleton_self y⟩
  have hA : ∀ x ∈ policy N M, ∀ t : Arrays N M, True → (initializeBody oob pixelPtr x t).A =
      Region.scatter (fun y => ((pixelPtr.read oob (pix M y)).toNat : ℚ)) [x] t.A :=
    fun _ _ _ _ => rfl
  have hANew : ∀ x ∈ policy N M, ∀ t : Arrays N M, True →
      (initializeBody oob pixelPtr x t).ANew = Region.scatter (fun _ => 0) [x] t.ANew :=
    fun _ _ _ _ => rfl
  have hpic : (initializeArrays oob pixelPtr o s).A =
      fun x => ((pixelPtr ⟨pix M x.1, inBuffer_pix x.2⟩).toNat : ℚ) := by
    refine Region.ext_read (fun _ => 0) fun y hy => ?_
    rw [initializeArrays, read_launch Arrays.A o (fun _ _ _ => trivial) hA hcells trivial,
      if_pos (hwritten y hy), Region.read_of_valid hy, Region.read_of_valid (inBuffer_pix hy)]
  have hzero : (initializeArrays oob pixelPtr o s).ANew = zeros N M := by
    refine Region.ext_read (fun _ => 0) fun y hy => ?_
    rw [initializeArrays, read_launch Arrays.ANew o (fun _ _ _ => trivial) hANew hcells trivial,
      if_pos (hwritten y hy), Region.read_of_valid hy]
    rfl
  rw [← hpic, ← hzero]

/-! ### Iterations -/

/-- No iteration changes `A`. -/
theorem A_jacobiIteration (oob : Ix → ℚ) (orders : ℕ → LaunchOrder (policy N M)) (t : ℕ)
    (s : Arrays N M) : (jacobiIteration oob orders t s).A = s.A := by
  induction t with
  | zero => rfl
  | succ t ih => rw [jacobiIteration, (launch_jacobi oob (orders t) _).1, ih]

/-- **Every iteration is the first one again**: the interior of `A_new` is one sweep of `A`. -/
theorem channel_jacobiIteration (oob : Ix → ℚ) (orders : ℕ → LaunchOrder (policy N M)) (t : ℕ)
    (s : Arrays N M) (c : ℤ) {p : ℤ × ℤ} (hp : Inner N M p) :
    channel (jacobiIteration oob orders (t + 1) s).ANew c p = sweep N M (channel s.A c) p := by
  rw [jacobiIteration, (launch_jacobi oob (orders t) _).2, if_pos hp, A_jacobiIteration, sweep,
    Cross.relax_of_mem hp]

/-- After `t` iterations every interior entry of `A_new` is that of the `t`-fold sweep of `A` with
its boundary held fixed. -/
def Iterates (oob : Ix → ℚ) (orders : ℕ → LaunchOrder (policy N M)) (A : Array3 N M) (t : ℕ) :
    Prop :=
  ∀ c p, Inner N M p → channel (jacobiIteration oob orders t ⟨A, zeros N M⟩).ANew c p =
    (sweep N M)^[t] (channel A c) p

/-- Four times what a sweep takes from an interior cell to its neighbours, and nothing at the
others: the difference between the neighbours of a cell and four times the cell. -/
def residual (N M : ℕ) (u : ℤ × ℤ → ℚ) (p : ℤ × ℤ) : ℚ :=
  if Inner N M p then u (Grid.cross.left p) + u (Grid.cross.right p) + u (Grid.cross.up p) +
    u (Grid.cross.down p) - 4 * u p
  else 0

theorem sweep_sub_self (u : ℤ × ℤ → ℚ) (p : ℤ × ℤ) :
    (sweep N M u - u) p = 5⁻¹ * residual N M u p := by
  by_cases hp : Inner N M p
  · rw [Pi.sub_apply, sweep, Cross.relax_of_mem hp, residual, if_pos hp, Cross.average]
    ring
  · rw [Pi.sub_apply, sweep, Cross.relax_of_notMem hp, residual, if_neg hp]
    ring

/-- A second sweep changes nothing iff the means of the residuals vanish. -/
theorem sweep_sweep_eq_iff (u : ℤ × ℤ → ℚ) : sweep N M (sweep N M u) = sweep N M u ↔
    ∀ p, Inner N M p → Grid.cross.average (residual N M u) p = 0 := by
  have hsub : sweep N M (sweep N M u) - sweep N M u =
      sweep N M fun p => 5⁻¹ * residual N M u p := by
    rw [← funext (sweep_sub_self u)]
    exact (Cross.relax_sub _ _).symm
  rw [← sub_eq_zero, hsub]
  constructor
  · intro h p hp
    have hval := congrFun h p
    rw [sweep, Cross.relax_of_mem hp, Cross.average_mul] at hval
    exact (mul_eq_zero.1 hval).resolve_left (by norm_num)
  · intro h
    funext p
    by_cases hp : Inner N M p
    · rw [sweep, Cross.relax_of_mem hp, Cross.average_mul, h p hp, mul_zero]
      rfl
    · rw [sweep, Cross.relax_of_notMem hp, residual, if_neg hp, mul_zero]
      rfl

/-- The interior of an `N × M` grid is that of a padded grid. -/
theorem inner_eq (N M : ℕ) : Inner N M = Grid.Interior (N - 2) (M - 2) := by
  funext p
  refine propext ?_
  unfold Inner Grid.Interior
  omega

/-- **Sweeping has no cycles**: several sweeps give what one gives iff a second one changes
nothing. -/
theorem iterate_sweep_eq_iff (u : ℤ × ℤ → ℚ) (t : ℕ) :
    (sweep N M)^[t + 1] u = sweep N M u ↔
      t = 0 ∨ ∀ p, Inner N M p → Grid.cross.average (residual N M u) p = 0 := by
  rw [← sweep_sweep_eq_iff, Function.iterate_succ_apply]
  constructor
  · intro h
    cases t with
    | zero => exact Or.inl rfl
    | succ t =>
      right
      have hbarrier : Grid.cross.Barrier (Inner N M) (Grid.parabola (N - 2) (M - 2)) := by
        rw [inner_eq]
        exact Grid.barrier _ _
      have hfin : {p | Inner N M p}.Finite := by
        rw [inner_eq]
        exact Grid.finite_interior _ _
      exact Cross.relax_eq_of_iterate_eq hbarrier hfin h
  · rintro (rfl | h)
    · rfl
    · exact Function.iterate_fixed h t

/-- In one channel, the interior of the iterated sweep decides. -/
theorem channel_iterates_iff (oob : Ix → ℚ) (orders : ℕ → LaunchOrder (policy N M))
    (A : Array3 N M) (t : ℕ) (c : ℤ) :
    (∀ p, Inner N M p → channel (jacobiIteration oob orders (t + 1) ⟨A, zeros N M⟩).ANew c p =
      (sweep N M)^[t + 1] (channel A c) p) ↔
      t = 0 ∨ ∀ p, Inner N M p → Grid.cross.average (residual N M (channel A c)) p = 0 := by
  rw [← iterate_sweep_eq_iff, eq_comm, funext_iff]
  refine forall_congr' fun p => ?_
  by_cases hp : Inner N M p
  · rw [channel_jacobiIteration oob orders t _ c hp]
    exact ⟨fun h => h hp, fun h _ => h⟩
  · -- both sides keep the boundary of `A`
    have hout : sweep N M (channel A c) p = (sweep N M)^[t + 1] (channel A c) p := by
      rw [sweep, Cross.iterate_relax_of_notMem hp, Cross.relax_of_notMem hp]
    exact ⟨fun _ => hout, fun _ h => absurd h hp⟩

/-- **When `jacobi_iteration` iterates**: iff there is one iteration, or in every channel the
residuals of `A` at every interior cell and its neighbours add up to zero. -/
theorem iterates_iff (oob : Ix → ℚ) (orders : ℕ → LaunchOrder (policy N M)) (A : Array3 N M)
    (t : ℕ) : Iterates oob orders A (t + 1) ↔ t = 0 ∨ ∀ c p, Inner N M p →
      Grid.cross.average (residual N M (channel A c)) p = 0 := by
  rw [← forall_or_left]
  exact forall_congr' fun c => channel_iterates_iff oob orders A t c

/-- `25` in the middle of a `3 × 3` array of zeros. -/
def peak : Array3 3 3 := fun x => if x.1.1 = 1 ∧ x.1.2.1 = 1 then 25 else 0

/-- Two iterations leave `25 / 5 = 5` in the middle, where two sweeps give `1`. -/
theorem not_iterates_two :
    ¬ Iterates (fun _ => 0) (fun _ => LaunchOrder.inOrder (policy 3 3)) peak 2 := by
  intro h
  rcases (channel_iterates_iff _ _ _ _ _).1 (h 0) with h | h
  · exact absurd h (by decide)
  · have hval := h (1, 1) (by decide)
    have hmid : residual 3 3 (channel peak 0) (1, 1) = -100 := by decide +kernel
    have hleft : residual 3 3 (channel peak 0) (Grid.cross.left (1, 1)) = 0 := if_neg (by decide)
    have hright : residual 3 3 (channel peak 0) (Grid.cross.right (1, 1)) = 0 := if_neg (by decide)
    have hup : residual 3 3 (channel peak 0) (Grid.cross.up (1, 1)) = 0 := if_neg (by decide)
    have hdown : residual 3 3 (channel peak 0) (Grid.cross.down (1, 1)) = 0 := if_neg (by decide)
    rw [Cross.average, hmid, hleft, hright, hup, hdown] at hval
    norm_num at hval

end TestJacobi

end KokkosStencil
