import KokkosStencil.View.GaussSeidel

/-!
# `parallel_wave_gauss_seidel.cpp`

Every iteration launches `apply_gauss_diag` once for each anti-diagonal `k = 1, …, 2n - 1`, where
the undeclared `n` is read as the interior side of a square picture, and then copies `img_out`
onto `img_in`.  Like the red and black kernels, the diagonal kernel reads `img_in` only:

* `iteration_eq_sweep` : an iteration is one sweep of the interior from the old picture, because
  the diagonals cover the square (`mem_schedule`);
* `loop_eq_gaussSeidel_loop` : the program and `parallel_gauss_seidel.cpp` end with the same views;
* `gaussSeidelRun_iff` : a run is a run of row-major Gauss–Seidel sweeps exactly when every
  picture it passes through is steady with respect to the row-major order, which in general it is
  not (`not_gaussSeidelRun`).
-/

namespace KokkosStencil

namespace ParallelWaveGaussSeidel

variable {R C : ℕ}

/-- `int diagonals = 2 * n - 1` -/
def diagonals (n : ℤ) : ℤ := 2 * n - 1

/-- The policy `diagonal_range` of launch `k`. -/
def diagonalRange (n k : ℤ) : List ℤ := Int.range 0 (if k < n then k else n)

/-- The row that index `idx` of launch `k` works on. -/
def diagonalRow (n k idx : ℤ) : ℤ := if k ≤ n then 1 + idx else k - n + 1 + idx

/-- The body of `apply_gauss_diag`.  The product by `0.2` truncated to `uint8_t` is the quotient
by `5`. -/
def applyGaussDiag (n k : ℤ) (oob : Ix → UInt8) (idx : ℤ) (s : Views R C) : Views R C :=
  let i := diagonalRow n k idx
  if i ≤ n then
    let j := k + 1 - i
    let imgIn := s.imgIn.read oob
    let out := s.imgOut.write (i, j, 0) (mean5 (imgIn (i, j, 0)) (imgIn (i, j - 1, 0))
      (imgIn (i - 1, j, 0)) (imgIn (i, j + 1, 0)) (imgIn (i + 1, j, 0)))
    let out := out.write (i, j, 1) (mean5 (imgIn (i, j, 1)) (imgIn (i, j - 1, 1))
      (imgIn (i - 1, j, 1)) (imgIn (i, j + 1, 1)) (imgIn (i + 1, j, 1)))
    let out := out.write (i, j, 2) (mean5 (imgIn (i, j, 2)) (imgIn (i, j - 1, 2))
      (imgIn (i - 1, j, 2)) (imgIn (i, j + 1, 2)) (imgIn (i + 1, j, 2)))
    { s with imgOut := out }
  else s

/-- An order for every launch of an iteration. -/
abbrev Orders (n : ℤ) := ∀ k, LaunchOrder (diagonalRange n k)

/-- Every launch in the order of its policy. -/
def inOrder (n : ℤ) : Orders n := fun _ => LaunchOrder.inOrder _

/-- One iteration: the launches `k = 1, …, diagonals`, then `deep_copy(img_in, img_out)`. -/
def iteration (n : ℤ) (oob : Ix → UInt8) (o : Orders n) (s : Views R C) : Views R C :=
  let s := (Int.range 1 (diagonals n + 1)).foldl
    (fun s k => launch (o k) (applyGaussDiag n k oob) s) s
  s.deepCopy

/-- `t` iterations; iteration `s` uses the orders `orders s`. -/
def loop (n : ℤ) (oob : Ix → UInt8) (orders : ℕ → Orders n) : ℕ → Views R C → Views R C
  | 0, s => s
  | t + 1, s => iteration n oob (orders t) (loop n oob orders t s)

/-! ### The diagonals cover the square -/

/-- The cell that index `idx` of launch `k` works on, if the guard lets it. -/
def diagonalCell (n k idx : ℤ) : List (ℤ × ℤ) :=
  if diagonalRow n k idx ≤ n then [(diagonalRow n k idx, k + 1 - diagonalRow n k idx)] else []

/-- The cells of launch `k`, in the order of its policy. -/
def diagonal (n k : ℤ) : List (ℤ × ℤ) := (diagonalRange n k).flatMap (diagonalCell n k)

/-- The cells of one pass over the diagonals. -/
def schedule (n : ℤ) : List (ℤ × ℤ) := (Int.range 1 (diagonals n + 1)).flatMap (diagonal n)

/-- The cells of a square of side `n`. -/
def Square (n : ℤ) (p : ℤ × ℤ) : Prop := 1 ≤ p.1 ∧ p.1 ≤ n ∧ 1 ≤ p.2 ∧ p.2 ≤ n

theorem mem_diagonalCell {n k idx : ℤ} {p : ℤ × ℤ} : p ∈ diagonalCell n k idx ↔
    p.1 = diagonalRow n k idx ∧ p.2 = k + 1 - p.1 ∧ p.1 ≤ n := by
  obtain ⟨i, j⟩ := p
  unfold diagonalCell
  split_ifs with h
  · simp only [List.mem_singleton, Prod.mk.injEq]
    constructor
    · rintro ⟨rfl, rfl⟩
      exact ⟨rfl, rfl, h⟩
    · rintro ⟨rfl, rfl, -⟩
      exact ⟨rfl, rfl⟩
  · simp only [List.not_mem_nil, false_iff]
    rintro ⟨rfl, -, h'⟩
    exact h h'

/-- **Launch `k` is one anti-diagonal of the square**, for every `k`. -/
theorem mem_diagonal {n k : ℤ} {p : ℤ × ℤ} :
    p ∈ diagonal n k ↔ Square n p ∧ k = p.1 + p.2 - 1 := by
  obtain ⟨i, j⟩ := p
  simp only [diagonal, List.mem_flatMap, mem_diagonalCell, diagonalRange, Int.mem_range_iff,
    diagonalRow, Square]
  constructor
  · rintro ⟨idx, hidx, hi, hj, hn⟩
    split_ifs at hidx hi <;> omega
  · rintro ⟨⟨hi, hin, hj, hjn⟩, rfl⟩
    -- past the main diagonal the index counts columns from `n` down
    refine ⟨if i + j - 1 ≤ n then i - 1 else n - j, ?_, ?_, by omega, hin⟩
    · split_ifs <;> omega
    · split_ifs <;> omega

theorem mem_schedule {n : ℤ} {p : ℤ × ℤ} : p ∈ schedule n ↔ Square n p := by
  simp only [schedule, List.mem_flatMap, mem_diagonal, Int.mem_range_iff, diagonals]
  constructor
  · rintro ⟨k, -, hp, -⟩
    exact hp
  · intro hp
    obtain ⟨hi, hin, hj, hjn⟩ := hp
    exact ⟨p.1 + p.2 - 1, by omega, ⟨hi, hin, hj, hjn⟩, rfl⟩

/-- The elements index `idx` of launch `k` writes. -/
def cells (n k idx : ℤ) : List Ix := (diagonalCell n k idx).flatMap pixelIx

/-- The elements that one pass over the diagonals writes. -/
def passWrites (n : ℤ) : List Ix :=
  (Int.range 1 (diagonals n + 1)).flatMap fun k => (diagonalRange n k).flatMap (cells n k)

theorem passWrites_eq (n : ℤ) : passWrites n = (schedule n).flatMap pixelIx := by
  rw [schedule, List.flatMap_assoc, passWrites]
  simp only [diagonal, List.flatMap_assoc]
  rfl

theorem mem_passWrites {n : ℤ} {x : Ix} :
    x ∈ passWrites n ↔ Square n (x.1, x.2.1) ∧ 0 ≤ x.2.2 ∧ x.2.2 < cn := by
  rw [passWrites_eq, List.mem_flatMap]
  simp only [mem_schedule, mem_pixelIx]
  constructor
  · rintro ⟨p, hp, rfl, hc⟩
    exact ⟨hp, hc⟩
  · rintro ⟨hp, hc⟩
    exact ⟨_, hp, rfl, hc⟩

theorem mem_cells_iff {n : ℕ} (o : Orders n) {x : Ix} :
    x ∈ (Int.range 1 (diagonals n + 1)).flatMap (fun k => (o k).1.flatMap (cells n k)) ↔
      Views.InteriorIx n n x := by
  have hpass : x ∈ (Int.range 1 (diagonals n + 1)).flatMap
      (fun k => (o k).1.flatMap (cells n k)) ↔ x ∈ passWrites n := by
    simp only [passWrites, List.mem_flatMap, LaunchOrder.mem_iff]
  rw [hpass, mem_passWrites]
  rfl

/-! ### An iteration is a sweep of the interior -/

theorem applyGaussDiag_eq (n k : ℤ) (oob : Ix → UInt8) (idx : ℤ) (s : Views R C) :
    applyGaussDiag n k oob idx s =
      ⟨s.imgIn, Region.scatter (viewCross.mean (s.imgIn.read oob)) (cells n k idx) s.imgOut⟩ := by
  have hmean : ∀ i j c, mean5 (s.imgIn.read oob (i, j, c)) (s.imgIn.read oob (i, j - 1, c))
      (s.imgIn.read oob (i - 1, j, c)) (s.imgIn.read oob (i, j + 1, c))
      (s.imgIn.read oob (i + 1, j, c)) = viewCross.mean (s.imgIn.read oob) (i, j, c) :=
    fun i j c => mean5_congr (by simp only [viewCross]; omega)
  simp only [applyGaussDiag, hmean, cells, diagonalCell]
  split_ifs <;> rfl

/-- **An iteration is one sweep of the interior from the old picture**, in every order of the
cells of each diagonal. -/
theorem iteration_eq_sweep {n : ℕ} (oob : Ix → UInt8) (o : Orders n) (s : Views n n) :
    iteration n oob o s = s.sweep := by
  have hlaunch : ∀ k (s : Views n n), launch (o k) (applyGaussDiag n k oob) s = ⟨s.imgIn,
      Region.scatter (viewCross.mean (s.imgIn.read oob)) ((o k).1.flatMap (cells n k)) s.imgOut⟩ :=
    fun k s => Views.launch_scatter (o k) (fun v => viewCross.mean (v.read oob)) _
      (applyGaussDiag_eq n k oob) s
  have hfold := Views.foldl_scatter (fun v => viewCross.mean (v.read oob)) _ hlaunch
    (Int.range 1 (diagonals n + 1)) s
  rw [iteration, hfold, Views.deepCopy_scatter_eq_sweep s oob fun x => mem_cells_iff o]

theorem loop_eq_iterate {n : ℕ} (oob : Ix → UInt8) (orders : ℕ → Orders n) (t : ℕ)
    (s : Views n n) : loop n oob orders t s = Views.sweep^[t] s := by
  induction t with
  | zero => rfl
  | succ t ih => rw [loop, ih, iteration_eq_sweep, Function.iterate_succ_apply']

/-- **The two parallel schedules agree**: started from the same views, the diagonal loop and the
red-black loop end with the same `img_in` and the same `img_out`, in all orders of their
launches. -/
theorem loop_eq_gaussSeidel_loop {n : ℕ} (oob oob' : Ix → UInt8) (orders : ℕ → Orders n)
    (orders' : ℕ → ParallelGaussSeidel.Orders n n) (t : ℕ) (s : Views n n) :
    ParallelGaussSeidel.loop oob' orders' t s = loop n oob orders t s := by
  rw [loop_eq_iterate, ParallelGaussSeidel.loop_eq_iterate]

/-! ### Row-major Gauss–Seidel -/

/-- The views after `t` iterations on a padded square picture. -/
def run {n : ℕ} (oob : Ix → UInt8) (orders : ℕ → Orders n) (img : PaddedImage n n) (t : ℕ) :
    Views n n := loop n oob orders t (Views.start img.img)

theorem plane_run {n : ℕ} (oob : Ix → UInt8) (orders : ℕ → Orders n) (img : PaddedImage n n)
    (t : ℕ) (k : ℤ) :
    (run oob orders img t).imgIn.plane k = (Grid.jacobi n n)^[t] (img.img.plane k) := by
  rw [run, loop_eq_iterate, Views.iterate_sweep]

/-- After each of the first `t` iterations channel `k` of the view is what as many row-major
in-place Gauss–Seidel sweeps make of the picture. -/
def GaussSeidelRun {n : ℕ} (oob : Ix → UInt8) (orders : ℕ → Orders n) (img : PaddedImage n n)
    (k : ℤ) (t : ℕ) : Prop :=
  ∀ s ≤ t, (run oob orders img s).imgIn.plane k = (Grid.gaussSeidel n n)^[s] (img.img.plane k)

/-- **When the program computes Gauss–Seidel**: iff, in every picture of the Jacobi run before the
last, the neighbours above and to the left of each interior cell together lose so little by their
own means that the five-point sum of the cell is not carried across a multiple of `5`. -/
theorem gaussSeidelRun_iff {n : ℕ} (oob : Ix → UInt8) (orders : ℕ → Orders n)
    (img : PaddedImage n n) (k : ℤ) (t : ℕ) :
    GaussSeidelRun oob orders img k t ↔ ∀ s < t, ∀ p, Grid.Interior n n p →
      Grid.cross.Steady (Grid.Earlier n n p) ((Grid.jacobi n n)^[s] (img.img.plane k)) p := by
  simp only [GaussSeidelRun, plane_run]
  exact Grid.forall_le_gaussSeidel_iff

/-- A `2 × 2` picture, white in its upper left pixel and black elsewhere. -/
def whiteCorner : PaddedImage 2 2 :=
  PaddedImage.ofImage fun x => if x.1.1 = 0 ∧ x.1.2.1 = 0 then 255 else 0

/-- Its cell `(1, 2)` becomes `(255 + 0) / 5 = 51`, the mean with the old cell to the left, where
Gauss–Seidel gives `(51 + 0) / 5 = 10`, the mean with the new one. -/
theorem not_gaussSeidelRun :
    ¬ GaussSeidelRun (fun _ => 0) (fun _ => inOrder (2 : ℕ)) whiteCorner 0 1 := by
  intro h
  have hcell := congrFun (h 1 le_rfl) (1, 2)
  rw [plane_run] at hcell
  revert hcell
  decide

end ParallelWaveGaussSeidel

end KokkosStencil
