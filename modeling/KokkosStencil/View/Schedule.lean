import KokkosStencil.View.Wave

/-!
# The diagonals of `parallel_wave_gauss_seidel.cpp`

Launch `k` of a pass works on the cells `(i, j)` of a square of side `n` with `i + j = k + 1`
(`mem_diagonal`); the formula for the row, which changes at `k = n`, and the guard `i <= n` only
decide in which order the indices run through them.

* `wavefront` : the launches are a legal wavefront of the square.  They visit every cell once, the
  cells above and to the left of a cell in earlier launches and those below and to the right in
  later ones;
* `handlesShape_iff` : a pass with side `n` fills the interior of an `R × C` picture, and touches
  nothing else, iff `n = R` and `n = C`.  So the program handles the square pictures
  (`exists_handlesShape_iff`).
-/

namespace KokkosStencil

namespace ParallelWaveGaussSeidel

/-! ### Every cell once -/

theorem nodup_diagonal (n k : ℤ) : (diagonal n k).Nodup := by
  rw [diagonal, List.nodup_flatMap]
  constructor
  · intro idx _
    unfold diagonalCell
    split_ifs
    · exact List.nodup_singleton _
    · exact List.nodup_nil
  · -- different indices work on different rows
    refine (Scan.pairwise_range _ _).imp fun {a b} hab => ?_
    intro p ha hb
    have hrow := (mem_diagonalCell.1 ha).1.symm.trans (mem_diagonalCell.1 hb).1
    unfold diagonalRow at hrow
    split_ifs at hrow <;> omega

theorem nodup_schedule (n : ℤ) : (schedule n).Nodup := by
  rw [schedule, List.nodup_flatMap]
  refine ⟨fun k _ => nodup_diagonal n k, (Scan.pairwise_range _ _).imp fun {a b} hab => ?_⟩
  intro p ha hb
  have hsame := (mem_diagonal.1 ha).2.trans (mem_diagonal.1 hb).2.symm
  omega

/-! ### A legal wavefront -/

/-- The four neighbours of a cell. -/
def neighbours (p : ℤ × ℤ) : List (ℤ × ℤ) :=
  [Grid.cross.up p, Grid.cross.left p, Grid.cross.down p, Grid.cross.right p]

/-- The launches of a pass, with side `n`, are a legal wavefront of the `n × n` interior. -/
structure Wavefront (n : ℕ) : Prop where
  /-- A pass visits every cell of the interior exactly once. -/
  once : (schedule n).Perm (Grid.rowMajor n n)
  /-- The neighbours of a visited cell lie in the padded array. -/
  inside : ∀ p ∈ schedule n, ∀ q ∈ neighbours p,
    (0 ≤ q.1 ∧ q.1 < n + 2) ∧ 0 ≤ q.2 ∧ q.2 < n + 2
  /-- The upper and left neighbours in the interior are visited in earlier launches. -/
  earlier : ∀ k p, p ∈ diagonal n k → ∀ q, q = Grid.cross.up p ∨ q = Grid.cross.left p →
    Grid.Interior n n q → ∃ k', 1 ≤ k' ∧ k' < k ∧ q ∈ diagonal n k'
  /-- The lower and right neighbours in the interior are visited in later launches. -/
  later : ∀ k p, p ∈ diagonal n k → ∀ q, q = Grid.cross.down p ∨ q = Grid.cross.right p →
    Grid.Interior n n q → ∃ k', k < k' ∧ k' ≤ diagonals n ∧ q ∈ diagonal n k'
  /-- No two cells of a launch are neighbours. -/
  apart : ∀ k, ∀ p ∈ diagonal n k, ∀ q ∈ diagonal n k, q ∉ neighbours p

theorem perm_rowMajor (n : ℕ) : (schedule n).Perm (Grid.rowMajor n n) := by
  rw [List.perm_ext_iff_of_nodup (nodup_schedule n) Grid.nodup_rowMajor]
  intro p
  rw [mem_schedule, Grid.mem_rowMajor]
  rfl

theorem inside_of_mem_schedule {n : ℕ} {p q : ℤ × ℤ} (hp : p ∈ schedule n)
    (hq : q ∈ neighbours p) : (0 ≤ q.1 ∧ q.1 < n + 2) ∧ 0 ≤ q.2 ∧ q.2 < n + 2 := by
  obtain ⟨h₁, h₂, h₃, h₄⟩ := mem_schedule.1 hp
  simp only [neighbours, Grid.cross, List.mem_cons, List.not_mem_nil, or_false] at hq
  rcases hq with rfl | rfl | rfl | rfl <;> simp only <;> omega

/-- **The diagonals are a legal wavefront** of the square, for every side. -/
theorem wavefront (n : ℕ) : Wavefront n where
  once := perm_rowMajor n
  inside _ hp _ hq := inside_of_mem_schedule hp hq
  earlier k p hp q hq hi := by
    obtain ⟨-, hk⟩ := mem_diagonal.1 hp
    obtain ⟨h₁, -, h₃, -⟩ := id hi
    refine ⟨q.1 + q.2 - 1, by omega, ?_, mem_diagonal.2 ⟨hi, rfl⟩⟩
    rcases hq with rfl | rfl <;> simp only [Grid.cross] <;> omega
  later k p hp q hq hi := by
    obtain ⟨-, hk⟩ := mem_diagonal.1 hp
    obtain ⟨-, h₂, -, h₄⟩ := id hi
    refine ⟨q.1 + q.2 - 1, ?_, by unfold diagonals; omega, mem_diagonal.2 ⟨hi, rfl⟩⟩
    rcases hq with rfl | rfl <;> simp only [Grid.cross] <;> omega
  apart k p hp q hq hpq := by
    -- a neighbour lies on the diagonal before or after
    obtain ⟨-, hk⟩ := mem_diagonal.1 hp
    obtain ⟨-, hk'⟩ := mem_diagonal.1 hq
    simp only [neighbours, Grid.cross, List.mem_cons, List.not_mem_nil, or_false] at hpq
    rcases hpq with rfl | rfl | rfl | rfl <;> simp only at hk' <;> omega

/-! ### Pictures of other shapes -/

variable {R C : ℕ}

/-- The elements that the body writing element `x` reads for it. -/
def stencilReads : Ix → List Ix
  | (i, j, c) => [(i, j, c), (i, j - 1, c), (i - 1, j, c), (i, j + 1, c), (i + 1, j, c)]

/-- The body reads `img_in` at the `stencilReads` of the elements it writes only. -/
theorem applyGaussDiag_congr {n k idx : ℤ} {oob oob' : Ix → UInt8} {s : Views R C}
    (h : ∀ x ∈ cells n k idx, ∀ y ∈ stencilReads x, s.imgIn.read oob y = s.imgIn.read oob' y) :
    applyGaussDiag n k oob idx s = applyGaussDiag n k oob' idx s := by
  rw [applyGaussDiag_eq, applyGaussDiag_eq]
  congr 1
  refine Region.scatter_congr_values fun x hx => ?_
  have hreads := h x hx
  obtain ⟨i, j, c⟩ := x
  simp only [stencilReads, List.mem_cons, List.not_mem_nil, or_false, forall_eq_or_imp,
    forall_eq] at hreads
  obtain ⟨hself, hleft, hup, hright, hdown⟩ := hreads
  exact Cross.mean_congr hself hleft hright hup hdown

/-- A pass with side `n` handles a padded `R × C` picture: it writes every interior element
exactly once and no element of the border, and it reads and writes inside the extents only. -/
structure HandlesShape (n : ℤ) (R C : ℕ) : Prop where
  once : ∀ x, Views.InteriorIx R C x → (passWrites n).count x = 1
  border : ∀ x ∈ passWrites n, ¬ Grid.Border R C (x.1, x.2.1)
  inside : ∀ x ∈ passWrites n, ∀ y ∈ x :: stencilReads x, InExtents (R + 2) (C + 2) y

theorem nodup_passWrites (n : ℤ) : (passWrites n).Nodup := by
  rw [passWrites_eq]
  exact nodup_flatMap_pixelIx (nodup_schedule n)

/-- A pass with the right side on a square picture. -/
theorem handlesShape_square (n : ℕ) : HandlesShape n n n where
  once x hx := List.count_eq_one_of_mem (nodup_passWrites n) (mem_passWrites.2 hx)
  border x hx hb := hb.2 (mem_passWrites.1 hx).1
  inside x hx y hy := by
    obtain ⟨⟨h₁, h₂, h₃, h₄⟩, h₅, h₆⟩ := mem_passWrites.1 hx
    obtain ⟨i, j, c⟩ := x
    simp only [stencilReads, List.mem_cons, List.not_mem_nil, or_false] at hy
    unfold InExtents
    rcases hy with rfl | rfl | rfl | rfl | rfl | rfl <;> simp only [cn] at * <;> omega

/-- **The only side that handles a picture** is its number of rows, and of columns. -/
theorem handlesShape_iff (hR : 0 < R) (hC : 0 < C) {n : ℤ} :
    HandlesShape n R C ↔ n = R ∧ n = C := by
  constructor
  · intro h
    -- the last interior element is written, so the square is at least as large as the picture
    have hchannel : (0 : ℤ) ≤ 0 ∧ (0 : ℤ) < cn := by decide
    have hR₁ : (1 : ℤ) ≤ R := by exact_mod_cast hR
    have hC₁ : (1 : ℤ) ≤ C := by exact_mod_cast hC
    have hlast : Views.InteriorIx R C ((R : ℤ), (C : ℤ), 0) :=
      ⟨⟨hR₁, le_rfl, hC₁, le_rfl⟩, hchannel⟩
    have hmem : ((R : ℤ), (C : ℤ), (0 : ℤ)) ∈ passWrites n :=
      List.count_pos_iff.1 (by rw [h.once _ hlast]; exact Nat.one_pos)
    obtain ⟨⟨-, hRn, -, hCn⟩, -⟩ := mem_passWrites.1 hmem
    simp only at hRn hCn
    -- the corner of the square is written, so it is neither outside nor on the border
    have hn₁ : 1 ≤ n := hR₁.trans hRn
    have hcorner : (n, n, (0 : ℤ)) ∈ passWrites n :=
      mem_passWrites.2 ⟨⟨hn₁, le_rfl, hn₁, le_rfl⟩, hchannel⟩
    have hin := h.inside _ hcorner _ List.mem_cons_self
    have hborder := h.border _ hcorner
    rcases (inExtents_pad_iff (p := (n, n)) hchannel).1 hin with hi | hb
    · obtain ⟨-, hnR, -, hnC⟩ := hi
      simp only at hnR hnC
      exact ⟨le_antisymm hnR hRn, le_antisymm hnC hCn⟩
    · exact absurd hb hborder
  · rintro ⟨rfl, hC'⟩
    obtain rfl : R = C := by exact_mod_cast hC'
    exact handlesShape_square R

/-- Without interior pixels there is nothing to write, and with side `0` nothing is written. -/
theorem handlesShape_zero (h : R = 0 ∨ C = 0) : HandlesShape 0 R C := by
  have hempty : ∀ x, x ∉ passWrites 0 := by
    intro x hx
    obtain ⟨⟨h₁, h₂, -, -⟩, -, -⟩ := mem_passWrites.1 hx
    omega
  refine ⟨fun x hx => ?_, fun x hx => absurd hx (hempty x), fun x hx => absurd hx (hempty x)⟩
  obtain ⟨⟨h₁, h₂, h₃, h₄⟩, -, -⟩ := hx
  omega

/-- **Which shapes the program handles**: some value of `n` handles an `R × C` picture iff the
picture is square or has no pixels. -/
theorem exists_handlesShape_iff (R C : ℕ) :
    (∃ n, HandlesShape n R C) ↔ R = C ∨ R = 0 ∨ C = 0 := by
  constructor
  · rintro ⟨n, h⟩
    rcases Nat.eq_zero_or_pos R with hR | hR
    · exact Or.inr (Or.inl hR)
    rcases Nat.eq_zero_or_pos C with hC | hC
    · exact Or.inr (Or.inr hC)
    obtain ⟨hnR, hnC⟩ := (handlesShape_iff hR hC).1 h
    exact Or.inl (by exact_mod_cast hnR.symm.trans hnC)
  · rintro (rfl | h)
    · exact ⟨R, handlesShape_square R⟩
    · exact ⟨0, handlesShape_zero h⟩

/-- No value of `n` handles a picture of one row and two columns. -/
theorem not_handlesShape_one_two : ¬ ∃ n, HandlesShape n 1 2 := by
  rintro ⟨n, h⟩
  obtain ⟨h₁, h₂⟩ := (handlesShape_iff Nat.one_pos Nat.two_pos).1 h
  omega

end ParallelWaveGaussSeidel

end KokkosStencil
