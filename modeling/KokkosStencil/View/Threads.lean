import KokkosStencil.Kokkos.DeviceLaunch
import KokkosStencil.View.Jacobi
import KokkosStencil.View.Schedule

/-!
# The loops of the parallel programs, run by threads

The kernels of `parallel_gauss_seidel.cpp`, `parallel_wave_gauss_seidel.cpp` and
`parallel_jacobi.cpp` load from `img_in` and store to `img_out`, every body to elements of its own,
so they have no data races.  `ThreadIteration` is an iteration in which `parallel_for` gives the
indices to the threads of the host, by any schedule, or to those of a device, and every load and
every store of a byte is a step of its own.

* `redBlack_threads_iff`, `wave_threads_iff`, `jacobi_threads_iff` : such a run of the loop has
  exactly one result, and it is the one of `loop` for every choice of the orders, except where the
  device skips the launches.
-/

namespace KokkosStencil

open Threads Kokkos

deriving instance DecidableEq for Build

/-- The names of the views. -/
inductive ViewName where
  | imgIn
  | imgOut
  deriving DecidableEq

namespace Views

variable {R C : ℕ} {κ : Type*}

/-- The views by their names. -/
def fields (R C : ℕ) : Fields (Views R C) ViewName (InExtents (R + 2) (C + 2)) UInt8 where
  field
    | s, .imgIn => s.imgIn
    | s, .imgOut => s.imgOut
  setField
    | s, .imgIn, v => { s with imgIn := v }
    | s, .imgOut, v => { s with imgOut := v }
  field_setField s n v := by cases n <;> rfl
  field_setField_of_ne s n n' v h := by cases n <;> cases n' <;> first | rfl | exact absurd rfl h
  setField_setField s n v w := by cases n <;> rfl
  setField_comm s n n' v w h := by cases n <;> cases n' <;> first | rfl | exact absurd rfl h

/-- The elements of both views as a memory; `oob x` is what stray loads of body `x` return. -/
def storage (R C : ℕ) (oob : κ → Ix → UInt8) : Storage (Views R C) κ (ViewName × Ix) UInt8 :=
  (fields R C).storage oob

/-- The value of a sum of five loaded bytes times `0.2`. -/
def meanOf : List UInt8 → UInt8
  | [a, b, c, d, e] => mean5 a b c d e
  | _ => 0

/-- `img_out(x) = (img_in(y₁) + … + img_in(y₅)) * 0.2`, for the elements `reads x`. -/
def meanBlock (reads : Ix → List Ix) (x : Ix) : CodeBlock (ViewName × Ix) UInt8 :=
  ⟨(reads x).map (.imgIn, ·), [((.imgOut, x), meanOf)]⟩

/-- The bodies of a kernel that stores means to elements of its own do not race. -/
theorem raceFree_map_meanBlock {policy : List κ} (cells : κ → List Ix) (reads : Ix → List Ix)
    (hcells : ∀ x ∈ policy, ∀ y ∈ policy, x ≠ y → List.Disjoint (cells x) (cells y)) :
    Kernel.RaceFree (fun x => (cells x).map (meanBlock reads)) policy := by
  refine raceFree_of_cells .imgIn [.imgOut] (by decide) cells (fun x => ?_)
    (fun x => ?_) hcells
  · refine ⟨(cells x).flatMap reads, ?_⟩
    rw [Kernel.loads, List.flatMap_map, List.map_flatMap]
    rfl
  · rw [Kernel.stores, List.flatMap_map, List.flatMap_singleton, List.map_eq_flatMap]
    rfl

end Views

/-! ### `parallel_gauss_seidel.cpp` -/

namespace ParallelGaussSeidel

variable {R C : ℕ}

/-- `apply_gauss_red` and `apply_gauss_black`, load by load. -/
def kernel (colour : ℤ) : Kernel Ix (ViewName × Ix) UInt8
  | (i, j, k) => if (i + j) % 2 = colour then [Views.meanBlock stencilReads (i, j, k)] else []

theorem body_kernel (colour : ℤ) (oob : Ix → UInt8) :
    (kernel colour).body (Views.storage R C fun _ => oob) = applyGauss colour oob := by
  funext ⟨i, j, k⟩ s
  simp only [Kernel.body, kernel, applyGauss]
  split_ifs <;> rfl

theorem kernel_eq (colour : ℤ) :
    kernel colour = fun x => (cells colour x).map (Views.meanBlock stencilReads) := by
  funext ⟨i, j, k⟩
  simp only [kernel, cells]
  split_ifs <;> rfl

theorem eq_of_mem_cells {colour : ℤ} {x z : Ix} (h : z ∈ cells colour x) : z = x := by
  unfold cells at h
  split_ifs at h
  · exact List.mem_singleton.1 h
  · cases h

theorem raceFree_kernel (colour : ℤ) :
    (kernel colour).RaceFree (gaussOriginalImage R C) := by
  rw [kernel_eq]
  refine Views.raceFree_map_meanBlock _ stencilReads fun x _ y _ hxy z hzx hzy => hxy ?_
  rw [← eq_of_mem_cells hzx, ← eq_of_mem_cells hzy]

/-- A launch of `apply_gauss_red` or `apply_gauss_black`. -/
def ThreadLaunch (b : Build) (colour : ℤ) (oob : Ix → UInt8) (s s' : Views R C) : Prop :=
  match b with
  | .host => ParallelFor3 (Views.storage R C fun _ => oob) (kernel colour) (1, 1, 0)
      ((R + 2 : ℤ) - 1, (C + 2 : ℤ) - 1, cn) (1, 1, 1) s s'
  | .device => DeviceParallelFor3 (Views.storage R C fun _ => oob) (kernel colour) (1, 1, 0)
      ((R + 2 : ℤ) - 1, (C + 2 : ℤ) - 1, cn) (1, 1, 1) s s'

/-- An iteration of the loop. -/
def ThreadIteration (b : Build) (oob : Ix → UInt8) (s s' : Views R C) : Prop :=
  ∃ s₁ s₂, ThreadLaunch b RED oob s s₁ ∧ ThreadLaunch b BLACK oob s₁ s₂ ∧ s' = s₂.deepCopy

/-- The launches of the program are skipped. -/
def Skips (b : Build) (R C : ℕ) : Prop := b = .device ∧ (2 ^ 32 : ℤ) ∣ R * (C * cn)

instance (b : Build) (R C : ℕ) : Decidable (Skips b R C) := inferInstanceAs (Decidable (_ ∧ _))

/-- A launch over `gauss_original_image` on the host. -/
theorem parallelFor_gaussOriginalImage_iff {ι β σ : Type*} {M : Storage σ Ix ι β}
    {K : Kernel Ix ι β} (h : IntSized R C) (hrace : K.RaceFree (gaussOriginalImage R C))
    (o : LaunchOrder (gaussOriginalImage R C)) {m m' : σ} :
    ParallelFor3 M K (1, 1, 0) ((R + 2 : ℤ) - 1, (C + 2 : ℤ) - 1, cn) (1, 1, 1) m m' ↔
      m' = launch o (K.body M) m := by
  obtain ⟨hR, hC⟩ := h
  have hrows : (R + 2 : ℤ) - 1 - 1 = R := by omega
  have hcols : (C + 2 : ℤ) - 1 - 1 = C := by omega
  have hsize := mul_lt_of_intSized (m := R) (n := C) (by omega) (by omega) (by omega)
  refine parallelFor3_iff hrace ?_ ?_ ?_ ?_ o
  · simp only [ValidEntry]; omega
  · simp only [ValidEntry]; omega
  · simp only [ValidEntry, cn]; omega
  · simp only [hrows, hcols, cn, Int.sub_zero]
    rw [← mul_assoc]
    omega

theorem threadLaunch_iff (h : IntSized R C) (b : Build) (colour : ℤ) (oob : Ix → UInt8)
    (o : LaunchOrder (gaussOriginalImage R C)) {s s' : Views R C} :
    ThreadLaunch b colour oob s s' ↔
      s' = if Skips b R C then s else launch o (applyGauss colour oob) s := by
  rw [← body_kernel]
  cases b with
  | host =>
    rw [if_neg fun hskip => Build.noConfusion hskip.1]
    exact parallelFor_gaussOriginalImage_iff h (raceFree_kernel colour) o
  | device =>
    obtain ⟨hR, hC⟩ := h
    have hrows : (R + 2 : ℤ) - 1 - 1 = R := by omega
    have hcols : (C + 2 : ℤ) - 1 - 1 = C := by omega
    have hlaunch := deviceParallelFor3_iff (M := Views.storage R C fun _ => oob)
      (raceFree_kernel colour) (by dsimp only; omega) (by dsimp only; omega)
      (by dsimp only [cn]; omega) o (m := s) (r := s')
    simp only [hrows, hcols, Int.sub_zero] at hlaunch
    by_cases hdvd : (2 ^ 32 : ℤ) ∣ R * (C * cn)
    · rw [if_pos hdvd] at hlaunch
      rw [if_pos ⟨rfl, hdvd⟩]
      exact hlaunch
    · rw [if_neg hdvd] at hlaunch
      rw [if_neg fun hskip => hdvd hskip.2]
      exact hlaunch

theorem threadIteration_iff (h : IntSized R C) (b : Build) (oob : Ix → UInt8) (o : Orders R C)
    {s s' : Views R C} : ThreadIteration b oob s s' ↔
      s' = if Skips b R C then s.deepCopy else iteration oob o s := by
  simp only [ThreadIteration, threadLaunch_iff h b RED oob o.red,
    threadLaunch_iff h b BLACK oob o.black, exists_and_left, exists_eq_left]
  split_ifs
  · rfl
  · rfl

/-- **Every run of the threads is a run of `loop`**, for all orders, or one of copies only. -/
theorem redBlack_threads_iff (h : IntSized R C) (b : Build) (oob : Ix → UInt8)
    (orders : ℕ → Orders R C) {t : ℕ} {s s' : Views R C} :
    Steps (fun _ => ThreadIteration b oob) t s s' ↔
      s' = if Skips b R C then Views.deepCopy^[t] s else loop oob orders t s := by
  by_cases hskip : Skips b R C
  · simp only [if_pos hskip]
    refine steps_iff (fun t => Views.deepCopy^[t]) (fun _ => Views.deepCopy) (fun t s s' => ?_)
      (fun _ => rfl) fun t s => Function.iterate_succ_apply' _ t s
    rw [threadIteration_iff h b oob (orders t), if_pos hskip]
  · simp only [if_neg hskip]
    refine steps_iff (loop oob orders) (fun t => iteration oob (orders t)) (fun t s s' => ?_)
      (fun _ => rfl) fun _ _ => rfl
    rw [threadIteration_iff h b oob (orders t), if_neg hskip]

end ParallelGaussSeidel

/-! ### `parallel_wave_gauss_seidel.cpp` -/

namespace ParallelWaveGaussSeidel

variable {R C : ℕ}

/-- `apply_gauss_diag`, load by load. -/
def kernel (n k : ℤ) : Kernel ℤ (ViewName × Ix) UInt8 := fun idx =>
  let i := diagonalRow n k idx
  if i ≤ n then
    let j := k + 1 - i
    [Views.meanBlock stencilReads (i, j, 0), Views.meanBlock stencilReads (i, j, 1),
      Views.meanBlock stencilReads (i, j, 2)]
  else []

theorem body_kernel (n k : ℤ) (oob : Ix → UInt8) :
    (kernel n k).body (Views.storage R C fun _ => oob) = applyGaussDiag n k oob := by
  funext idx s
  simp only [Kernel.body, kernel, applyGaussDiag]
  split_ifs <;> rfl

theorem kernel_eq (n k : ℤ) :
    kernel n k = fun idx => (cells n k idx).map (Views.meanBlock stencilReads) := by
  funext idx
  simp only [kernel, cells, diagonalCell]
  split_ifs <;> rfl

theorem raceFree_kernel (n k : ℤ) : (kernel n k).RaceFree (diagonalRange n k) := by
  rw [kernel_eq]
  refine Views.raceFree_map_meanBlock _ stencilReads fun a _ b _ hab z ha hb => hab ?_
  -- different indices work on different rows
  have hrow : ∀ {idx}, z ∈ cells n k idx → z.1 = diagonalRow n k idx := by
    intro idx hz
    obtain ⟨p, hp, hzp⟩ := List.mem_flatMap.1 hz
    rw [← (mem_diagonalCell.1 hp).1, (mem_pixelIx.1 hzp).1]
  have hsame := (hrow ha).symm.trans (hrow hb)
  unfold diagonalRow at hsame
  split_ifs at hsame <;> omega

/-- A launch of `apply_gauss_diag`. -/
def ThreadLaunch (b : Build) (n k : ℤ) (oob : Ix → UInt8) (s s' : Views R C) : Prop :=
  match b with
  | .host => ParallelForRange (Views.storage R C fun _ => oob) (kernel n k) 0
      (if k < n then k else n) s s'
  | .device => DeviceParallelForRange (Views.storage R C fun _ => oob) (kernel n k) 0
      (if k < n then k else n) s s'

/-- An iteration of the loop. -/
def ThreadIteration (b : Build) (n : ℤ) (oob : Ix → UInt8) (s s' : Views R C) : Prop :=
  ∃ s₁, Chain (fun k => ThreadLaunch b n k oob) (Int.range 1 (diagonals n + 1)) s s₁ ∧
    s' = s₁.deepCopy

/-- The indices of the diagonals can be counted by the threads of a device. -/
def Counted (b : Build) (n : ℤ) : Prop := b = .device → n < 2 ^ 30

theorem threadLaunch_iff {b : Build} {n : ℤ} (h : Counted b n) {k : ℤ}
    (hk : k ∈ Int.range 1 (diagonals n + 1)) (oob : Ix → UInt8)
    (o : LaunchOrder (diagonalRange n k)) {s s' : Views R C} :
    ThreadLaunch b n k oob s s' ↔ s' = launch o (applyGaussDiag n k oob) s := by
  rw [← body_kernel]
  cases b with
  | host => exact parallelForRange_iff le_rfl (by norm_num) (raceFree_kernel n k) o
  | device =>
    obtain ⟨hk₀, hk₁⟩ := Int.mem_range_iff.1 hk
    have hn := h rfl
    unfold diagonals at hk₁
    refine deviceParallelForRange_iff (raceFree_kernel n k) ⟨le_rfl, ?_⟩ ⟨by norm_num, ?_⟩ o
    · split_ifs <;> omega
    · split_ifs <;> omega

theorem threadIteration_iff {b : Build} {n : ℤ} (h : Counted b n) (oob : Ix → UInt8)
    (o : Orders n) {s s' : Views R C} :
    ThreadIteration b n oob s s' ↔ s' = iteration n oob o s := by
  have hchain : ∀ {s'}, Chain (fun k => ThreadLaunch b n k oob) (Int.range 1 (diagonals n + 1))
      s s' ↔ s' = (Int.range 1 (diagonals n + 1)).foldl
        (fun s k => launch (o k) (applyGaussDiag n k oob) s) s :=
    chain_iff fun k hk _ _ => threadLaunch_iff h hk oob (o k)
  simp only [ThreadIteration, hchain, exists_eq_left]
  rfl

/-- **Every run of the threads is a run of `loop`**, for all orders. -/
theorem wave_threads_iff {b : Build} {n : ℤ} (h : Counted b n) (oob : Ix → UInt8)
    (orders : ℕ → Orders n) {t : ℕ} {s s' : Views R C} :
    Steps (fun _ => ThreadIteration b n oob) t s s' ↔ s' = loop n oob orders t s :=
  steps_iff (loop n oob orders) (fun t => iteration n oob (orders t))
    (fun t _ _ => threadIteration_iff h oob (orders t)) (fun _ => rfl) fun _ _ => rfl

end ParallelWaveGaussSeidel

/-! ### `parallel_jacobi.cpp` -/

namespace ParallelJacobi

variable {R C : ℕ}

/-- The elements the body loads for element `(i, j, k)`. -/
def stencilReads : Ix → List Ix
  | (i, j, k) => [(i, j, k), (i, j - 1, k), (i, j + 1, k), (i - 1, j, k), (i + 1, j, k)]

/-- `apply_jacobi`, load by load. -/
def kernel : Kernel (ℤ × ℤ) (ViewName × Ix) UInt8
  | (i, j) => (Int.range 0 cn).map fun k => Views.meanBlock stencilReads (i, j, k)

theorem body_kernel (oob : ℤ × ℤ → Ix → UInt8) :
    kernel.body (Views.storage R C oob) = applyJacobi oob := rfl

theorem raceFree_kernel : kernel.RaceFree (stencilImage R C) :=
  Views.raceFree_map_meanBlock pixelIx stencilReads fun _ _ _ _ hpq _ hzp hzq =>
    hpq ((mem_pixelIx.1 hzp).1.trans (mem_pixelIx.1 hzq).1.symm)

/-- A launch over `stencil_image` on the host. -/
theorem parallelFor_stencilImage_iff {ι β σ : Type*} {M : Storage σ (ℤ × ℤ) ι β}
    {K : Kernel (ℤ × ℤ) ι β} (h : IntSized R C) (hrace : K.RaceFree (stencilImage R C))
    (o : LaunchOrder (stencilImage R C)) {m m' : σ} :
    ParallelFor2 M K (0, 0) ((R + 2 : ℤ), (C + 2 : ℤ)) (1, 1) m m' ↔
      m' = launch o (K.body M) m := by
  obtain ⟨hR, hC⟩ := h
  have hsize := mul_lt_of_intSized (m := R + 2) (n := C + 2) (by omega) (by omega) (by omega)
  refine parallelFor2_iff hrace ?_ ?_ ?_ o
  · simp only [ValidEntry]; omega
  · simp only [ValidEntry]; omega
  · simp only [Int.sub_zero]; omega

/-- A launch of `apply_jacobi`. -/
def ThreadLaunch (b : Build) (oob : ℤ × ℤ → Ix → UInt8) (s s' : Views R C) : Prop :=
  match b with
  | .host => ParallelFor2 (Views.storage R C oob) kernel (0, 0) ((R + 2 : ℤ), (C + 2 : ℤ)) (1, 1)
      s s'
  | .device => DeviceParallelFor2 (Views.storage R C oob) kernel (0, 0)
      ((R + 2 : ℤ), (C + 2 : ℤ)) (1, 1) s s'

/-- An iteration of the loop. -/
def ThreadIteration (b : Build) (oob : ℤ × ℤ → Ix → UInt8) (s s' : Views R C) : Prop :=
  ∃ s₁, ThreadLaunch b oob s s₁ ∧ s' = s₁.deepCopy

/-- The launches of the program are skipped. -/
def Skips (b : Build) (R C : ℕ) : Prop :=
  b = .device ∧ (2 ^ 32 : ℤ) ∣ (R + 2 : ℤ) * (C + 2 : ℤ)

instance (b : Build) (R C : ℕ) : Decidable (Skips b R C) := inferInstanceAs (Decidable (_ ∧ _))

theorem threadIteration_iff (h : IntSized R C) (b : Build) (oob : ℤ × ℤ → Ix → UInt8)
    (o : LaunchOrder (stencilImage R C)) {s s' : Views R C} :
    ThreadIteration b oob s s' ↔
      s' = if Skips b R C then s.deepCopy else iteration oob o s := by
  obtain ⟨hR, hC⟩ := h
  have hlaunch : ∀ {s'}, ThreadLaunch b oob s s' ↔
      s' = if Skips b R C then s else launch o (applyJacobi oob) s := by
    intro s'
    rw [← body_kernel]
    cases b with
    | host =>
      rw [if_neg fun hskip => Build.noConfusion hskip.1]
      exact parallelFor_stencilImage_iff ⟨hR, hC⟩ raceFree_kernel o
    | device =>
      have hdevice := deviceParallelFor2_iff (M := Views.storage R C oob) raceFree_kernel
        (by omega) (by omega) o (m := s) (r := s')
      simp only [Int.sub_zero] at hdevice
      by_cases hdvd : (2 ^ 32 : ℤ) ∣ (R + 2 : ℤ) * (C + 2 : ℤ)
      · rw [if_pos hdvd] at hdevice
        rw [if_pos ⟨rfl, hdvd⟩]
        exact hdevice
      · rw [if_neg hdvd] at hdevice
        rw [if_neg fun hskip => hdvd hskip.2]
        exact hdevice
  simp only [ThreadIteration, hlaunch, exists_eq_left]
  split_ifs
  · rfl
  · rfl

/-- **Every run of the threads is a run of `loop`**, for all orders, or one of copies only;
iteration `s` has the stray reads `oob s`. -/
theorem jacobi_threads_iff (h : IntSized R C) (b : Build) (oob : SweepReads)
    (orders : ℕ → LaunchOrder (stencilImage R C)) {t : ℕ} {s s' : Views R C} :
    Steps (fun t => ThreadIteration b (oob t)) t s s' ↔
      s' = if Skips b R C then Views.deepCopy^[t] s else loop oob orders t s := by
  by_cases hskip : Skips b R C
  · simp only [if_pos hskip]
    refine steps_iff (fun t => Views.deepCopy^[t]) (fun _ => Views.deepCopy) (fun t s s' => ?_)
      (fun _ => rfl) fun t s => Function.iterate_succ_apply' _ t s
    rw [threadIteration_iff h b (oob t) (orders t), if_pos hskip]
  · simp only [if_neg hskip]
    refine steps_iff (loop oob orders) (fun t => iteration (oob t) (orders t)) (fun t s s' => ?_)
      (fun _ => rfl) fun _ _ => rfl
    rw [threadIteration_iff h b (oob t) (orders t), if_neg hskip]

end ParallelJacobi

end KokkosStencil
