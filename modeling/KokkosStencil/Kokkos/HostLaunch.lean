import KokkosStencil.Kokkos.ParallelFor

/-!
# What a launch on the host leaves in memory

`parallel_for` with the OpenMP back end: the threads share out the indices of the policy, by any
schedule, and run their bodies while their loads and stores interleave in any way.

* `parallelForRange_iff`, `parallelForMD_iff` : for race-free bodies there is one result, and it is
  that of a `launch`, in any order of the indices.  So a statement about every `LaunchOrder` is one
  about every run of the threads.
-/

namespace KokkosStencil

namespace Kokkos

open Threads Interleave

section

variable {κ ι β σ : Type*} (M : Storage σ κ ι β) (K : Kernel κ ι β)

/-- `parallel_for(MDRangePolicy<Rank<N>>(lower, upper, tile), functor)` may turn `m` into `m'`.  The
entries are `(lower[i], upper[i], tile[i])`; the functor takes the indices as a `κ`. -/
def ParallelForMD (entries : List (ℤ × ℤ × ℤ)) (index : List ℤ → κ) (m m' : σ) : Prop :=
  ∃ (n : ℕ) (work : Fin (n + 1) → List (List ℤ)), IsMDExecution entries n work ∧
    RunsTo M K (List.finRange (n + 1)) (fun t => (work t).map index) m m'

variable {M K} {policy : List κ}

/-! ### Multidimensional policies -/

/-- Entries that `MDRangePolicy` accepts: the bounds are not the wrong way round, and the tile
sizes are `1` or not given. -/
def ValidEntry (e : ℤ × ℤ × ℤ) : Prop :=
  0 ≤ e.1 ∧ e.1 ≤ e.2.1 ∧ e.2.1 < 2 ^ 62 ∧ 0 ≤ e.2.2 ∧ e.2.2 ≤ 1

/-- The entries as arguments of the constructor. -/
def ValidEntry.bounds {e : ℤ × ℤ × ℤ} (h : ValidEntry e) : Bounds where
  lower := e.1
  upper := e.2.1
  tile := e.2.2
  lower_nonneg := h.1
  upper_nonneg := h.1.trans h.2.1
  tile_nonneg := h.2.2.2.1
  lower_lt := h.2.1.trans_lt h.2.2.1
  upper_lt := h.2.2.1
  tile_lt := h.2.2.2.2.trans_lt (by norm_num)

/-- The policy can be constructed and some schedule exists. -/
theorem exists_isMDExecution {entries : List (ℤ × ℤ × ℤ)} (h : ∀ e ∈ entries, ValidEntry e) :
    ∃ (n : ℕ) (work : Fin (n + 1) → List (List ℤ)), IsMDExecution entries n work := by
  let bounds := entries.attach.map fun e => (h e.1 e.2).bounds
  have hbounds : bounds.map (fun b => (b.lower, b.upper, b.tile)) = entries := by
    rw [List.map_map]
    exact (List.attach_map_subtype_val entries)
  have htile : ∀ b ∈ bounds, b.tile ≤ 1 := by
    intro b hb
    obtain ⟨e, -, rfl⟩ := List.mem_map.1 hb
    exact (h e.1 e.2).2.2.2.2
  obtain ⟨q, hq⟩ := exists_mkPolicy .right .right htile
  exact ⟨0, _, bounds, q, 1, _, hbounds, hq, .inParallel, rfl⟩

/-- **A launch over a multidimensional policy has one result**, that of a `launch` in any order. -/
theorem parallelForMD_iff {entries : List (ℤ × ℤ × ℤ)} {index : List ℤ → κ}
    (hpolicy : (Tiling.nest (entries.map fun e => Int.range e.1 e.2.1)).map index = policy)
    (hrace : K.RaceFree policy) (hnodup : policy.Nodup) (hvalid : ∀ e ∈ entries, ValidEntry e)
    (hsize : (entries.map fun e => e.2.1 - e.1).prod < 2 ^ 64) (o : LaunchOrder policy) {m m' : σ} :
    ParallelForMD M K entries index m m' ↔ m' = launch o (K.body M) m := by
  have hone : ∀ {m'}, ParallelForMD M K entries index m m' → m' = launch o (K.body M) m := by
    rintro m' ⟨n, work, hwork, hrun⟩
    have hperm := (hwork.perm (fun e he => (hvalid e he).2.1) hsize).map index
    rw [hpolicy, allWork, List.map_flatMap] at hperm
    exact hrun.eq_launch hrace hnodup (List.nodup_finRange _) hperm o
  refine ⟨hone, ?_⟩
  rintro rfl
  obtain ⟨n, work, hwork⟩ := exists_isMDExecution hvalid
  obtain ⟨m', hrun⟩ := exists_runsTo (M := M) (K := K) (List.nodup_finRange (n + 1))
    (fun t => (work t).map index) m
  have h : ParallelForMD M K entries index m m' := ⟨n, work, hwork, hrun⟩
  exact hone h ▸ h

end

/-! ### Ranks and ranges -/

/-- The arguments of a functor of two indices. -/
def index2 : List ℤ → ℤ × ℤ
  | [i, j] => (i, j)
  | _ => (0, 0)

/-- The arguments of a functor of three indices. -/
def index3 : List ℤ → ℤ × ℤ × ℤ
  | [i, j, k] => (i, j, k)
  | _ => (0, 0, 0)

theorem map_index2_nest (lo hi : ℤ × ℤ) :
    (Tiling.nest [Int.range lo.1 hi.1, Int.range lo.2 hi.2]).map index2 = mdRange2 lo hi := by
  rw [Tiling.nest_cons, Tiling.nest_singleton, List.map_flatMap]
  simp only [List.map_map]
  rfl

theorem map_index3_nest (lo hi : ℤ × ℤ × ℤ) :
    (Tiling.nest [Int.range lo.1 hi.1, Int.range lo.2.1 hi.2.1, Int.range lo.2.2 hi.2.2]).map
      index3 = mdRange3 lo hi := by
  rw [Tiling.nest_cons, Tiling.nest_cons, Tiling.nest_singleton, List.map_flatMap]
  refine List.flatMap_congr fun i _ => ?_
  rw [← map_index2_nest, Tiling.nest_cons, Tiling.nest_singleton]
  simp only [List.map_flatMap, List.map_map]
  rfl

section

variable {ι β σ : Type*}

/-- `parallel_for(MDRangePolicy<Rank<2>>(lo, hi, tile), functor)` -/
def ParallelFor2 (M : Storage σ (ℤ × ℤ) ι β) (K : Kernel (ℤ × ℤ) ι β) (lo hi tile : ℤ × ℤ)
    (m m' : σ) : Prop :=
  ParallelForMD M K [(lo.1, hi.1, tile.1), (lo.2, hi.2, tile.2)] index2 m m'

/-- `parallel_for(MDRangePolicy<Rank<3>>(lo, hi, tile), functor)` -/
def ParallelFor3 (M : Storage σ (ℤ × ℤ × ℤ) ι β) (K : Kernel (ℤ × ℤ × ℤ) ι β)
    (lo hi tile : ℤ × ℤ × ℤ) (m m' : σ) : Prop :=
  ParallelForMD M K [(lo.1, hi.1, tile.1), (lo.2.1, hi.2.1, tile.2.1),
    (lo.2.2, hi.2.2, tile.2.2)] index3 m m'

theorem parallelFor2_iff {M : Storage σ (ℤ × ℤ) ι β} {K : Kernel (ℤ × ℤ) ι β} {lo hi tile : ℤ × ℤ}
    (hrace : K.RaceFree (mdRange2 lo hi)) (h₁ : ValidEntry (lo.1, hi.1, tile.1))
    (h₂ : ValidEntry (lo.2, hi.2, tile.2)) (hsize : (hi.1 - lo.1) * (hi.2 - lo.2) < 2 ^ 64)
    (o : LaunchOrder (mdRange2 lo hi)) {m m' : σ} :
    ParallelFor2 M K lo hi tile m m' ↔ m' = launch o (K.body M) m := by
  refine parallelForMD_iff (map_index2_nest lo hi) hrace (nodup_mdRange2 _ _) ?_ ?_ o
  · exact List.forall_mem_cons.2 ⟨h₁, List.forall_mem_singleton.2 h₂⟩
  · simpa using hsize

theorem parallelFor3_iff {M : Storage σ (ℤ × ℤ × ℤ) ι β} {K : Kernel (ℤ × ℤ × ℤ) ι β}
    {lo hi tile : ℤ × ℤ × ℤ} (hrace : K.RaceFree (mdRange3 lo hi))
    (h₁ : ValidEntry (lo.1, hi.1, tile.1)) (h₂ : ValidEntry (lo.2.1, hi.2.1, tile.2.1))
    (h₃ : ValidEntry (lo.2.2, hi.2.2, tile.2.2))
    (hsize : (hi.1 - lo.1) * ((hi.2.1 - lo.2.1) * (hi.2.2 - lo.2.2)) < 2 ^ 64)
    (o : LaunchOrder (mdRange3 lo hi)) {m m' : σ} :
    ParallelFor3 M K lo hi tile m m' ↔ m' = launch o (K.body M) m := by
  refine parallelForMD_iff (map_index3_nest lo hi) hrace (nodup_mdRange3 _ _) ?_ ?_ o
  · exact List.forall_mem_cons.2
      ⟨h₁, List.forall_mem_cons.2 ⟨h₂, List.forall_mem_singleton.2 h₃⟩⟩
  · simpa using hsize

/-! ### Ranges -/

/-- `parallel_for(RangePolicy<>(first, last), functor)` may turn `m` into `m'`. -/
def ParallelForRange (M : Storage σ ℤ ι β) (K : Kernel ℤ ι β) (first last : ℤ) (m m' : σ) :
    Prop :=
  ∃ (concurrency : ℤ) (n : ℕ) (work : Fin (n + 1) → List ℤ),
    IsExecution (mkRangePolicy concurrency first last) n work ∧
      RunsTo M K (List.finRange (n + 1)) work m m'

theorem first_mkRangePolicy (concurrency first last : ℤ) :
    (mkRangePolicy concurrency first last).first = first ∨
      (mkRangePolicy concurrency first last).first = 0 := by
  unfold mkRangePolicy
  split_ifs with h
  · exact Or.inl rfl
  · exact Or.inr rfl

theorem range_mkRangePolicy (concurrency first last : ℤ) :
    Int.range (mkRangePolicy concurrency first last).first
      (mkRangePolicy concurrency first last).last = Int.range first last := by
  unfold mkRangePolicy
  split_ifs with h
  · rfl
  · rw [Tiling.range_eq_nil (not_lt.1 h)]
    rfl

/-- **A launch over a range has one result**, that of a `launch` in any order. -/
theorem parallelForRange_iff {M : Storage σ ℤ ι β} {K : Kernel ℤ ι β} {first last : ℤ}
    (hfirst₀ : 0 ≤ first) (hfirst : first < 2 ^ 63)
    (hrace : K.RaceFree (Int.range first last)) (o : LaunchOrder (Int.range first last))
    {m m' : σ} :
    ParallelForRange M K first last m m' ↔ m' = launch o (K.body M) m := by
  have hone : ∀ {m'}, ParallelForRange M K first last m m' → m' = launch o (K.body M) m := by
    rintro m' ⟨concurrency, n, work, hwork, hrun⟩
    have hbegin := first_mkRangePolicy concurrency first last
    have hperm := hwork.perm (by omega) (by omega)
    rw [range_mkRangePolicy] at hperm
    exact hrun.eq_launch hrace (nodup_range _ _) (List.nodup_finRange _) hperm o
  refine ⟨hone, ?_⟩
  rintro rfl
  obtain ⟨m', hrun⟩ := exists_runsTo (M := M) (K := K) (List.nodup_finRange 1) _ m
  have h : ParallelForRange M K first last m m' := ⟨1, 0, _, .inParallel, hrun⟩
  exact hone h ▸ h

end

/-! ### Sizes of pictures -/

/-- The numbers of rows and columns of the padded picture are `int`s.  The flat offsets of its bytes
are integers here.  In the programs they are `int`s too, which hold them as long as
`(R + 2) * (C + 2) * 3 ≤ 2 ^ 31`; devices skip the launches of larger pictures and of empty ones
only. -/
def IntSized (R C : ℕ) : Prop := R + 2 < 2 ^ 31 ∧ C + 2 < 2 ^ 31

theorem mul_lt_of_intSized {m n : ℤ} (hm₀ : 0 ≤ m) (hm : m < 2 ^ 31) (hn : n < 2 ^ 31) :
    m * n < 2 ^ 62 :=
  calc m * n ≤ m * 2 ^ 31 := Int.mul_le_mul_of_nonneg_left hn.le hm₀
    _ < 2 ^ 62 := by omega

end Kokkos

end KokkosStencil
