import KokkosStencil.Kokkos.DeviceIterateTile
import KokkosStencil.Kokkos.HostLaunch

/-!
# What a launch on a device leaves in memory

`parallel_for` with the CUDA back end: every thread of the grid runs the bodies of its indices, and
the loads and stores of the threads interleave in any way.

* `deviceParallelForMD_iff` : for race-free bodies there is one result, that of a `launch` in any
  order, unless the launch is skipped because its number of tiles is a multiple of `2 ^ 32`;
* `deviceParallelForRange_iff` : over a range there is one result too.
-/

namespace KokkosStencil

namespace Kokkos

open Threads

/-! ### Multidimensional policies -/

section

variable {κ ι β σ : Type*} (M : Storage σ κ ι β) (K : Kernel κ ι β)

/-- The axis with the entries `(lower[i], upper[i], tile[i])`. -/
def deviceAxis (e : ℤ × ℤ × ℤ) : DeviceAxis := ⟨e.1, e.2.1, e.2.2⟩

/-- `parallel_for(MDRangePolicy<Rank<N>>(lower, upper, tile), functor)` on a device may turn `m`
into `m'`. -/
def DeviceParallelForMD (entries : List (ℤ × ℤ × ℤ)) (index : List ℤ → κ) (m m' : σ) : Prop :=
  ∃ (maxblocks : ℤ) (work : List (ℤ × ℤ) → List (List ℤ)),
    (0 < maxblocks ∧ maxblocks < 2 ^ 32) ∧
    DeviceWork maxblocks .left (entries.map deviceAxis) work ∧
    RunsTo M K (deviceThreads maxblocks (entries.map deviceAxis))
      (fun thread => (work thread).map index) m m'

variable {M K} {policy : List κ}

/-- The launch is skipped although its policy may have indices. -/
def Skipped (entries : List (ℤ × ℤ × ℤ)) : Prop :=
  (2 ^ 32 : ℤ) ∣ ((entries.map deviceAxis).map DeviceAxis.tileEnd).prod

instance (entries : List (ℤ × ℤ × ℤ)) : Decidable (Skipped entries) :=
  inferInstanceAs (Decidable (_ ∣ _))

/-- **A launch over a multidimensional policy has one result**: the memory as it was if the launch
is skipped, and that of a `launch` in any order if not. -/
theorem deviceParallelForMD_iff {entries : List (ℤ × ℤ × ℤ)} {index : List ℤ → κ}
    (hpolicy : (Tiling.nest (entries.map fun e => Int.range e.1 e.2.1)).map index = policy)
    (hrace : K.RaceFree policy) (hnodup : policy.Nodup)
    (hvalid : ∀ e ∈ entries, (deviceAxis e).Fits) (o : LaunchOrder policy) {m m' : σ} :
    DeviceParallelForMD M K entries index m m' ↔
      m' = if Skipped entries then m else launch o (K.body M) m := by
  have hfits : ∀ a ∈ entries.map deviceAxis, a.Fits := by
    intro a ha
    obtain ⟨e, he, rfl⟩ := List.mem_map.1 ha
    exact hvalid e he
  have hone : ∀ {m'}, DeviceParallelForMD M K entries index m m' →
      m' = if Skipped entries then m else launch o (K.body M) m := by
    rintro m' ⟨maxblocks, work, hmax, hwork, hrun⟩
    split_ifs with hskip
    · -- without threads there are no steps
      rw [deviceThreads_eq_nil hskip] at hrun
      exact hrun.eq_of_nil
    · have hperm := (hwork.perm hfits hmax hskip).map index
      rw [List.map_map, List.map_flatMap] at hperm
      exact hrun.eq_launch hrace hnodup (nodup_deviceThreads _ _)
        (hperm.trans (List.Perm.of_eq hpolicy)) o
  refine ⟨hone, ?_⟩
  rintro rfl
  have hmax : (0 : ℤ) < 2 ^ 31 - 1 ∧ (2 ^ 31 - 1 : ℤ) < 2 ^ 32 := by norm_num
  obtain ⟨m', hrun⟩ := exists_runsTo (M := M) (K := K)
    (nodup_deviceThreads (2 ^ 31 - 1) (entries.map deviceAxis))
    (fun thread => (deviceCovers (2 ^ 31 - 1) .left (entries.map deviceAxis) thread).map index) m
  have h : DeviceParallelForMD M K entries index m m' :=
    ⟨_, _, hmax, exists_deviceWork hfits hmax .left, hrun⟩
  exact hone h ▸ h

end

section

variable {ι β σ : Type*}

/-- `parallel_for(MDRangePolicy<Rank<2>>(lo, hi, tile), functor)` on a device -/
def DeviceParallelFor2 (M : Storage σ (ℤ × ℤ) ι β) (K : Kernel (ℤ × ℤ) ι β) (lo hi tile : ℤ × ℤ)
    (m m' : σ) : Prop :=
  DeviceParallelForMD M K [(lo.1, hi.1, tile.1), (lo.2, hi.2, tile.2)] index2 m m'

/-- `parallel_for(MDRangePolicy<Rank<3>>(lo, hi, tile), functor)` on a device -/
def DeviceParallelFor3 (M : Storage σ (ℤ × ℤ × ℤ) ι β) (K : Kernel (ℤ × ℤ × ℤ) ι β)
    (lo hi tile : ℤ × ℤ × ℤ) (m m' : σ) : Prop :=
  DeviceParallelForMD M K [(lo.1, hi.1, tile.1), (lo.2.1, hi.2.1, tile.2.1),
    (lo.2.2, hi.2.2, tile.2.2)] index3 m m'

/-- Bounds along an axis that is cut into tiles of one index each. -/
theorem fits_deviceAxis {lower upper : ℤ} (h₀ : 0 ≤ lower) (hle : lower ≤ upper)
    (h : upper < 2 ^ 31) : (deviceAxis (lower, upper, 1)).Fits :=
  ⟨h₀, hle, h, one_pos, by norm_num [deviceAxis]⟩

theorem tileEnd_deviceAxis {lower upper : ℤ} (h₀ : 0 ≤ lower) (hle : lower ≤ upper)
    (h : upper < 2 ^ 31) : (deviceAxis (lower, upper, 1)).tileEnd = upper - lower := by
  rw [(fits_deviceAxis h₀ hle h).tileEnd_eq.1, deviceAxis, Int.ediv_one]
  exact Int.add_sub_cancel _ _

theorem deviceParallelFor2_iff {M : Storage σ (ℤ × ℤ) ι β} {K : Kernel (ℤ × ℤ) ι β}
    {lo hi : ℤ × ℤ} (hrace : K.RaceFree (mdRange2 lo hi))
    (h₁ : 0 ≤ lo.1 ∧ lo.1 ≤ hi.1 ∧ hi.1 < 2 ^ 31) (h₂ : 0 ≤ lo.2 ∧ lo.2 ≤ hi.2 ∧ hi.2 < 2 ^ 31)
    (o : LaunchOrder (mdRange2 lo hi)) {m r : σ} :
    DeviceParallelFor2 M K lo hi (1, 1) m r ↔
      r = if (2 ^ 32 : ℤ) ∣ (hi.1 - lo.1) * (hi.2 - lo.2) then m
        else launch o (K.body M) m := by
  have hfits : ∀ e ∈ [(lo.1, hi.1, (1 : ℤ)), (lo.2, hi.2, 1)], (deviceAxis e).Fits :=
    List.forall_mem_cons.2 ⟨fits_deviceAxis h₁.1 h₁.2.1 h₁.2.2,
      List.forall_mem_singleton.2 (fits_deviceAxis h₂.1 h₂.2.1 h₂.2.2)⟩
  have hskip : Skipped [(lo.1, hi.1, 1), (lo.2, hi.2, 1)] ↔
      (2 ^ 32 : ℤ) ∣ (hi.1 - lo.1) * (hi.2 - lo.2) := by
    simp only [Skipped, List.map_cons, List.map_nil, List.prod_cons, List.prod_nil, mul_one,
      tileEnd_deviceAxis h₁.1 h₁.2.1 h₁.2.2, tileEnd_deviceAxis h₂.1 h₂.2.1 h₂.2.2]
  refine (deviceParallelForMD_iff (map_index2_nest lo hi) hrace (nodup_mdRange2 _ _) hfits
    o).trans ?_
  simp only [hskip]

theorem deviceParallelFor3_iff {M : Storage σ (ℤ × ℤ × ℤ) ι β} {K : Kernel (ℤ × ℤ × ℤ) ι β}
    {lo hi : ℤ × ℤ × ℤ} (hrace : K.RaceFree (mdRange3 lo hi))
    (h₁ : 0 ≤ lo.1 ∧ lo.1 ≤ hi.1 ∧ hi.1 < 2 ^ 31)
    (h₂ : 0 ≤ lo.2.1 ∧ lo.2.1 ≤ hi.2.1 ∧ hi.2.1 < 2 ^ 31)
    (h₃ : 0 ≤ lo.2.2 ∧ lo.2.2 ≤ hi.2.2 ∧ hi.2.2 < 2 ^ 31)
    (o : LaunchOrder (mdRange3 lo hi)) {m r : σ} :
    DeviceParallelFor3 M K lo hi (1, 1, 1) m r ↔
      r = if (2 ^ 32 : ℤ) ∣ (hi.1 - lo.1) * ((hi.2.1 - lo.2.1) * (hi.2.2 - lo.2.2)) then m
        else launch o (K.body M) m := by
  have hfits : ∀ e ∈ [(lo.1, hi.1, (1 : ℤ)), (lo.2.1, hi.2.1, 1), (lo.2.2, hi.2.2, 1)],
      (deviceAxis e).Fits :=
    List.forall_mem_cons.2 ⟨fits_deviceAxis h₁.1 h₁.2.1 h₁.2.2,
      List.forall_mem_cons.2 ⟨fits_deviceAxis h₂.1 h₂.2.1 h₂.2.2,
        List.forall_mem_singleton.2 (fits_deviceAxis h₃.1 h₃.2.1 h₃.2.2)⟩⟩
  have hskip : Skipped [(lo.1, hi.1, 1), (lo.2.1, hi.2.1, 1), (lo.2.2, hi.2.2, 1)] ↔
      (2 ^ 32 : ℤ) ∣ (hi.1 - lo.1) * ((hi.2.1 - lo.2.1) * (hi.2.2 - lo.2.2)) := by
    simp only [Skipped, List.map_cons, List.map_nil, List.prod_cons, List.prod_nil, mul_one,
      tileEnd_deviceAxis h₁.1 h₁.2.1 h₁.2.2, tileEnd_deviceAxis h₂.1 h₂.2.1 h₂.2.2,
      tileEnd_deviceAxis h₃.1 h₃.2.1 h₃.2.2]
  refine (deviceParallelForMD_iff (map_index3_nest lo hi) hrace (nodup_mdRange3 _ _) hfits
    o).trans ?_
  simp only [hskip]

/-! ### Ranges -/

/-- `parallel_for(RangePolicy<>(first, last), functor)` on a device, whose blocks have at most
`2 ^ 10` threads, may turn `m` into `m'`. -/
def DeviceParallelForRange (M : Storage σ ℤ ι β) (K : Kernel ℤ ι β) (first last : ℤ) (m m' : σ) :
    Prop :=
  ∃ (maxGrid blockSize : ℤ) (work : ℤ × ℤ → List ℤ), 0 < maxGrid ∧
    (0 < blockSize ∧ blockSize ≤ 2 ^ 10) ∧
    RangeWork maxGrid blockSize (mkDeviceRange first last) work ∧
    RunsTo M K (rangeThreads maxGrid blockSize (mkDeviceRange first last)) work m m'

/-- The policy has the indices from `first` to `last`, and none if they are the wrong way round. -/
theorem mkDeviceRange_eq {first last : ℤ} (h₀ : 0 ≤ first ∧ 0 ≤ last)
    (h : first < 2 ^ 30 ∧ last < 2 ^ 30) : ∃ b e : ℤ, mkDeviceRange first last = (b, e) ∧
      (0 ≤ b ∧ b ≤ e ∧ e < 2 ^ 30) ∧ Int.range b e = Int.range first last := by
  have hfirst : toUnsigned first = first := toUnsigned_of_lt h₀.1 (by omega)
  have hlast : toUnsigned last = last := toUnsigned_of_lt h₀.2 (by omega)
  simp only [mkDeviceRange, hfirst, hlast]
  by_cases hlt : first < last
  · exact ⟨first, last, by simp only [if_pos hlt], by omega, rfl⟩
  · refine ⟨0, 0, by simp only [if_neg hlt], by norm_num, ?_⟩
    rw [Tiling.range_eq_nil (not_lt.1 hlt), Tiling.range_eq_nil le_rfl]

/-- **A launch over a range has one result**, that of a `launch` in any order. -/
theorem deviceParallelForRange_iff {M : Storage σ ℤ ι β} {K : Kernel ℤ ι β} {first last : ℤ}
    (hrace : K.RaceFree (Int.range first last)) (h₀ : 0 ≤ first ∧ 0 ≤ last)
    (h : first < 2 ^ 30 ∧ last < 2 ^ 30) (o : LaunchOrder (Int.range first last)) {m m' : σ} :
    DeviceParallelForRange M K first last m m' ↔ m' = launch o (K.body M) m := by
  obtain ⟨b, e, hpolicy, ⟨hb, hbe, he⟩, hrange⟩ := mkDeviceRange_eq h₀ h
  have hone : ∀ {m'}, DeviceParallelForRange M K first last m m' →
      m' = launch o (K.body M) m := by
    rintro m' ⟨maxGrid, blockSize, work, hmax, ⟨hpos, hle⟩, hwork, hrun⟩
    rw [hpolicy] at hwork hrun
    have hfits : RangeFits maxGrid blockSize b e := ⟨hb, hbe, he, hpos, hle, hmax⟩
    have hperm := hfits.perm hwork
    rw [hrange] at hperm
    exact hrun.eq_launch hrace (nodup_range _ _) (Strided.nodup_places _ _) hperm o
  refine ⟨hone, ?_⟩
  rintro rfl
  have hfits : RangeFits 1 1 b e := ⟨hb, hbe, he, one_pos, by norm_num, one_pos⟩
  obtain ⟨m', hrun⟩ := exists_runsTo (M := M) (K := K)
    (Strided.nodup_places (rangeGrid 1 1 (b, e)) 1) (rangeCovers 1 1 (b, e)) m
  have h : DeviceParallelForRange M K first last m m' := by
    refine ⟨1, 1, rangeCovers 1 1 (b, e), one_pos, ⟨one_pos, by norm_num⟩, ?_⟩
    rw [hpolicy]
    exact ⟨hfits.exists_rangeWork, hrun⟩
  exact hone h ▸ h

end

end Kokkos

end KokkosStencil
