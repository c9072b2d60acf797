import KokkosStencil.Kokkos.MDRangePolicy
import KokkosStencil.Run.Strided
import Mathlib.Algebra.BigOperators.Ring.List

/-!
# `KokkosExp_IterateTileGPU.hpp` and `Kokkos_Cuda_Parallel.hpp`

What the threads of a device visit, with `index_type = unsigned int`.  A thread is given by its
block and its place in the block, along every axis.

* `DeviceAxis.flatMap_covers_perm` : along one axis the threads visit every index once, with any
  tile size and any limit on the number of blocks;
* `DeviceWork.perm` : so they do for a policy, unless the launch is skipped;
* `deviceThreads_eq_nil` : a launch is skipped when the number of its tiles is a multiple of
  `2 ^ 32`, whose conversion to `index_type` is `0`;
* `RangeFits.perm` : the threads of a launch over a range visit every index once;
* `deviceMDRange_sharedOut`, `deviceRange_sharedOut` : no index is lost and none is worked on twice.
-/

namespace KokkosStencil

namespace Kokkos

open Strided

/-- The conversion to `index_type = unsigned int`. -/
def toUnsigned (n : ℤ) : ℤ := n % 2 ^ 32

theorem toUnsigned_of_lt {n : ℤ} (h₀ : 0 ≤ n) (h : n < 2 ^ 32) : toUnsigned n = n :=
  Int.emod_eq_of_lt h₀ h

/-! ### Multidimensional policies -/

/-- One axis of a policy: `m_lower[i]`, `m_upper[i]` and `m_tile[i]`. -/
structure DeviceAxis where
  /-- `m_lower[i]` -/
  lower : ℤ
  /-- `m_upper[i]` -/
  upper : ℤ
  /-- `m_tile[i]` -/
  tile : ℤ

namespace DeviceAxis

/-- `m_tile_end[i]` -/
def tileEnd (a : DeviceAxis) : ℤ :=
  toUnsigned ((toUnsigned (a.upper - a.lower) + a.tile - 1) / a.tile)

/-- `blockDim` -/
def blockDim (a : DeviceAxis) : ℤ := toUnsigned a.tile

/-- `gridDim` -/
def gridDim (maxblocks : ℤ) (a : DeviceAxis) : ℤ :=
  toUnsigned (min ((a.upper - a.lower + a.blockDim - 1) / a.blockDim) maxblocks)

/-- `offset` -/
def offset (a : DeviceAxis) (threadIdx tileId : ℤ) : ℤ :=
  toUnsigned (tileId * a.tile + threadIdx + toUnsigned a.lower)

/-- The loop over the tiles of the axis: the offsets that pass its test.  The place is `blockIdx`
and `threadIdx`. -/
def offsets (fuel : ℕ) (maxblocks : ℤ) (a : DeviceAxis) (place : ℤ × ℤ) : Option (List ℤ) :=
  let (blockIdx, threadIdx) := place
  (countLoop (fun tileId => toUnsigned (tileId + a.gridDim maxblocks)) a.tileEnd fuel blockIdx).map
    fun tileIds => (tileIds.map (a.offset threadIdx)).filter fun offset =>
      offset < a.upper ∧ threadIdx < a.tile

end DeviceAxis

/-- The loops over the tiles of all axes, the one over the first axis outermost. -/
def deviceLoop (fuel : ℕ) (maxblocks : ℤ) : List (DeviceAxis × ℤ × ℤ) → Option (List (List ℤ))
  | [] => some [[]]
  | (a, place) :: rest => do
    let offsets ← a.offsets fuel maxblocks place
    let visits ← offsets.mapM fun offset =>
      (deviceLoop fuel maxblocks rest).map (·.map (offset :: ·))
    return visits.flatten

/-- `DeviceIterateTile<N>::exec_range()`, for `N ≤ 3`: the indices that a thread calls the functor
with. -/
def deviceExecRange (fuel : ℕ) (maxblocks : ℤ) (inner : Iterate) (axes : List DeviceAxis)
    (thread : List (ℤ × ℤ)) : Option (List (List ℤ)) :=
  match inner with
  | .right => deviceLoop fuel maxblocks (axes.zip thread)
  | .left => (deviceLoop fuel maxblocks (axes.zip thread).reverse).map (·.map List.reverse)

/-- `m_num_tiles` -/
def deviceNumTiles (axes : List DeviceAxis) : ℤ :=
  axes.foldl (fun n a => toUnsigned (n * a.tileEnd)) 1

/-- The threads that `execute()` launches: none if there are no tiles. -/
def deviceThreads (maxblocks : ℤ) (axes : List DeviceAxis) : List (List (ℤ × ℤ)) :=
  if deviceNumTiles axes = 0 then []
  else Tiling.nest (axes.map fun a =>
    Int.range 0 (a.gridDim maxblocks) ×ˢ Int.range 0 a.blockDim)

/-- The threads of a launch end, given enough rounds, and call the functor with the indices
`work`. -/
def DeviceWork (maxblocks : ℤ) (inner : Iterate) (axes : List DeviceAxis)
    (work : List (ℤ × ℤ) → List (List ℤ)) : Prop :=
  ∃ rounds, ∀ fuel ≥ rounds, ∀ thread ∈ deviceThreads maxblocks axes,
    deviceExecRange fuel maxblocks inner axes thread = some (work thread)

/-! ### One axis -/

namespace DeviceAxis

/-- Bounds that an `int` can hold, and a tile with a size. -/
structure Fits (a : DeviceAxis) : Prop where
  lower_nonneg : 0 ≤ a.lower
  lower_le : a.lower ≤ a.upper
  upper_lt : a.upper < 2 ^ 31
  tile_pos : 0 < a.tile
  tile_lt : a.tile < 2 ^ 31

variable {a : DeviceAxis} {maxblocks : ℤ}

/-- What a thread visits along the axis. -/
def covers (maxblocks : ℤ) (a : DeviceAxis) (place : ℤ × ℤ) : List ℤ :=
  ((strided place.1 a.tileEnd (a.gridDim maxblocks)).map fun q =>
    q * a.tile + place.2 + a.lower).filter (· < a.upper)

namespace Fits

theorem blockDim_eq (h : a.Fits) : a.blockDim = a.tile := by
  have := h.tile_pos
  have := h.tile_lt
  exact toUnsigned_of_lt (by omega) (by omega)

theorem tileEnd_eq (h : a.Fits) : a.tileEnd = (a.upper - a.lower + a.tile - 1) / a.tile ∧
    0 ≤ a.tileEnd ∧ a.tileEnd < 2 ^ 31 := by
  obtain ⟨hlo, hle, hup, hpos, htile⟩ := h
  have hlen : toUnsigned (a.upper - a.lower) = a.upper - a.lower :=
    toUnsigned_of_lt (by omega) (by omega)
  have hnonneg : 0 ≤ (a.upper - a.lower + a.tile - 1) / a.tile :=
    Int.ediv_nonneg (by omega) hpos.le
  have hlt : (a.upper - a.lower + a.tile - 1) / a.tile < 2 ^ 31 := by
    refine Int.ediv_lt_of_lt_mul hpos ?_
    have : (a.upper - a.lower) * 1 ≤ (a.upper - a.lower) * a.tile :=
      Int.mul_le_mul_of_nonneg_left hpos (by omega)
    have : (2 ^ 31 - (a.upper - a.lower)) * 1 ≤ (2 ^ 31 - (a.upper - a.lower)) * a.tile :=
      Int.mul_le_mul_of_nonneg_left hpos (by omega)
    linarith
  rw [tileEnd, hlen, toUnsigned_of_lt hnonneg (by omega)]
  exact ⟨rfl, hnonneg, hlt⟩

/-- The tiles are those that start below the upper bound. -/
theorem lt_tileEnd_iff (h : a.Fits) (q : ℤ) : q < a.tileEnd ↔ q * a.tile + a.lower < a.upper := by
  rw [h.tileEnd_eq.1, ← Int.add_one_le_iff, Int.le_ediv_iff_mul_le h.tile_pos, Int.add_mul,
    Int.one_mul]
  omega

theorem gridDim_eq (h : a.Fits) (hmax : 0 < maxblocks ∧ maxblocks < 2 ^ 32) :
    a.gridDim maxblocks = min a.tileEnd maxblocks := by
  obtain ⟨heq, hnonneg, hlt⟩ := h.tileEnd_eq
  rw [gridDim, h.blockDim_eq, ← heq]
  exact toUnsigned_of_lt (by omega) (by omega)

/-- **The loop of a thread** ends, and its counter and its offsets do not wrap around. -/
theorem offsets_eq (h : a.Fits) (hmax : 0 < maxblocks ∧ maxblocks < 2 ^ 32) {fuel : ℕ}
    (hfuel : 2 ^ 31 ≤ fuel) {place : ℤ × ℤ}
    (hplace : place ∈ Int.range 0 (a.gridDim maxblocks) ×ˢ Int.range 0 a.blockDim) :
    a.offsets fuel maxblocks place = some (a.covers maxblocks place) := by
  obtain ⟨b, t⟩ := place
  rw [List.mem_product, Int.mem_range_iff, Int.mem_range_iff, h.blockDim_eq] at hplace
  obtain ⟨⟨hb₀, hb₁⟩, ht₀, ht₁⟩ := hplace
  obtain ⟨-, hend₀, hend₁⟩ := h.tileEnd_eq
  have hgrid := h.gridDim_eq hmax
  have hloop : countLoop (fun tileId => toUnsigned (tileId + a.gridDim maxblocks)) a.tileEnd
      fuel b = some (strided b a.tileEnd (a.gridDim maxblocks)) := by
    refine countLoop_eq (by omega) (by omega) fun i hi₀ hi₁ => Or.inl ?_
    exact toUnsigned_of_lt (by omega) (by omega)
  have hoffset : ∀ q ∈ strided b a.tileEnd (a.gridDim maxblocks),
      a.offset t q = q * a.tile + t + a.lower := by
    intro q hq
    obtain ⟨⟨hq₀, hq₁⟩, -⟩ := mem_strided.1 hq
    have hlt := (h.lt_tileEnd_iff q).1 hq₁
    have hmul : 0 ≤ q * a.tile := mul_nonneg (by omega) h.tile_pos.le
    have hlo := h.lower_nonneg
    have hup := h.upper_lt
    have htile := h.tile_lt
    rw [offset, toUnsigned_of_lt (n := a.lower) (by omega) (by omega)]
    exact toUnsigned_of_lt (by omega) (by omega)
  simp only [offsets, hloop, Option.map_some, List.map_congr_left hoffset, covers, ht₁, and_true]

/-- A thread visits the indices of its own. -/
theorem mem_covers (h : a.Fits) (hmax : 0 < maxblocks ∧ maxblocks < 2 ^ 32) {place : ℤ × ℤ}
    (hplace : place ∈ Int.range 0 (a.gridDim maxblocks) ×ˢ Int.range 0 a.blockDim) (x : ℤ) :
    x ∈ a.covers maxblocks place ↔ x ∈ Int.range a.lower a.upper ∧
      Strided.place a.tile (a.gridDim maxblocks) (x - a.lower) = place := by
  obtain ⟨b, t⟩ := place
  rw [List.mem_product, Int.mem_range_iff, Int.mem_range_iff, h.blockDim_eq] at hplace
  obtain ⟨⟨hb₀, hb₁⟩, ht₀, ht₁⟩ := hplace
  have hpos := h.tile_pos
  have hlo := h.lower_nonneg
  have hgrid := h.gridDim_eq hmax
  simp only [covers, List.mem_filter, List.mem_map, mem_strided, decide_eq_true_eq,
    Int.mem_range_iff, Strided.place, Prod.mk.injEq]
  constructor
  · rintro ⟨⟨q, ⟨⟨hq₀, hq₁⟩, hq⟩, rfl⟩, hlt⟩
    have hmul : 0 ≤ q * a.tile := mul_nonneg (by omega) hpos.le
    have hquot : (q * a.tile + t + a.lower - a.lower) / a.tile = q := by
      rw [Int.add_sub_cancel, Int.add_comm, Int.add_mul_ediv_right _ _ hpos.ne',
        Int.ediv_eq_zero_of_lt ht₀ ht₁, Int.zero_add]
    have hrem : (q * a.tile + t + a.lower - a.lower) % a.tile = t := by
      rw [Int.add_sub_cancel, Int.add_comm, Int.add_mul_emod_self_right, Int.emod_eq_of_lt ht₀ ht₁]
    refine ⟨⟨by omega, hlt⟩, ?_, hrem⟩
    rw [hquot, Int.emod_eq_emod_iff_emod_sub_eq_zero.2 hq, Int.emod_eq_of_lt hb₀ hb₁]
  · rintro ⟨⟨hx₀, hx₁⟩, hquot, hrem⟩
    have hx := Int.mul_ediv_add_emod (x - a.lower) a.tile
    rw [hrem, Int.mul_comm] at hx
    have hq₀ : 0 ≤ (x - a.lower) / a.tile := Int.ediv_nonneg (by omega) hpos.le
    refine ⟨⟨(x - a.lower) / a.tile, ⟨⟨?_, (h.lt_tileEnd_iff _).2 (by omega)⟩, ?_⟩, by omega⟩, hx₁⟩
    · -- the block is the remainder of the tile
      rw [← hquot]
      exact emod_le (by omega) hq₀
    · rw [← Int.emod_eq_emod_iff_emod_sub_eq_zero, hquot, Int.emod_eq_of_lt hb₀ hb₁]

/-- **Along an axis the threads visit every index once.** -/
theorem flatMap_covers_perm (h : a.Fits) (hmax : 0 < maxblocks ∧ maxblocks < 2 ^ 32) :
    ((Int.range 0 (a.gridDim maxblocks) ×ˢ Int.range 0 a.blockDim).flatMap
      (a.covers maxblocks)).Perm (Int.range a.lower a.upper) := by
  have hgrid := h.gridDim_eq hmax
  refine flatMap_perm_of_owner (fun x => Strided.place a.tile (a.gridDim maxblocks) (x - a.lower))
    (nodup_places _ _) (nodup_range _ _) (fun place _ => ?_) (fun x hx => ?_)
    fun place hplace x => h.mem_covers hmax hplace x
  · refine (List.Nodup.map ?_ nodup_strided).filter _
    intro q q' hq
    have hmul : q * a.tile = q' * a.tile := by
      dsimp only at hq
      omega
    exact mul_right_cancel₀ h.tile_pos.ne' hmul
  · obtain ⟨hx₀, hx₁⟩ := Int.mem_range_iff.1 hx
    have hend : 0 < a.tileEnd := (h.lt_tileEnd_iff 0).2 (by omega)
    rw [h.blockDim_eq]
    exact place_mem h.tile_pos (by omega) _

end Fits

end DeviceAxis

/-! ### All axes -/

variable {maxblocks : ℤ} {axes : List DeviceAxis}

theorem deviceLoop_eq {fuel : ℕ} {xs : List (DeviceAxis × ℤ × ℤ)}
    (h : ∀ x ∈ xs, x.1.offsets fuel maxblocks x.2 = some (x.1.covers maxblocks x.2)) :
    deviceLoop fuel maxblocks xs =
      some (Tiling.nest (xs.map fun x => x.1.covers maxblocks x.2)) := by
  induction xs with
  | nil => rfl
  | cons x xs ih =>
    obtain ⟨hx, hxs⟩ := List.forall_mem_cons.1 h
    obtain ⟨a, place⟩ := x
    have hvisits : ∀ offsets : List ℤ, (offsets.mapM fun offset =>
        (deviceLoop fuel maxblocks xs).map (·.map (offset :: ·))) =
          some (offsets.map fun offset =>
            (Tiling.nest (xs.map fun x => x.1.covers maxblocks x.2)).map (offset :: ·)) := by
      intro offsets
      rw [ih hxs]
      exact List.mapM_pure
    rw [deviceLoop, hx, List.map_cons, Tiling.nest_cons]
    simp only [Option.bind_eq_bind, Option.bind_some, hvisits]
    rfl

/-- What a thread visits. -/
def deviceCovers (maxblocks : ℤ) (inner : Iterate) (axes : List DeviceAxis)
    (thread : List (ℤ × ℤ)) : List (List ℤ) :=
  let nest := fun xs : List (DeviceAxis × ℤ × ℤ) =>
    Tiling.nest (xs.map fun x => x.1.covers maxblocks x.2)
  match inner with
  | .right => nest (axes.zip thread)
  | .left => (nest (axes.zip thread).reverse).map List.reverse

/-- The threads of a launch that is not skipped. -/
def devicePlaces (maxblocks : ℤ) (axes : List DeviceAxis) : List (List (ℤ × ℤ)) :=
  Tiling.nest (axes.map fun a => Int.range 0 (a.gridDim maxblocks) ×ˢ Int.range 0 a.blockDim)

/-- **The threads end**, given enough rounds. -/
theorem deviceExecRange_eq (h : ∀ a ∈ axes, a.Fits) (hmax : 0 < maxblocks ∧ maxblocks < 2 ^ 32)
    {fuel : ℕ} (hfuel : 2 ^ 31 ≤ fuel) (inner : Iterate) {thread : List (ℤ × ℤ)}
    (hthread : thread ∈ devicePlaces maxblocks axes) :
    deviceExecRange fuel maxblocks inner axes thread =
      some (deviceCovers maxblocks inner axes thread) := by
  have hplaces : List.Forall₂ (fun place a =>
      place ∈ Int.range 0 (a.gridDim maxblocks) ×ˢ Int.range 0 a.blockDim) thread axes :=
    List.forall₂_map_right_iff.1 (Tiling.mem_nest.1 hthread)
  have hoffsets : ∀ x ∈ axes.zip thread,
      x.1.offsets fuel maxblocks x.2 = some (x.1.covers maxblocks x.2) := by
    intro x hx
    exact (h x.1 (List.of_mem_zip hx).1).offsets_eq hmax hfuel
      (List.forall₂_zip hplaces.flip hx)
  cases inner with
  | right => exact deviceLoop_eq hoffsets
  | left =>
    have hreverse := deviceLoop_eq fun x hx => hoffsets x (List.mem_reverse.1 hx)
    exact congrArg (Option.map (List.map List.reverse)) hreverse

theorem deviceCovers_perm (inner : Iterate) (thread : List (ℤ × ℤ)) :
    (deviceCovers maxblocks inner axes thread).Perm
      (Tiling.nest (List.zipWith (DeviceAxis.covers maxblocks) axes thread)) := by
  have hzip : (axes.zip thread).map (fun x => x.1.covers maxblocks x.2) =
      List.zipWith (DeviceAxis.covers maxblocks) axes thread := by
    rw [List.zip, List.map_zipWith]
  cases inner with
  | right => exact List.Perm.of_eq (congrArg Tiling.nest hzip)
  | left =>
    have hreverse := Tiling.map_reverse_nest_perm
      (List.zipWith (DeviceAxis.covers maxblocks) axes thread)
    rw [← hzip, ← List.map_reverse] at hreverse
    rw [← hzip]
    exact hreverse

/-- The threads of a launch that is not skipped visit every index of the policy once. -/
theorem flatMap_deviceCovers_perm (h : ∀ a ∈ axes, a.Fits)
    (hmax : 0 < maxblocks ∧ maxblocks < 2 ^ 32) (inner : Iterate) :
    ((devicePlaces maxblocks axes).flatMap (deviceCovers maxblocks inner axes)).Perm
      (Tiling.nest (axes.map fun a => Int.range a.lower a.upper)) := by
  have hrange : List.Forall₂ List.Perm
      (axes.map fun a => (Int.range 0 (a.gridDim maxblocks) ×ˢ Int.range 0 a.blockDim).flatMap
        (a.covers maxblocks))
      (axes.map fun a => Int.range a.lower a.upper) := by
    refine List.forall₂_map_left_iff.2 (List.forall₂_map_right_iff.2 ?_)
    exact List.forall₂_same.2 fun a ha => (h a ha).flatMap_covers_perm hmax
  refine (List.Perm.flatMap_left _ fun thread _ => deviceCovers_perm inner thread).trans ?_
  exact (Tiling.nest_tiles_perm _ _ axes).trans (Tiling.nest_perm hrange)

theorem nodup_deviceThreads (maxblocks : ℤ) (axes : List DeviceAxis) :
    (deviceThreads maxblocks axes).Nodup := by
  rw [deviceThreads]
  split_ifs
  · exact List.nodup_nil
  · refine Tiling.nodup_nest fun xs hxs => ?_
    obtain ⟨a, -, rfl⟩ := List.mem_map.1 hxs
    exact nodup_places _ _

theorem deviceNumTiles_eq (axes : List DeviceAxis) :
    deviceNumTiles axes = toUnsigned (axes.map DeviceAxis.tileEnd).prod := by
  have hfold : ∀ n, axes.foldl (fun n a => toUnsigned (n * a.tileEnd)) (toUnsigned n) =
      toUnsigned (n * (axes.map DeviceAxis.tileEnd).prod) := by
    induction axes with
    | nil => simp
    | cons a axes ih =>
      intro n
      have hmod : toUnsigned (toUnsigned n * a.tileEnd) = toUnsigned (n * a.tileEnd) := by
        rw [toUnsigned, toUnsigned, toUnsigned, Int.mul_emod, Int.emod_emod, ← Int.mul_emod]
      rw [List.foldl_cons, hmod, ih, List.map_cons, List.prod_cons, Int.mul_assoc]
  have h := hfold 1
  rwa [Int.one_mul] at h

/-- A launch is skipped when the number of tiles is a multiple of `2 ^ 32`, even if the policy has
indices. -/
theorem deviceThreads_eq_nil (h : (2 ^ 32 : ℤ) ∣ (axes.map DeviceAxis.tileEnd).prod) :
    deviceThreads maxblocks axes = [] := by
  have hzero : deviceNumTiles axes = 0 := by
    rw [deviceNumTiles_eq]
    exact Int.emod_eq_zero_of_dvd h
  rw [deviceThreads, if_pos hzero]

/-- A launch that is not skipped has the threads of `devicePlaces`. -/
theorem mem_devicePlaces {thread : List (ℤ × ℤ)} (h : thread ∈ deviceThreads maxblocks axes) :
    thread ∈ devicePlaces maxblocks axes := by
  rw [deviceThreads] at h
  split_ifs at h
  · cases h
  · exact h

/-- The threads end. -/
theorem exists_deviceWork (h : ∀ a ∈ axes, a.Fits) (hmax : 0 < maxblocks ∧ maxblocks < 2 ^ 32)
    (inner : Iterate) : DeviceWork maxblocks inner axes (deviceCovers maxblocks inner axes) :=
  ⟨2 ^ 31, fun _ hfuel _ hthread =>
    deviceExecRange_eq h hmax hfuel inner (mem_devicePlaces hthread)⟩

/-- **A launch that is not skipped visits every index of the policy once.** -/
theorem DeviceWork.perm (h : ∀ a ∈ axes, a.Fits) (hmax : 0 < maxblocks ∧ maxblocks < 2 ^ 32)
    (hcount : ¬ (2 ^ 32 : ℤ) ∣ (axes.map DeviceAxis.tileEnd).prod) {inner : Iterate}
    {work : List (ℤ × ℤ) → List (List ℤ)} (hwork : DeviceWork maxblocks inner axes work) :
    ((deviceThreads maxblocks axes).flatMap work).Perm
      (Tiling.nest (axes.map fun a => Int.range a.lower a.upper)) := by
  obtain ⟨rounds, hrounds⟩ := hwork
  have heq : ∀ thread ∈ deviceThreads maxblocks axes,
      work thread = deviceCovers maxblocks inner axes thread := by
    intro thread hthread
    have hsome := hrounds (max rounds (2 ^ 31)) (le_max_left _ _) thread hthread
    rw [deviceExecRange_eq h hmax (le_max_right _ _) inner (mem_devicePlaces hthread)] at hsome
    exact (Option.some.inj hsome).symm
  have hne : deviceNumTiles axes ≠ 0 := by
    rw [deviceNumTiles_eq]
    exact fun hzero => hcount (Int.dvd_of_emod_eq_zero hzero)
  rw [List.flatMap_congr heq, deviceThreads, if_neg hne]
  exact flatMap_deviceCovers_perm h hmax inner

/-- A `RangePolicy` with `index_type = unsigned int`: `m_begin` and `m_end`. -/
def mkDeviceRange (workBegin workEnd : ℤ) : ℤ × ℤ :=
  let workBegin := toUnsigned workBegin
  let workEnd := toUnsigned workEnd
  (if workBegin < workEnd then workBegin else 0, if workBegin < workEnd then workEnd else 0)

/-- `grid.x` of `execute()`, for blocks of `blockSize` threads -/
def rangeGrid (maxGrid blockSize : ℤ) (policy : ℤ × ℤ) : ℤ :=
  let nwork := toUnsigned (policy.2 - policy.1)
  min (toUnsigned (nwork + blockSize - 1) / blockSize) maxGrid

/-- The threads that `execute()` launches: a place is `blockIdx.x` and `threadIdx.y`. -/
def rangeThreads (maxGrid blockSize : ℤ) (policy : ℤ × ℤ) : List (ℤ × ℤ) :=
  Int.range 0 (rangeGrid maxGrid blockSize policy) ×ˢ Int.range 0 blockSize

/-- `operator()` of a thread: the indices that it calls the functor with. -/
def rangeLoop (fuel : ℕ) (maxGrid blockSize : ℤ) (policy place : ℤ × ℤ) : Option (List ℤ) :=
  let workStride := toUnsigned (blockSize * rangeGrid maxGrid blockSize policy)
  let workEnd := policy.2
  countLoop
    (fun iwork => if iwork < toUnsigned (workEnd - workStride) then toUnsigned (iwork + workStride)
      else workEnd)
    workEnd fuel (toUnsigned (policy.1 + place.2 + blockSize * place.1))

/-- The threads of a launch end, given enough rounds, and call the functor with the indices
`work`. -/
def RangeWork (maxGrid blockSize : ℤ) (policy : ℤ × ℤ) (work : ℤ × ℤ → List ℤ) : Prop :=
  ∃ rounds, ∀ fuel ≥ rounds, ∀ place ∈ rangeThreads maxGrid blockSize policy,
    rangeLoop fuel maxGrid blockSize policy place = some (work place)

/-- What a thread visits. -/
def rangeCovers (maxGrid blockSize : ℤ) (policy place : ℤ × ℤ) : List ℤ :=
  strided (policy.1 + (place.2 + blockSize * place.1)) policy.2
    (blockSize * rangeGrid maxGrid blockSize policy)

/-- Ranges and blocks for which no counter wraps around. -/
structure RangeFits (maxGrid blockSize first last : ℤ) : Prop where
  first_nonneg : 0 ≤ first
  first_le : first ≤ last
  last_lt : last < 2 ^ 30
  blockSize_pos : 0 < blockSize
  blockSize_le : blockSize ≤ 2 ^ 10
  maxGrid_pos : 0 < maxGrid

namespace RangeFits

variable {maxGrid blockSize first last : ℤ}

theorem grid_bounds (h : RangeFits maxGrid blockSize first last) :
    0 ≤ rangeGrid maxGrid blockSize (first, last) ∧
      (first < last → 0 < rangeGrid maxGrid blockSize (first, last)) ∧
      blockSize * rangeGrid maxGrid blockSize (first, last) < last - first + blockSize := by
  obtain ⟨hfirst, hle, hlast, hpos, hblock, hmax⟩ := h
  have hwork : toUnsigned (last - first) = last - first := toUnsigned_of_lt (by omega) (by omega)
  have hsum : toUnsigned (last - first + blockSize - 1) = last - first + blockSize - 1 :=
    toUnsigned_of_lt (by omega) (by omega)
  simp only [rangeGrid, hwork, hsum]
  have hnonneg : 0 ≤ (last - first + blockSize - 1) / blockSize :=
    Int.ediv_nonneg (by omega) hpos.le
  refine ⟨by omega, fun hlt => ?_, ?_⟩
  · have hone : 1 ≤ (last - first + blockSize - 1) / blockSize :=
      (Int.le_ediv_iff_mul_le hpos).2 (by omega)
    omega
  · have hmul : blockSize * min ((last - first + blockSize - 1) / blockSize) maxGrid ≤
        blockSize * ((last - first + blockSize - 1) / blockSize) :=
      Int.mul_le_mul_of_nonneg_left (min_le_left _ _) hpos.le
    have hdiv := Int.mul_ediv_self_le (x := last - first + blockSize - 1) hpos.ne'
    omega

/-- **The loop of a thread** ends, although the test of its counter may wrap around. -/
theorem rangeLoop_eq (h : RangeFits maxGrid blockSize first last) {fuel : ℕ}
    (hfuel : 2 ^ 30 ≤ fuel) {place : ℤ × ℤ}
    (hplace : place ∈ rangeThreads maxGrid blockSize (first, last)) :
    rangeLoop fuel maxGrid blockSize (first, last) place =
      some (rangeCovers maxGrid blockSize (first, last) place) := by
  obtain ⟨b, t⟩ := place
  rw [rangeThreads, List.mem_product, Int.mem_range_iff, Int.mem_range_iff] at hplace
  obtain ⟨⟨hb₀, hb₁⟩, ht₀, ht₁⟩ := hplace
  obtain ⟨hgrid, -, hstride⟩ := h.grid_bounds
  obtain ⟨hfirst, hle, hlast, hpos, hblock, -⟩ := h
  simp only [rangeLoop, rangeCovers]
  generalize rangeGrid maxGrid blockSize (first, last) = grid at hb₁ hgrid hstride
  have hstep : 0 < blockSize * grid := mul_pos hpos (by omega)
  have hblocks : 0 ≤ blockSize * b := mul_nonneg hpos.le hb₀
  have hblocks' : blockSize * b ≤ blockSize * grid := Int.mul_le_mul_of_nonneg_left hb₁.le hpos.le
  have hstart : toUnsigned (first + t + blockSize * b) = first + (t + blockSize * b) := by
    rw [toUnsigned_of_lt (by omega) (by omega), Int.add_assoc]
  have hwork : toUnsigned (blockSize * grid) = blockSize * grid :=
    toUnsigned_of_lt hstep.le (by omega)
  rw [hstart, hwork]
  refine countLoop_eq hstep (by omega) fun i hi₀ hi₁ => ?_
  have hnext : toUnsigned (i + blockSize * grid) = i + blockSize * grid :=
    toUnsigned_of_lt (by omega) (by omega)
  rcases le_or_gt (blockSize * grid) last with hshort | hlong
  · rw [toUnsigned_of_lt (n := last - blockSize * grid) (by omega) (by omega), hnext]
    split_ifs
    · exact Or.inl rfl
    · exact Or.inr ⟨le_rfl, by omega⟩
  · -- the difference wraps around, and the counter leaves the range by itself
    have hwrap : toUnsigned (last - blockSize * grid) = last - blockSize * grid + 2 ^ 32 := by
      rw [toUnsigned, ← Int.add_emod_right]
      exact Int.emod_eq_of_lt (by omega) (by omega)
    rw [hwrap, if_pos (by omega), hnext]
    exact Or.inl rfl

theorem mem_rangeCovers (h : RangeFits maxGrid blockSize first last) {place : ℤ × ℤ}
    (hplace : place ∈ rangeThreads maxGrid blockSize (first, last)) (x : ℤ) :
    x ∈ rangeCovers maxGrid blockSize (first, last) place ↔ x ∈ Int.range first last ∧
      Strided.place blockSize (rangeGrid maxGrid blockSize (first, last)) (x - first) = place := by
  obtain ⟨b, t⟩ := place
  rw [rangeThreads, List.mem_product, Int.mem_range_iff, Int.mem_range_iff] at hplace
  obtain ⟨hb, ht⟩ := hplace
  have hpos := h.blockSize_pos
  have hblocks : 0 ≤ blockSize * b := mul_nonneg hpos.le hb.1
  rw [rangeCovers, mem_strided, Int.mem_range_iff, place_eq_iff hpos hb ht, Int.sub_sub]
  dsimp only
  constructor
  · rintro ⟨⟨hx₀, hx₁⟩, hmod⟩
    exact ⟨⟨by omega, hx₁⟩, hmod⟩
  · rintro ⟨⟨hx₀, hx₁⟩, hmod⟩
    have howner := (place_eq_iff hpos hb ht).2 (Int.sub_sub x first _ ▸ hmod)
    have hle := le_of_place hpos (by omega) (by omega) howner
    exact ⟨⟨by omega, hx₁⟩, hmod⟩

/-- The threads end. -/
theorem exists_rangeWork (h : RangeFits maxGrid blockSize first last) :
    RangeWork maxGrid blockSize (first, last) (rangeCovers maxGrid blockSize (first, last)) :=
  ⟨2 ^ 30, fun _ hfuel _ hplace => h.rangeLoop_eq hfuel hplace⟩

/-- **A launch over a range visits every index once.** -/
theorem perm (h : RangeFits maxGrid blockSize first last) {work : ℤ × ℤ → List ℤ}
    (hwork : RangeWork maxGrid blockSize (first, last) work) :
    ((rangeThreads maxGrid blockSize (first, last)).flatMap work).Perm (Int.range first last) := by
  obtain ⟨rounds, hrounds⟩ := hwork
  have heq : ∀ place ∈ rangeThreads maxGrid blockSize (first, last),
      work place = rangeCovers maxGrid blockSize (first, last) place := by
    intro place hplace
    have hsome := hrounds (max rounds (2 ^ 30)) (le_max_left _ _) place hplace
    rw [h.rangeLoop_eq (le_max_right _ _) hplace] at hsome
    exact (Option.some.inj hsome).symm
  rw [List.flatMap_congr heq]
  refine flatMap_perm_of_owner
    (fun x => Strided.place blockSize (rangeGrid maxGrid blockSize (first, last)) (x - first))
    (nodup_places _ _) (nodup_range _ _) (fun _ _ => nodup_strided) (fun x hx => ?_)
    fun place hplace x => h.mem_rangeCovers hplace x
  obtain ⟨hx₀, hx₁⟩ := Int.mem_range_iff.1 hx
  exact place_mem h.blockSize_pos (h.grid_bounds.2.1 (by omega)) _

end RangeFits

/-- **The threads of a device share out the indices of a range**, in strides over the whole grid. -/
theorem deviceRange_sharedOut {maxGrid blockSize first last : ℤ}
    (h : RangeFits maxGrid blockSize first last) :
    (∃ work, RangeWork maxGrid blockSize (first, last) work) ∧
      ∀ work, RangeWork maxGrid blockSize (first, last) work →
        Tiling.SharedOut (rangeThreads maxGrid blockSize (first, last)) work
          (Int.range first last) := by
  refine ⟨⟨_, h.exists_rangeWork⟩, fun work hwork => ?_⟩
  exact Tiling.sharedOut_of_perm (h.perm hwork) (nodup_range _ _)

/-- Two blocks of four threads for the range from `0` to `10`. -/
theorem deviceRange_sharedOut_ten : ∃ work, RangeWork 2 4 (0, 10) work ∧
    Tiling.SharedOut (rangeThreads 2 4 (0, 10)) work (Int.range 0 10) := by
  have hfits : RangeFits 2 4 0 10 := by constructor <;> decide
  obtain ⟨⟨work, hwork⟩, hshared⟩ := deviceRange_sharedOut hfits
  exact ⟨work, hwork, hshared work hwork⟩

end Kokkos

end KokkosStencil
