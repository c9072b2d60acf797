import KokkosStencil.Run.Tiling

/-!
# `Kokkos_HostThreadTeam.hpp`: the work of a thread

`HostThreadTeamData` of a pool of threads that `organize_pool` has set up, each thread a team of
its own, and the parts of the work `[0, length)` that its functions hand out.

* `flatMap_workPartition` : the partitions of the threads are consecutive and make up the work;
* `flatMap_chunkRange` : so do the chunks that are handed out by work stealing;
* `intValues_fit_iff` : the `int`s of `set_work_partition` hold their values unless the number of
  chunks comes within the number of threads of `INT_MAX`.  Its lower bound on the chunk size keeps
  the number of chunks below `INT_MAX`, but not the sum with the number of threads;
* `stealingChunk_fit_iff` : so do those of `get_work_stealing_chunk` unless a chunk starts after
  `INT_MAX`.

The functions compute in the integers.  An `int` of theirs that overflows has no defined value, so
only runs with `PartitionFits` and `StealingFits` are runs of the code.
-/

namespace KokkosStencil

namespace Kokkos

/-- `std::numeric_limits<int>::max()` -/
def intMax : ℤ := 2 ^ 31 - 1

/-- The fields of `HostThreadTeamData` that scheduling uses. -/
structure HostThreadTeamData where
  /-- `m_pool_rank` -/
  poolRank : ℤ
  /-- `m_pool_size` -/
  poolSize : ℤ
  /-- `m_team_base` -/
  teamBase : ℤ
  /-- `m_team_size` -/
  teamSize : ℤ
  /-- `m_team_alloc` -/
  teamAlloc : ℤ
  /-- `m_league_rank` -/
  leagueRank : ℤ
  /-- `m_league_size` -/
  leagueSize : ℤ
  /-- `m_work_range` -/
  workRange : ℤ × ℤ
  /-- `m_work_end` -/
  workEnd : ℤ
  /-- `m_work_chunk` -/
  workChunk : ℤ
  /-- `m_steal_rank` -/
  stealRank : ℤ
  deriving DecidableEq

namespace HostThreadTeamData

/-- The data of thread `rank` after `organize_pool` of `size` threads. -/
def organizePool (size rank : ℤ) : HostThreadTeamData where
  poolRank := rank
  poolSize := size
  teamBase := rank
  teamSize := 1
  teamAlloc := 1
  leagueRank := rank
  leagueSize := size
  workRange := (-1, -1)
  workEnd := 0
  workChunk := 0
  stealRank := 0

/-- `chunk_min` -/
def chunkMin (length : ℤ) : ℤ := (length + intMax) / intMax

/-- `num`, with the chunk size that `set_work_partition` settles on -/
def numChunks (length chunk : ℤ) : ℤ := (length + chunk - 1) / chunk

/-- `part` -/
def partSize (leagueSize num : ℤ) : ℤ := (num + leagueSize - 1) / leagueSize

/-- `set_work_partition(length, chunk)`, if its `int`s hold their values (`PartitionFits`) -/
def setWorkPartition (length chunk : ℤ) (d : HostThreadTeamData) : HostThreadTeamData :=
  let workChunk := max chunk (chunkMin length)
  let num := numChunks length workChunk
  let part := partSize d.leagueSize num
  let first := part * d.leagueRank
  { d with
    workEnd := length
    workChunk := workChunk
    workRange := (first, first + part)
    stealRank :=
      if d.teamBase + d.teamAlloc + d.teamSize ≤ d.poolSize then d.teamBase + d.teamAlloc else 0 }

/-- `get_work_partition()` -/
def getWorkPartition (d : HostThreadTeamData) : ℤ × ℤ :=
  let first := d.workRange.1 * d.workChunk
  let second := d.workRange.2 * d.workChunk
  (first, if second < d.workEnd then second else d.workEnd)

/-- The range that `get_work_stealing_chunk()` makes of chunk `i`, if its `int`s hold their values
(`StealingFits`). -/
def stealingChunk (d : HostThreadTeamData) (i : ℤ) : ℤ × ℤ :=
  let first := d.workChunk * i
  (first, if first + d.workChunk < d.workEnd then first + d.workChunk else d.workEnd)

/-- The data of thread `rank` of a pool of `size` threads when the work is set. -/
def worker (size length chunk rank : ℤ) : HostThreadTeamData :=
  (organizePool size rank).setWorkPartition length chunk

/-- The chunk size in use. -/
def chunkSize (length chunk : ℤ) : ℤ := max chunk (chunkMin length)

/-- The number of chunks in the range of one thread. -/
def part (size length chunk : ℤ) : ℤ := partSize size (numChunks length (chunkSize length chunk))

/-- The partition of thread `rank`. -/
def workPartition (size length chunk rank : ℤ) : ℤ × ℤ :=
  (worker size length chunk rank).getWorkPartition

/-- The range of chunk `i`, as each thread computes it. -/
def chunkRange (size length chunk i : ℤ) : ℤ × ℤ := (worker size length chunk 0).stealingChunk i

theorem ite_lt_eq_min (b n : ℤ) : (if b < n then b else n) = min b n := by
  split_ifs <;> omega

theorem workPartition_eq (size length chunk rank : ℤ) : workPartition size length chunk rank =
    (rank * (part size length chunk * chunkSize length chunk),
      min ((rank + 1) * (part size length chunk * chunkSize length chunk)) length) := by
  have hfirst : rank * (part size length chunk * chunkSize length chunk) =
      part size length chunk * rank * chunkSize length chunk := by ring
  have hsecond : (rank + 1) * (part size length chunk * chunkSize length chunk) =
      (part size length chunk * rank + part size length chunk) * chunkSize length chunk := by ring
  rw [hfirst, hsecond, ← ite_lt_eq_min]
  rfl

theorem chunkRange_eq (size length chunk i : ℤ) : chunkRange size length chunk i =
    (i * chunkSize length chunk, min ((i + 1) * chunkSize length chunk) length) := by
  have hsecond : (i + 1) * chunkSize length chunk =
      chunkSize length chunk * i + chunkSize length chunk := by ring
  rw [hsecond, Int.mul_comm i, ← ite_lt_eq_min]
  rfl

/-! ### The parts make up the work -/

variable {size length : ℤ}

theorem chunkMin_pos (h : 0 ≤ length) : 0 < chunkMin length := by
  have hmax : 0 < intMax := by decide
  have hle : intMax / intMax ≤ chunkMin length := Int.ediv_le_ediv hmax (by omega)
  rwa [Int.ediv_self hmax.ne'] at hle

theorem chunkSize_pos (h : 0 ≤ length) (chunk : ℤ) : 0 < chunkSize length chunk :=
  lt_max_of_lt_right (chunkMin_pos h)

theorem le_ceil_mul {n c : ℤ} (hc : 0 < c) : n ≤ (n + c - 1) / c * c := by
  have h := Int.lt_ediv_add_one_mul_self (n + c - 1) hc
  rw [Int.add_mul, Int.one_mul] at h
  omega

theorem ceil_nonneg {n c : ℤ} (hn : 0 ≤ n) (hc : 0 < c) : 0 ≤ (n + c - 1) / c :=
  Int.ediv_nonneg (by omega) hc.le

theorem part_nonneg (hsize : 0 < size) (h : 0 ≤ length) (chunk : ℤ) :
    0 ≤ part size length chunk :=
  ceil_nonneg (ceil_nonneg h (chunkSize_pos h chunk)) hsize

/-- The chunks of all threads reach the end of the work. -/
theorem length_le_chunks (hsize : 0 < size) (h : 0 ≤ length) (chunk : ℤ) :
    length ≤ part size length chunk * size * chunkSize length chunk :=
  calc length ≤ numChunks length (chunkSize length chunk) * chunkSize length chunk :=
        le_ceil_mul (chunkSize_pos h chunk)
    _ ≤ part size length chunk * size * chunkSize length chunk :=
        Int.mul_le_mul_of_nonneg_right (le_ceil_mul hsize) (chunkSize_pos h chunk).le

/-- The blocks of length `c` up to the `m`-th, cut at the end of the work. -/
theorem flatMap_cut_blocks {c m n : ℤ} (hc : 0 ≤ c) (hm : 0 ≤ m) (hn : 0 ≤ n) (hend : n ≤ m * c) :
    (Int.range 0 m).flatMap (fun k => Int.range (k * c) (min ((k + 1) * c) n)) =
      Int.range 0 n := by
  have hmono : ∀ k l : ℤ, k ≤ l → min (k * c) n ≤ min (l * c) n :=
    fun _ _ h => min_le_min_right _ (Int.mul_le_mul_of_nonneg_right h hc)
  -- a block that starts behind the end is empty
  have hcut : ∀ k : ℤ, Int.range (k * c) (min ((k + 1) * c) n) =
      Int.range (min (k * c) n) (min ((k + 1) * c) n) := by
    intro k
    by_cases hk : k * c ≤ n
    · rw [min_eq_left hk]
    · rw [Tiling.range_eq_nil (by omega), Tiling.range_eq_nil (by omega)]
  simp only [hcut]
  rw [Tiling.flatMap_range_blocks hmono hm, Int.zero_mul, min_eq_left hn, min_eq_right hend]

/-- **Static scheduling.**  The partitions of the threads make up the work, in order. -/
theorem flatMap_workPartition (hsize : 0 < size) (h : 0 ≤ length) (chunk : ℤ) :
    (Int.range 0 size).flatMap (fun rank =>
      Int.range (workPartition size length chunk rank).1
        (workPartition size length chunk rank).2) = Int.range 0 length := by
  simp only [workPartition_eq]
  refine flatMap_cut_blocks (Int.mul_nonneg (part_nonneg hsize h chunk) (chunkSize_pos h chunk).le)
    hsize.le h ((length_le_chunks hsize h chunk).trans_eq ?_)
  ring

/-- **Dynamic scheduling.**  The chunks make up the work, in order. -/
theorem flatMap_chunkRange (hsize : 0 < size) (h : 0 ≤ length) (chunk : ℤ) :
    (Int.range 0 (part size length chunk * size)).flatMap (fun i =>
      Int.range (chunkRange size length chunk i).1 (chunkRange size length chunk i).2) =
      Int.range 0 length := by
  simp only [chunkRange_eq]
  exact flatMap_cut_blocks (chunkSize_pos h chunk).le
    (Int.mul_nonneg (part_nonneg hsize h chunk) hsize.le) h (length_le_chunks hsize h chunk)

/-! ### Overflow -/

/-- `n` is a value of `int`. -/
def FitsInt (n : ℤ) : Prop := -2 ^ 31 ≤ n ∧ n ≤ intMax

/-- The values that `set_work_partition` computes with in `int`, as thread `rank`. -/
def intValues (size length chunk rank : ℤ) : List ℤ :=
  let num := numChunks length (chunkSize length chunk)
  [chunkMin length, chunkSize length chunk, num, num + size, num + size - 1,
    part size length chunk, part size length chunk * rank]

/-- No `int` of `set_work_partition` overflows, in any of `size` threads. -/
def PartitionFits (size length chunk : ℤ) : Prop :=
  ∀ rank, 0 ≤ rank → rank < size → ∀ n ∈ intValues size length chunk rank, FitsInt n

/-- No `int` of `get_work_stealing_chunk` overflows, for any of the chunks: where a chunk starts is
a product in `int`. -/
def StealingFits (size length chunk : ℤ) : Prop :=
  ∀ i, 0 ≤ i → i < part size length chunk * size → FitsInt (chunkSize length chunk * i)

/-- The least chunk size does what its comment says. -/
theorem length_lt_intMax_mul_chunkSize (length chunk : ℤ) :
    length < intMax * chunkSize length chunk := by
  have hmax : 0 < intMax := by decide
  have hlt := Int.lt_ediv_add_one_mul_self (length + intMax) hmax
  have hle : intMax * chunkMin length ≤ intMax * chunkSize length chunk :=
    Int.mul_le_mul_of_nonneg_left (le_max_right _ _) hmax.le
  rw [Int.add_mul, Int.one_mul, Int.mul_comm] at hlt
  simp only [chunkMin] at hle
  omega

theorem chunkMin_le_intMax_iff : chunkMin length ≤ intMax ↔ length < intMax * intMax := by
  have hmax : 0 < intMax := by decide
  rw [chunkMin, ← Int.lt_add_one_iff, Int.ediv_lt_iff_lt_mul hmax, Int.add_mul, Int.one_mul]
  omega

/-- The number of chunks of one thread, times the number of threads. -/
theorem part_mul_size_le (hsize : 0 < size) (length chunk : ℤ) :
    part size length chunk * size ≤ numChunks length (chunkSize length chunk) + size - 1 :=
  Int.ediv_mul_le _ hsize.ne'

theorem partitionFits_of_le {chunk : ℤ} (hsize : 0 < size) (h : 0 ≤ length)
    (hchunk : chunk ≤ intMax) (hlength : length < intMax * intMax)
    (hsum : numChunks length (chunkSize length chunk) + size ≤ intMax) :
    PartitionFits size length chunk := by
  intro rank hrank₀ hrank
  have hnum : 0 ≤ numChunks length (chunkSize length chunk) := ceil_nonneg h (chunkSize_pos h chunk)
  have hpart := part_nonneg hsize h chunk
  have hmin := chunkMin_pos h
  have hminMax := chunkMin_le_intMax_iff.2 hlength
  have hprod := part_mul_size_le hsize length chunk
  have hpart₁ : part size length chunk * 1 ≤ part size length chunk * size :=
    Int.mul_le_mul_of_nonneg_left (by omega) hpart
  have hrank₁ : part size length chunk * rank ≤ part size length chunk * size :=
    Int.mul_le_mul_of_nonneg_left hrank.le hpart
  have hrank₂ : 0 ≤ part size length chunk * rank := Int.mul_nonneg hpart hrank₀
  have hmaxFits : chunkSize length chunk ≤ intMax := max_le hchunk hminMax
  have hchunkPos := chunkSize_pos h chunk
  simp only [intValues, List.forall_mem_cons, List.not_mem_nil, false_implies, implies_true,
    and_true, FitsInt]
  omega

theorem stealingFits_of_le {chunk : ℤ} (h : 0 ≤ length)
    (hlast : chunkSize length chunk * (part size length chunk * size - 1) ≤ intMax) :
    StealingFits size length chunk := by
  intro i hi₀ hi
  have hchunk := chunkSize_pos h chunk
  have hle : chunkSize length chunk * i ≤
      chunkSize length chunk * (part size length chunk * size - 1) :=
    Int.mul_le_mul_of_nonneg_left (by omega) hchunk.le
  have hnonneg := Int.mul_nonneg hchunk.le hi₀
  exact ⟨by omega, by omega⟩

theorem PartitionFits.length_lt {chunk : ℤ} (hsize : 0 < size)
    (hfits : PartitionFits size length chunk) : length < intMax * intMax := by
  have hfits₀ := hfits 0 le_rfl hsize
  simp only [intValues, List.forall_mem_cons] at hfits₀
  exact chunkMin_le_intMax_iff.1 hfits₀.1.2

/-- A partition may start after the end of the work, but not long after it. -/
theorem workPartition_bounds {chunk rank : ℤ} (hsize : 0 < size) (h : 0 ≤ length)
    (hfits : PartitionFits size length chunk) (hrank₀ : 0 ≤ rank) (hrank : rank < size) :
    let range := workPartition size length chunk rank
    (0 ≤ range.1 ∧ range.1 ≤ intMax * intMax) ∧ 0 ≤ range.2 ∧ range.2 ≤ intMax * intMax := by
  have hlength := hfits.length_lt hsize
  have hpart := part_nonneg hsize h chunk
  have hchunk := (chunkSize_pos h chunk).le
  have hfitsRank := hfits rank hrank₀ hrank
  simp only [intValues, List.forall_mem_cons] at hfitsRank
  obtain ⟨-, ⟨-, hchunkMax⟩, -, -, -, -, ⟨-, hstart⟩, -⟩ := hfitsRank
  have hfirst : rank * (part size length chunk * chunkSize length chunk) =
      part size length chunk * rank * chunkSize length chunk := by ring
  have hsecond : 0 ≤ (rank + 1) * (part size length chunk * chunkSize length chunk) :=
    Int.mul_nonneg (by omega) (Int.mul_nonneg hpart hchunk)
  simp only [workPartition_eq, hfirst]
  refine ⟨⟨Int.mul_nonneg (Int.mul_nonneg hpart hrank₀) hchunk, ?_⟩, le_min hsecond h,
    (min_le_right _ _).trans hlength.le⟩
  calc part size length chunk * rank * chunkSize length chunk
      ≤ intMax * chunkSize length chunk := Int.mul_le_mul_of_nonneg_right hstart hchunk
    _ ≤ intMax * intMax := Int.mul_le_mul_of_nonneg_left hchunkMax (by decide)

theorem chunkRange_bounds {chunk i : ℤ} (hsize : 0 < size) (h : 0 ≤ length)
    (hfits : PartitionFits size length chunk) (hsteal : StealingFits size length chunk)
    (hi₀ : 0 ≤ i) (hi : i < part size length chunk * size) :
    let range := chunkRange size length chunk i
    (0 ≤ range.1 ∧ range.1 ≤ intMax * intMax) ∧ 0 ≤ range.2 ∧ range.2 ≤ intMax * intMax := by
  have hlength := hfits.length_lt hsize
  have hchunk := (chunkSize_pos h chunk).le
  have hstart := (hsteal i hi₀ hi).2
  have hmax : intMax ≤ intMax * intMax := by decide
  rw [Int.mul_comm] at hstart
  simp only [chunkRange_eq]
  exact ⟨⟨Int.mul_nonneg hi₀ hchunk, hstart.trans hmax⟩,
    le_min (Int.mul_nonneg (by omega) hchunk) h, (min_le_right _ _).trans hlength.le⟩

/-- Single indices as chunks, as for the tiles of a multidimensional policy. -/
theorem fits_one (hsize : 0 < size) (h : 0 ≤ length) (hsum : length + size ≤ intMax) :
    PartitionFits size length 1 ∧ StealingFits size length 1 := by
  have hmax : 0 < intMax := by decide
  have hmin : chunkMin length ≤ 1 := by
    rw [chunkMin, ← Int.lt_add_one_iff, Int.ediv_lt_iff_lt_mul hmax]
    omega
  have hchunk : chunkSize length 1 = 1 := max_eq_left hmin
  have hnum : numChunks length (chunkSize length 1) = length := by
    rw [hchunk, numChunks, Int.ediv_one]
    omega
  have hprod := part_mul_size_le hsize length 1
  rw [hnum] at hprod
  constructor
  · exact partitionFits_of_le hsize h (by decide) (chunkMin_le_intMax_iff.1 (by omega))
      (hnum.symm ▸ hsum)
  · refine stealingFits_of_le h ?_
    rw [hchunk]
    omega

/-- **When the partition is computed without overflow**: iff the chunk size fits and the sum of
the number of chunks and the number of threads does. -/
theorem intValues_fit_iff {chunk : ℤ} (hsize : 0 < size) (h : 0 ≤ length)
    (hchunk : chunk ≤ intMax) :
    PartitionFits size length chunk ↔
      length < intMax * intMax ∧
        numChunks length (chunkSize length chunk) + size ≤ intMax := by
  constructor
  · intro hfit
    have hfit₀ := hfit 0 le_rfl hsize
    simp only [intValues, List.forall_mem_cons] at hfit₀
    obtain ⟨-, -, -, ⟨-, hsum⟩, -⟩ := hfit₀
    exact ⟨hfit.length_lt hsize, hsum⟩
  · rintro ⟨hlength, hsum⟩
    exact partitionFits_of_le hsize h hchunk hlength hsum

/-- Two threads share out `INT_MAX - 2` chunks, and overflow on one more. -/
theorem intValues_fit_two :
    PartitionFits 2 (intMax - 2) 1 ∧ ¬ PartitionFits 2 (intMax - 1) 1 :=
  ⟨(intValues_fit_iff (by decide) (by decide) (by decide)).2 (by decide),
    mt (intValues_fit_iff (by decide) (by decide) (by decide)).1 (by decide)⟩

/-- **When the chunks of work stealing are computed without overflow**: iff the last one starts at
`INT_MAX` or before. -/
theorem stealingChunk_fit_iff (hsize : 0 < size) (h : 0 ≤ length) (chunk : ℤ) :
    StealingFits size length chunk ↔
      chunkSize length chunk * (part size length chunk * size - 1) ≤ intMax := by
  have hchunk := chunkSize_pos h chunk
  have hchunks : 0 ≤ part size length chunk * size :=
    Int.mul_nonneg (part_nonneg hsize h chunk) hsize.le
  have hmax : 0 < intMax := by decide
  refine ⟨fun hfit => ?_, stealingFits_of_le h⟩
  by_cases hzero : part size length chunk * size = 0
  · rw [hzero]; omega
  · exact (hfit _ (by omega) (by omega)).2

/-- Two threads on `3 * 2 ^ 29` indices in chunks of `2 ^ 29`, and on twice as many. -/
theorem stealingChunk_fit_two : StealingFits 2 (3 * 2 ^ 29) (2 ^ 29) ∧
    ¬ StealingFits 2 (6 * 2 ^ 29) (2 ^ 29) :=
  ⟨(stealingChunk_fit_iff (by decide) (by decide) _).2 (by decide),
    mt (stealingChunk_fit_iff (by decide) (by decide) _).1 (by decide)⟩

end HostThreadTeamData

end Kokkos

end KokkosStencil
