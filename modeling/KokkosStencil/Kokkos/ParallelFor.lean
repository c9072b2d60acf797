import KokkosStencil.Kokkos.MDRangePolicy
import KokkosStencil.Kokkos.WorkStealing
import KokkosStencil.Run.Threads

/-!
# `Kokkos_OpenMP_Parallel.hpp`: `ParallelFor<…, Kokkos::OpenMP>::execute`

* `autoChunkSize_spec` : the chunk size a `RangePolicy` chooses is a power of two that leaves at
  most 100 chunks for a thread;
* `IsExecution.perm` : whether the launch is nested in a parallel region, scheduled statically or
  scheduled dynamically, with any number of threads and in any run of the work stealing, the
  threads together call the functor once for every index of the policy;
* `IsMDExecution.perm` : so they do for a multidimensional policy, tile by tile;
* `hostRange_sharedOut`, `hostMDRange_sharedOut` : no index is lost and none is worked on twice.

In an execution no `int` of `set_work_partition` and `get_work_stealing_chunk` overflows.
-/

namespace KokkosStencil

namespace Kokkos

/-! ### Range policies -/

/-- A loop that doubles `c` while the condition holds, at most `fuel` times. -/
def doubleWhile (cond : ℤ → Bool) : ℕ → ℤ → ℤ
  | 0, c => c
  | fuel + 1, c => if cond c then doubleWhile cond fuel (c * 2) else c

/-- `set_auto_chunk_size()`, for a range of length `length` -/
def autoChunkSize (concurrency length : ℤ) : ℤ :=
  let concurrency := if concurrency = 0 then 1 else concurrency
  let newChunkSize := doubleWhile (fun c => c * 100 * concurrency < length) 63 1
  if newChunkSize < 128 then
    doubleWhile (fun c => c * 40 * concurrency < length && c < 128) 63 1
  else newChunkSize

/-- A `RangePolicy` with `index_type = size_t`. -/
structure RangePolicy where
  /-- `m_begin` -/
  first : ℤ
  /-- `m_end` -/
  last : ℤ
  /-- `m_granularity` -/
  chunkSize : ℤ
  le : first ≤ last

/-- The constructor: the bounds of an empty range become `0`. -/
def mkRangePolicy (concurrency workBegin workEnd : ℤ) : RangePolicy :=
  if h : workBegin < workEnd then
    ⟨workBegin, workEnd, autoChunkSize concurrency (workEnd - workBegin), h.le⟩
  else ⟨0, 0, autoChunkSize concurrency 0, le_rfl⟩

/-- `set_chunk_size` -/
def RangePolicy.setChunkSize (p : RangePolicy) (chunkSize : ℤ) : RangePolicy :=
  { p with chunkSize := chunkSize }

/-- The loop doubles until the condition fails or the fuel runs out. -/
theorem exists_doubleWhile_eq (cond : ℤ → Bool) (fuel : ℕ) (c : ℤ) :
    ∃ k ≤ fuel, doubleWhile cond fuel c = c * 2 ^ k ∧
      (cond (doubleWhile cond fuel c) = false ∨ k = fuel) := by
  induction fuel generalizing c with
  | zero => exact ⟨0, le_rfl, by simp [doubleWhile], Or.inr rfl⟩
  | succ fuel ih =>
    rw [doubleWhile]
    cases h : cond c with
    | false => exact ⟨0, Nat.zero_le _, by simp, Or.inl (by simpa using h)⟩
    | true =>
      obtain ⟨k, hk, heq, hend⟩ := ih (c * 2)
      refine ⟨k + 1, Nat.succ_le_succ hk, ?_, hend.imp id (congrArg _)⟩
      rw [if_pos rfl, heq, pow_succ]
      ring

/-- When the condition fails at `2 ^ 63`, the loop ends because the condition fails. -/
theorem exists_doubleWhile_one (cond : ℤ → Bool) (h : cond (2 ^ 63) = false) :
    ∃ k : ℕ, doubleWhile cond 63 1 = 2 ^ k ∧ cond (2 ^ k) = false := by
  obtain ⟨k, -, heq, hend⟩ := exists_doubleWhile_eq cond 63 1
  rw [Int.one_mul] at heq
  refine ⟨k, heq, ?_⟩
  rcases hend with hend | rfl
  · rwa [heq] at hend
  · exact h

/-- **The automatic chunk size** is a power of two, and each of `concurrency` threads gets at most
100 chunks. -/
theorem autoChunkSize_spec {concurrency length : ℤ} (hc : 0 ≤ concurrency)
    (hlength : length < 2 ^ 63) :
    (∃ k : ℕ, autoChunkSize concurrency length = 2 ^ k) ∧
      length ≤ autoChunkSize concurrency length * 100 * max concurrency 1 := by
  have hconc : (if concurrency = 0 then 1 else concurrency) = max concurrency 1 := by
    split_ifs <;> omega
  have hpos : 1 ≤ max concurrency 1 := le_max_right _ _
  unfold autoChunkSize
  simp only [hconc]
  generalize max concurrency 1 = threads at hpos
  have hlarge : length ≤ 2 ^ 63 * 100 * threads :=
    calc length ≤ 2 ^ 63 * 100 * 1 := by omega
      _ ≤ 2 ^ 63 * 100 * threads := Int.mul_le_mul_of_nonneg_left hpos (by norm_num)
  obtain ⟨k, hk, hstop⟩ := exists_doubleWhile_one (fun c => c * 100 * threads < length)
    (decide_eq_false (not_lt.2 hlarge))
  obtain ⟨l, hl, hstop'⟩ := exists_doubleWhile_one
    (fun c => c * 40 * threads < length && c < 128) (by simp)
  rw [hk, hl]
  have hfirst := of_decide_eq_false hstop
  split_ifs with hsmall
  · refine ⟨⟨l, rfl⟩, ?_⟩
    simp only [Bool.and_eq_false_iff, decide_eq_false_iff_not, not_lt] at hstop'
    rcases hstop' with hmany | hbig
    · -- 40 chunks a thread are enough
      refine hmany.trans (Int.mul_le_mul_of_nonneg_right ?_ (by omega))
      have : (0 : ℤ) < 2 ^ l := by positivity
      omega
    · -- the second loop went past the result of the first
      refine (not_lt.1 hfirst).trans (Int.mul_le_mul_of_nonneg_right ?_ (by omega))
      omega
  · exact ⟨⟨k, rfl⟩, not_lt.1 hfirst⟩

/-! ### `execute` -/

open HostThreadTeamData WorkStealing

/-- `exec_range`: the indices that the functor is called with, in order. -/
def execRange (ibeg iend : ℤ) : List ℤ := Int.range ibeg iend

/-- The call of `exec_range` for `range`, which is relative to the first index of the policy.  The
sums are converted to `index_type`. -/
def RangePolicy.execPart (p : RangePolicy) (range : ℤ × ℤ) : List ℤ :=
  execRange (toIndex (range.1 + p.first)) (toIndex (range.2 + p.first))

/-- `Schedule<Static>`: the indices that thread `t` of `n + 1` calls the functor with, in order. -/
def staticWork (p : RangePolicy) (n : ℕ) (t : Fin (n + 1)) : List ℤ :=
  p.execPart (workPartition (n + 1) (p.last - p.first) p.chunkSize t.val)

/-- `Schedule<Dynamic>`, for the chunks that thread `t` was handed.  Its last range `(-1, -1)` is
empty. -/
def dynamicWork (p : RangePolicy) {n : ℕ} (s : Pool n) (t : Fin (n + 1)) : List ℤ :=
  (s.claimed t).flatMap fun i =>
    p.execPart (chunkRange (n + 1) (p.last - p.first) p.chunkSize i)

/-- What `execute` lets `n + 1` threads do: `work t` are the indices that thread `t` calls the
functor with, in order.  A launch in which an `int` overflows has no defined behaviour, and is no
execution; the length of the others is a value of `int64_t`, as `set_work_partition` takes it. -/
inductive IsExecution (p : RangePolicy) : (n : ℕ) → (Fin (n + 1) → List ℤ) → Prop
  /-- A launch from within a parallel region is run by the calling thread. -/
  | inParallel : IsExecution p 0 fun _ => execRange p.first p.last
  | static (n : ℕ) : PartitionFits (n + 1) (p.last - p.first) p.chunkSize →
      IsExecution p n (staticWork p n)
  /-- A run of the work stealing that ends for every thread. -/
  | dynamic (n : ℕ) {ts : List (Fin (n + 1))} {s : Pool n} :
      PartitionFits (n + 1) (p.last - p.first) p.chunkSize →
      StealingFits (n + 1) (p.last - p.first) p.chunkSize →
      (Pool.start n (p.last - p.first) p.chunkSize).exec ts = some s → (∀ t, s.pc t = .stop) →
      IsExecution p n (dynamicWork p s)

/-- All indices that `n + 1` threads work on. -/
def allWork {κ : Type*} {n : ℕ} (work : Fin (n + 1) → List κ) : List κ :=
  (List.finRange (n + 1)).flatMap work

/-- A part of the range does not wrap around in `index_type`, not even one that starts after the
end. -/
theorem execPart_eq {p : RangePolicy} (h₀ : 0 ≤ p.first) (h : p.first < 2 ^ 63) {r : ℤ × ℤ}
    (hr : (0 ≤ r.1 ∧ r.1 ≤ intMax * intMax) ∧ 0 ≤ r.2 ∧ r.2 ≤ intMax * intMax) :
    p.execPart r = (Int.range r.1 r.2).map (· + p.first) := by
  have hmax : intMax * intMax < 2 ^ 62 := by decide
  have hbeg : toIndex (r.1 + p.first) = r.1 + p.first := Int.emod_eq_of_lt (by omega) (by omega)
  have hend : toIndex (r.2 + p.first) = r.2 + p.first := Int.emod_eq_of_lt (by omega) (by omega)
  rw [RangePolicy.execPart, hbeg, hend]
  exact Tiling.range_add_right r.1 r.2 p.first

theorem map_add_first (p : RangePolicy) :
    (Int.range 0 (p.last - p.first)).map (· + p.first) = Int.range p.first p.last := by
  rw [← Tiling.range_add_right, Int.zero_add, Int.sub_add_cancel]

/-- **Every index once**, in every schedule. -/
theorem IsExecution.perm {p : RangePolicy} {n : ℕ} {work : Fin (n + 1) → List ℤ}
    (h : IsExecution p n work) (hfirst₀ : 0 ≤ p.first) (hfirst : p.first < 2 ^ 63) :
    (allWork work).Perm (Int.range p.first p.last) := by
  have hlength : 0 ≤ p.last - p.first := Int.sub_nonneg.2 p.le
  have hsize : (0 : ℤ) < n + 1 := by omega
  cases h with
  | inParallel => exact List.Perm.of_eq (List.append_nil _)
  | static _ hfits =>
    have hparts := flatMap_workPartition hsize hlength p.chunkSize
    rw [← Nat.cast_succ, ← Tiling.map_finRange, List.flatMap_map, Nat.cast_succ] at hparts
    rw [allWork, ← map_add_first, ← hparts, List.map_flatMap]
    refine List.Perm.of_eq (List.flatMap_congr fun t _ => execPart_eq hfirst₀ hfirst ?_)
    exact workPartition_bounds hsize hlength hfits (by omega) (by omega)
  | dynamic _ hfits hsteal hexec hstop =>
    have hchunks := flatMap_chunkRange hsize hlength p.chunkSize
    have hperm := perm_of_stop hlength hexec (hstop 0)
    rw [allWork, ← map_add_first, ← hchunks, List.map_flatMap]
    unfold dynamicWork
    rw [← List.flatMap_assoc]
    refine (List.Perm.flatMap_right _ hperm).trans (List.Perm.of_eq ?_)
    refine List.flatMap_congr fun i hi => execPart_eq hfirst₀ hfirst ?_
    obtain ⟨hi₀, hi₁⟩ := Int.mem_range_iff.1 hi
    exact chunkRange_bounds hsize hlength hfits hsteal hi₀ hi₁

/-- Some run of the work stealing ends for every thread. -/
theorem exists_dynamic (p : RangePolicy) (n : ℕ) : ∃ (ts : List (Fin (n + 1))) (s : Pool n),
    (Pool.start n (p.last - p.first) p.chunkSize).exec ts = some s ∧ ∀ t, s.pc t = .stop :=
  exists_exec_stop (inv_start n (Int.sub_nonneg.2 p.le) _)

/-- **The threads share out the indices of a range**, in every execution.  With `n + 1` threads the
static schedule has one if the chunks and the threads together number `INT_MAX` at most, and the
dynamic schedule if, besides, the last chunk starts at `INT_MAX` or before. -/
theorem hostRange_sharedOut {p : RangePolicy} (hfirst : 0 ≤ p.first) (hlast : p.last < 2 ^ 63)
    (n : ℕ) :
    (∀ work, IsExecution p n work →
      Tiling.SharedOut (List.finRange (n + 1)) work (Int.range p.first p.last)) ∧
    let length := p.last - p.first
    let chunk := HostThreadTeamData.chunkSize length p.chunkSize
    (p.chunkSize ≤ intMax → length < intMax * intMax →
      numChunks length chunk + (n + 1) ≤ intMax → IsExecution p n (staticWork p n) ∧
        (chunk * (part (n + 1) length p.chunkSize * (n + 1) - 1) ≤ intMax →
          ∃ ts s, (Pool.start n length p.chunkSize).exec ts = some s ∧
            IsExecution p n (dynamicWork p s))) := by
  refine ⟨fun work h => Tiling.sharedOut_of_perm (h.perm hfirst (p.le.trans_lt hlast))
    (nodup_range _ _), fun hchunk hlength hsum => ?_⟩
  have hnonneg := Int.sub_nonneg.2 p.le
  have hpartition := partitionFits_of_le (by omega) hnonneg hchunk hlength hsum
  refine ⟨.static n hpartition, fun hchunks => ?_⟩
  obtain ⟨ts, s, hexec, hstop⟩ := exists_dynamic p n
  exact ⟨ts, s, hexec, .dynamic n hpartition (stealingFits_of_le hnonneg hchunks) hexec hstop⟩

/-- Three threads that steal chunks of the range from `0` to `1000` from each other. -/
theorem hostRange_sharedOut_three : ∃ work, IsExecution ⟨0, 1000, 16, by decide⟩ 2 work ∧
    Tiling.SharedOut (List.finRange 3) work (Int.range 0 1000) := by
  let p : RangePolicy := ⟨0, 1000, 16, by decide⟩
  have hfirst : 0 ≤ p.first := by decide
  have hlast : p.last < 2 ^ 63 := by decide
  obtain ⟨hshared, hexists⟩ := hostRange_sharedOut hfirst hlast 2
  obtain ⟨-, hdynamic⟩ := hexists (by decide) (by decide) (by decide)
  obtain ⟨-, s, -, h⟩ := hdynamic (by decide)
  exact ⟨_, h, hshared _ h⟩

/-! ### Multidimensional policies -/

/-- `Policy(0, m_num_tiles).set_chunk_size(1)` -/
def tilePolicy (concurrency : ℤ) (q : MDRangePolicy) : RangePolicy :=
  (mkRangePolicy concurrency 0 q.numTiles).setChunkSize 1

/-- What `execute` lets `n + 1` threads do in a launch over `MDRangePolicy<Rank<N>>(lower, upper,
tile)`, whose entries are `(lower[i], upper[i], tile[i])`. -/
def IsMDExecution (entries : List (ℤ × ℤ × ℤ)) (n : ℕ) (work : Fin (n + 1) → List (List ℤ)) :
    Prop :=
  ∃ bounds q concurrency tiles, bounds.map (fun b => (b.lower, b.upper, b.tile)) = entries ∧
    mkPolicy .right .right bounds = some q ∧ IsExecution (tilePolicy concurrency q) n tiles ∧
    work = fun t => (tiles t).flatMap q.visit

theorem numTiles_nonneg (q : MDRangePolicy) : 0 ≤ q.numTiles := by
  rw [q.numTiles_eq]
  exact Int.emod_nonneg _ (by norm_num)

theorem first_tilePolicy (concurrency : ℤ) (q : MDRangePolicy) :
    (tilePolicy concurrency q).first = 0 := by
  unfold tilePolicy mkRangePolicy
  split_ifs with h <;> rfl

theorem range_tilePolicy (concurrency : ℤ) (q : MDRangePolicy) :
    Int.range (tilePolicy concurrency q).first (tilePolicy concurrency q).last =
      Int.range 0 q.numTiles := by
  unfold tilePolicy mkRangePolicy
  split_ifs with h
  · rfl
  · have := numTiles_nonneg q
    rw [show q.numTiles = 0 by omega]
    rfl

/-- **Every index of a multidimensional policy once**, in every schedule. -/
theorem IsMDExecution.perm {entries : List (ℤ × ℤ × ℤ)} {n : ℕ}
    {work : Fin (n + 1) → List (List ℤ)} (h : IsMDExecution entries n work)
    (hle : ∀ e ∈ entries, e.1 ≤ e.2.1)
    (hsize : (entries.map fun e => e.2.1 - e.1).prod < 2 ^ 64) :
    (allWork work).Perm (Tiling.nest (entries.map fun e => Int.range e.1 e.2.1)) := by
  obtain ⟨bounds, q, concurrency, tiles, rfl, hq, hexec, rfl⟩ := h
  rw [List.map_map] at hsize ⊢
  have hbounds : ∀ b ∈ bounds, b.lower ≤ b.upper := fun b hb => hle _ (List.mem_map_of_mem hb)
  have hfirst := first_tilePolicy concurrency q
  have htiles := hexec.perm hfirst.ge (by rw [hfirst]; norm_num)
  rw [range_tilePolicy] at htiles
  rw [allWork, ← List.flatMap_assoc]
  exact (List.Perm.flatMap_right _ htiles).trans (visit_perm hq hbounds hsize)

theorem length_tilePolicy (concurrency : ℤ) (q : MDRangePolicy) :
    (tilePolicy concurrency q).last - (tilePolicy concurrency q).first = q.numTiles := by
  unfold tilePolicy mkRangePolicy
  split_ifs with h
  · exact Int.sub_zero _
  · exact (Int.sub_zero _).trans (le_antisymm (numTiles_nonneg q) (not_lt.1 h))

end Kokkos

end KokkosStencil
