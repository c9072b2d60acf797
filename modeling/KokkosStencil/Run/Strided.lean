import KokkosStencil.Run.Launch
import KokkosStencil.Run.Tiling
import Mathlib.Tactic.LinearCombination

/-!
# Loops that count in strides

Threads that share out a range among them by strides each run a loop
`for (i = start; i < stop; i = next(i))` from a start of their own.

* `countLoop_eq` : such a loop ends and visits every `step`-th number, as long as its counter does
  not wrap around before the end;
* `flatMap_perm_of_owner` : lists that hold the elements of one owner each make up the whole;
* `place_eq_iff` : the numbers of a stride have one owner, the thread that starts there.
-/

namespace KokkosStencil

namespace Strided

variable {α γ : Type*}

/-- The values of `i` in a loop `for (i = start; i < stop; i = next(i))`, unless the loop takes more
than `fuel` rounds. -/
def countLoop (next : ℤ → ℤ) (stop : ℤ) : ℕ → ℤ → Option (List ℤ)
  | 0, i => if i < stop then none else some []
  | fuel + 1, i =>
    if i < stop then (countLoop next stop fuel (next i)).map (i :: ·) else some []

/-- `start`, `start + step` and so on, below `stop` -/
def strided (start stop step : ℤ) : List ℤ :=
  (Int.range start stop).filter fun i => (i - start) % step = 0

variable {start stop step : ℤ}

theorem mem_strided {i : ℤ} :
    i ∈ strided start stop step ↔ (start ≤ i ∧ i < stop) ∧ (i - start) % step = 0 := by
  rw [strided, List.mem_filter, Int.mem_range_iff, decide_eq_true_eq]

theorem nodup_strided : (strided start stop step).Nodup := (nodup_range start stop).filter _

theorem strided_of_le (h : stop ≤ start) : strided start stop step = [] := by
  rw [strided, Tiling.range_eq_nil h]
  rfl

theorem strided_of_lt (hstep : 0 < step) (h : start < stop) :
    strided start stop step = start :: strided (start + step) stop step := by
  -- the numbers that are skipped leave other remainders
  have hskip : ∀ b, b ≤ start + step →
      (Int.range (start + 1) b).filter (fun i => (i - start) % step = 0) = [] := by
    intro b hb
    refine List.filter_eq_nil_iff.2 fun i hi => ?_
    obtain ⟨hi₀, hi₁⟩ := Int.mem_range_iff.1 hi
    rw [decide_eq_true_eq, Int.emod_eq_of_lt (by omega) (by omega)]
    omega
  have hsame : ∀ i, (i - (start + step)) % step = (i - start) % step := by
    intro i
    rw [← Int.sub_sub, Int.sub_emod_right]
  rw [strided, Tiling.range_eq_cons h, List.filter_cons_of_pos (by simp), strided]
  simp only [hsame]
  rcases le_total (start + step) stop with hle | hle
  · rw [← Tiling.range_append_range (b := start + step) (by omega) hle, List.filter_append,
      hskip _ le_rfl, List.nil_append]
  · rw [hskip _ hle, Tiling.range_eq_nil hle, List.filter_nil]

theorem countLoop_of_le {next : ℤ → ℤ} (fuel : ℕ) (h : stop ≤ start) :
    countLoop next stop fuel start = some [] := by
  cases fuel with
  | zero => exact if_neg (not_lt.2 h)
  | succ fuel => exact if_neg (not_lt.2 h)

/-- **A loop that counts in strides** ends and visits the stride, if its counter stays right or the
loop ends. -/
theorem countLoop_eq {next : ℤ → ℤ} (hstep : 0 < step) {fuel : ℕ} (hfuel : stop - start ≤ fuel)
    (hnext : ∀ i, start ≤ i → i < stop →
      next i = i + step ∨ (stop ≤ next i ∧ stop ≤ i + step)) :
    countLoop next stop fuel start = some (strided start stop step) := by
  induction fuel generalizing start with
  | zero => rw [countLoop_of_le 0 (by omega), strided_of_le (by omega)]
  | succ fuel ih =>
    by_cases h : start < stop
    · rw [countLoop, if_pos h, strided_of_lt hstep h]
      rcases hnext start le_rfl h with hright | ⟨hend, hend'⟩
      · rw [hright, ih (by omega) fun i hi hi' => hnext i (by omega) hi', Option.map_some]
      · rw [countLoop_of_le fuel hend, strided_of_le hend', Option.map_some]
    · rw [countLoop_of_le _ (not_lt.1 h), strided_of_le (not_lt.1 h)]

/-- **Lists that hold the elements of one owner each** make up the whole. -/
theorem flatMap_perm_of_owner {owners : List γ} {elements : List α} {f : γ → List α} (owner : α → γ)
    (howners : owners.Nodup) (helements : elements.Nodup) (hf : ∀ c ∈ owners, (f c).Nodup)
    (howner : ∀ x ∈ elements, owner x ∈ owners)
    (hmem : ∀ c ∈ owners, ∀ x, x ∈ f c ↔ x ∈ elements ∧ owner x = c) :
    (owners.flatMap f).Perm elements := by
  have hnodup : (owners.flatMap f).Nodup := by
    refine List.nodup_flatMap.2 ⟨hf, howners.imp_of_mem fun hc hd hcd => ?_⟩
    intro x hxc hxd
    exact hcd (((hmem _ hc x).1 hxc).2.symm.trans ((hmem _ hd x).1 hxd).2)
  refine (List.perm_ext_iff_of_nodup hnodup helements).2 fun x => ?_
  rw [List.mem_flatMap]
  constructor
  · rintro ⟨c, hc, hx⟩
    exact ((hmem c hc x).1 hx).1
  · intro hx
    exact ⟨owner x, howner x hx, (hmem _ (howner x hx) x).2 ⟨hx, rfl⟩⟩

/-! ### Blocks of threads -/

/-- The place of a number that is counted from block `b` of threads on, by thread `t` of the block,
in strides over all `blocks`. -/
def place (size blocks : ℤ) (n : ℤ) : ℤ × ℤ := (n / size % blocks, n % size)

theorem place_mem {size blocks : ℤ} (hsize : 0 < size) (hblocks : 0 < blocks) (n : ℤ) :
    place size blocks n ∈ Int.range 0 blocks ×ˢ Int.range 0 size := by
  rw [List.mem_product, Int.mem_range_iff, Int.mem_range_iff]
  exact ⟨⟨Int.emod_nonneg _ hblocks.ne', Int.emod_lt_of_pos _ hblocks⟩,
    Int.emod_nonneg _ hsize.ne', Int.emod_lt_of_pos _ hsize⟩

theorem nodup_places (blocks size : ℤ) : (Int.range 0 blocks ×ˢ Int.range 0 size).Nodup :=
  (nodup_range _ _).product (nodup_range _ _)

theorem emod_le {m n : ℤ} (hm : 0 < m) (hn : 0 ≤ n) : n % m ≤ n := by
  have hdiv := Int.mul_ediv_add_emod n m
  have hmul : 0 ≤ m * (n / m) := mul_nonneg hm.le (Int.ediv_nonneg hn hm.le)
  omega

/-- The first number of a thread is the least one. -/
theorem le_of_place {size blocks n b t : ℤ} (hsize : 0 < size) (hblocks : 0 < blocks) (hn : 0 ≤ n)
    (h : place size blocks n = (b, t)) : t + size * b ≤ n := by
  obtain ⟨hquot, hrem⟩ := Prod.mk.inj h
  have hdiv := Int.mul_ediv_add_emod n size
  have hle : size * (n / size % blocks) ≤ size * (n / size) :=
    Int.mul_le_mul_of_nonneg_left (emod_le hblocks (Int.ediv_nonneg hn hsize.le)) hsize.le
  rw [hquot] at hle
  omega

/-- Thread `t` of block `b` owns the numbers `t + size * b` and so on, in strides of
`size * blocks`. -/
theorem place_eq_iff {size blocks : ℤ} (hsize : 0 < size) {n b t : ℤ} (hb : 0 ≤ b ∧ b < blocks)
    (ht : 0 ≤ t ∧ t < size) :
    place size blocks n = (b, t) ↔ (n - (t + size * b)) % (size * blocks) = 0 := by
  have hblocks : 0 < blocks := by omega
  rw [place, Prod.mk.injEq]
  constructor
  · rintro ⟨hquot, hrem⟩
    have hn := Int.mul_ediv_add_emod n size
    have hq := Int.mul_ediv_add_emod (n / size) blocks
    rw [hrem] at hn
    rw [hquot] at hq
    have hmul : n - (t + size * b) = size * blocks * (n / size / blocks) := by
      linear_combination -hn - size * hq
    rw [hmul, Int.mul_emod_right]
  · intro h
    obtain ⟨k, hk⟩ := Int.dvd_of_emod_eq_zero h
    have hn : n = t + size * (b + blocks * k) := by
      rw [Int.mul_add, ← Int.mul_assoc]
      omega
    rw [hn, Int.add_mul_ediv_left _ _ hsize.ne', Int.ediv_eq_zero_of_lt ht.1 ht.2, Int.zero_add,
      Int.add_mul_emod_self_left, Int.add_mul_emod_self_left, Int.emod_eq_of_lt hb.1 hb.2,
      Int.emod_eq_of_lt ht.1 ht.2]
    exact ⟨rfl, rfl⟩

end Strided

end KokkosStencil
