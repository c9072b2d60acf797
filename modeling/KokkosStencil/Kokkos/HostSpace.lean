import KokkosStencil.Kokkos.HostLaunch
import KokkosStencil.Memory.Block

/-!
# `hostspace_parallel_deepcopy`

A long copy in host memory goes word by word when both blocks lie alike with respect to words: some
bytes up to the first word boundary, then the words, shared out among the threads, then the bytes
that are left.  Otherwise the threads copy bytes.

* `raceFree_copyWords`, `launch_copyWords` : the words do not race, and together they are a block;
* `hostspaceParallelDeepcopy_iff` : for blocks that do not overlap, whatever their addresses and
  whatever the interleaving of the threads, the copy ends and has one result, the block copied.
-/

namespace KokkosStencil

namespace Kokkos

open Threads FlatMemory

/-- The bytes of the host memory by their addresses. -/
abbrev hostBytes (κ : Type*) : Storage (ℤ → UInt8) κ ℤ UInt8 := Storage.ofFun

/-- `KOKKOS_IMPL_HOST_DEEP_COPY_SERIAL_LIMIT` -/
def SERIAL_LIMIT : ℤ := 10 * 8192

/-- `dst_p[i] = src_p[i]` for words of `w` bytes, which are moved as they are. -/
def copyWords (w : ℕ) (dstP srcP : ℤ) : Kernel ℤ ℤ UInt8 := fun i =>
  [⟨(List.range w).map fun j : ℕ => srcP + i * w + j,
    (List.range w).map fun j : ℕ => (dstP + i * w + j, fun bytes => bytes.getD j 0)⟩]

/-- The pointers of the byte loops, and the memory. -/
structure Cursor where
  /-- `dst_c` -/
  dstC : ℤ
  /-- `src_c` -/
  srcC : ℤ
  /-- The memory. -/
  mem : ℤ → UInt8

/-- `*dst_c = *src_c; dst_c++; src_c++;` -/
def Cursor.copy (c : Cursor) : Cursor where
  dstC := c.dstC + 1
  srcC := c.srcC + 1
  mem := Function.update c.mem c.dstC (c.mem c.srcC)

/-- The loop over the initial bytes; the second component is `count`. -/
def copyInitial (w : ℕ) : ℕ → Cursor × ℤ → Option (Cursor × ℤ) :=
  whileLoop (fun s => decide (s.1.dstC.tmod w ≠ 0)) fun s => (s.1.copy, s.2 + 1)

/-- The loop over the final bytes. -/
def copyFinal (dstEnd : ℤ) : ℕ → Cursor → Option Cursor :=
  whileLoop (fun c => decide (c.dstC ≠ dstEnd)) Cursor.copy

/-- The branch of the copy for words of `w` bytes. -/
def WordwiseCopy (w : ℕ) (dst src n : ℤ) (m m' : ℤ → UInt8) : Prop :=
  ∃ head : Cursor × ℤ, (∃ fuel, copyInitial w fuel (⟨dst, src, m⟩, 0) = some head) ∧
    ∃ mem, ParallelForRange (hostBytes ℤ) (copyWords w head.1.dstC head.1.srcC) 0
        ((n - head.2).tdiv w) head.1.mem mem ∧
      ∃ tail : Cursor, (∃ fuel, copyFinal (dst + n) fuel
          ⟨head.1.dstC + (n - head.2).tdiv w * w, head.1.srcC + (n - head.2).tdiv w * w, mem⟩ =
            some tail) ∧ m' = tail.mem

/-- `hostspace_parallel_deepcopy(dst, src, n)` may turn `m` into `m'`. -/
def HostspaceParallelDeepcopy (concurrency dst src n : ℤ) (m m' : ℤ → UInt8) : Prop :=
  if n < SERIAL_LIMIT ∨ concurrency = 1 then m' = copyBlock dst src n m
  else if src.tmod 8 = dst.tmod 8 then WordwiseCopy 8 dst src n m m'
  else if src.tmod 4 = dst.tmod 4 then WordwiseCopy 4 dst src n m m'
  else ParallelForRange (hostBytes ℤ) (copyWords 1 dst src) 0 n m m'

/-! ### Words -/

theorem foldl_store_bytes (d : ℤ) (v : ℕ → UInt8) (w : ℕ) (m : ℤ → UInt8) :
    (List.range w).foldl (fun m (j : ℕ) => Function.update m (d + j) (v j)) m =
      fun a => if d ≤ a ∧ a < d + w then v (a - d).toNat else m a := by
  induction w with
  | zero =>
    funext a
    rw [if_neg (by omega)]
    rfl
  | succ w ih =>
    funext a
    rw [List.range_succ, List.foldl_append, ih, List.foldl_cons, List.foldl_nil]
    by_cases ha : a = d + w
    · subst ha
      rw [Function.update_self, if_pos (by push_cast; omega), add_sub_cancel_left,
        Int.toNat_natCast]
    · rw [Function.update_of_ne ha]
      exact if_congr (by push_cast; omega) rfl rfl

/-- The body at `i` copies word `i`. -/
theorem body_copyWords (w : ℕ) (dstP srcP i : ℤ) (m : ℤ → UInt8) :
    (copyWords w dstP srcP).body (hostBytes ℤ) i m =
      copyBlock (dstP + i * w) (srcP + i * w) w m := by
  have hloaded : ∀ j, ((List.range w).map fun j : ℕ => m (srcP + i * w + j)).getD j 0 =
      if j < w then m (srcP + i * w + j) else 0 := by
    intro j
    rw [List.getD_eq_getElem?_getD, List.getElem?_map]
    by_cases hj : j < w
    · rw [if_pos hj, List.getElem?_range hj]
      rfl
    · rw [if_neg hj, List.getElem?_eq_none (by simpa using hj)]
      rfl
  have hfold := foldl_store_bytes (dstP + i * w)
    (fun j => if j < w then m (srcP + i * w + j) else 0) w m
  simp only [Kernel.body, copyWords, List.foldl_cons, List.foldl_nil, CodeBlock.perform,
    List.foldl_map, List.map_map, Storage.ofFun, Function.comp_def, hloaded]
  refine hfold.trans ?_
  funext a
  by_cases ha : dstP + i * w ≤ a ∧ a < dstP + i * w + w
  · rw [if_pos ha, if_pos (by omega), copyBlock_of_mem ha, Int.toNat_of_nonneg (by omega)]
  · rw [if_neg ha, copyBlock_of_notMem ha]

/-- **The words do not race**, if no byte of the target is one of the source. -/
theorem raceFree_copyWords {w : ℕ} (hw : 0 < w) {dstP srcP k : ℤ} (h : Apart dstP srcP (k * w)) :
    (copyWords w dstP srcP).RaceFree (Int.range 0 k) := by
  have hbound : ∀ i ∈ Int.range 0 k, 0 ≤ i * w ∧ i * w + w ≤ k * w := by
    intro i hi
    obtain ⟨hi₀, hi₁⟩ := Int.mem_range_iff.1 hi
    have hle : (i + 1) * (w : ℤ) ≤ k * w :=
      Int.mul_le_mul_of_nonneg_right (by omega) (Int.natCast_nonneg w)
    rw [add_mul, one_mul] at hle
    exact ⟨Int.mul_nonneg hi₀ (Int.natCast_nonneg w), hle⟩
  refine raceFree_of_owner (fun a => (a - dstP) / w) (fun a => dstP ≤ a ∧ a < dstP + k * w)
    (fun i hi a ha => ?_) fun i hi a ha => ?_
  · simp only [Kernel.loads, copyWords, List.flatMap_singleton, List.mem_map, List.mem_range] at ha
    obtain ⟨j, hj, rfl⟩ := ha
    have hi := hbound i hi
    unfold Apart at h
    omega
  · simp only [Kernel.stores, copyWords, List.flatMap_singleton, List.mem_map, List.mem_range,
      List.map_map, Function.comp_apply] at ha
    obtain ⟨j, hj, rfl⟩ := ha
    have hi := hbound i hi
    refine ⟨by omega, ?_⟩
    rw [add_assoc, add_sub_cancel_left, add_comm, Int.add_mul_ediv_right _ _ (by omega),
      Int.ediv_eq_zero_of_lt (by omega) (by omega), zero_add]

/-- **The words together are a block.** -/
theorem launch_copyWords {w : ℕ} (dstP srcP : ℤ) (k : ℕ) (h : Apart dstP srcP (k * w))
    (m : ℤ → UInt8) :
    launch (LaunchOrder.inOrder (Int.range 0 k)) ((copyWords w dstP srcP).body (hostBytes ℤ)) m =
      copyBlock dstP srcP (k * w) m := by
  rw [← foldl_copyBlock (Int.natCast_nonneg w) k h]
  exact List.foldl_ext _ _ _ fun m i _ => body_copyWords w dstP srcP i m

theorem parallelForRange_copyWords {w : ℕ} (hw : 0 < w) {dstP srcP k : ℤ} (hk : 0 ≤ k)
    (h : Apart dstP srcP (k * w)) {m m' : ℤ → UInt8} :
    ParallelForRange (hostBytes ℤ) (copyWords w dstP srcP) 0 k m m' ↔
      m' = copyBlock dstP srcP (k * w) m := by
  obtain ⟨k, rfl⟩ := Int.eq_ofNat_of_zero_le hk
  rw [parallelForRange_iff le_rfl (by norm_num) (raceFree_copyWords hw h) (LaunchOrder.inOrder _),
    launch_copyWords _ _ k h]

/-! ### Bytes before and after the words -/

/-- The cursor after `k` bytes. -/
def cursorAt (dst src : ℤ) (m : ℤ → UInt8) (k : ℕ) : Cursor :=
  ⟨dst + k, src + k, copyBlock dst src k m⟩

theorem cursorAt_zero (dst src : ℤ) (m : ℤ → UInt8) : cursorAt dst src m 0 = ⟨dst, src, m⟩ := by
  rw [cursorAt, Nat.cast_zero, add_zero, add_zero, copyBlock_of_nonpos le_rfl]

theorem copy_cursorAt {dst src : ℤ} {k : ℕ} (h : Apart dst src (k + 1)) (m : ℤ → UInt8) :
    (cursorAt dst src m k).copy = cursorAt dst src m (k + 1) := by
  simp only [cursorAt, Cursor.copy, update_copyBlock (Int.natCast_nonneg k) h]
  push_cast
  simp only [add_assoc]

/-- The number of bytes before the first word boundary. -/
def initialBytes (w : ℕ) (dst : ℤ) : ℕ := ((-dst) % w).toNat

theorem initialBytes_lt {w : ℕ} (hw : 0 < w) (dst : ℤ) : initialBytes w dst < w := by
  have h₀ := Int.emod_nonneg (-dst) (b := w) (by omega)
  have h₁ := Int.emod_lt_of_pos (-dst) (b := w) (by omega)
  unfold initialBytes
  omega

/-- Of the addresses up to the first word boundary, only the last is one. -/
theorem tmod_add_eq_zero_iff {w : ℕ} (hw : 0 < w) {dst : ℤ} {k : ℕ} (hk : k ≤ initialBytes w dst) :
    (dst + k).tmod w = 0 ↔ k = initialBytes w dst := by
  have hlt := initialBytes_lt hw dst
  have hinitial : ((initialBytes w dst : ℕ) : ℤ) = (-dst) % w :=
    Int.toNat_of_nonneg (Int.emod_nonneg _ (by omega))
  have hboundary : (w : ℤ) ∣ dst + initialBytes w dst := by
    rw [hinitial]
    exact ⟨-(-dst / w), by have := Int.mul_ediv_add_emod (-dst) w; linarith⟩
  rw [← Int.dvd_iff_tmod_eq_zero]
  constructor
  · intro hdvd
    have hdvd' := Int.dvd_sub hboundary hdvd
    rw [add_sub_add_left_eq_sub, ← Nat.cast_sub hk, Int.natCast_dvd_natCast] at hdvd'
    have hzero := Nat.eq_zero_of_dvd_of_lt hdvd' (by omega)
    omega
  · rintro rfl
    exact hboundary

section

variable {dst src n : ℤ} {m m' : ℤ → UInt8}

/-- **The loop over the initial bytes** stops at the first word boundary. -/
theorem copyInitial_iff {w : ℕ} (hw : 0 < w) (h : Apart dst src n) (hn : w ≤ n)
    {head : Cursor × ℤ} : (∃ fuel, copyInitial w fuel (⟨dst, src, m⟩, 0) = some head) ↔
      head = (cursorAt dst src m (initialBytes w dst), (initialBytes w dst : ℤ)) := by
  have hlt := initialBytes_lt hw dst
  rw [← cursorAt_zero]
  refine exists_whileLoop_iff (fun k : ℕ => (cursorAt dst src m k, (k : ℤ)))
    (fun k hk => ?_) (fun k hk => ?_) ?_
  · exact decide_eq_true fun hzero => hk.ne ((tmod_add_eq_zero_iff hw hk.le).1 hzero)
  · have hapart : Apart dst src (k + 1) := by
      unfold Apart at *
      omega
    simp only [copy_cursorAt hapart, Nat.cast_succ]
  · exact decide_eq_false (not_not_intro ((tmod_add_eq_zero_iff hw le_rfl).2 rfl))

/-- **The loop over the final bytes** stops at the end of the block. -/
theorem copyFinal_iff (h : Apart dst src n) {k : ℕ} (hk : k ≤ n) {tail : Cursor} :
    (∃ fuel, copyFinal (dst + n) fuel (cursorAt dst src m k) = some tail) ↔
      tail = cursorAt dst src m n.toNat := by
  have hend : k + (n.toNat - k) = n.toNat := by omega
  rw [← hend]
  refine exists_whileLoop_iff (fun j => cursorAt dst src m (k + j)) (fun j hj => ?_)
    (fun j hj => ?_) ?_
  · refine decide_eq_true ?_
    simp only [cursorAt]
    omega
  · refine copy_cursorAt ?_ m
    unfold Apart at *
    omega
  · refine decide_eq_false (not_not_intro ?_)
    simp only [cursorAt]
    omega

/-- **Word by word, the block is copied.** -/
theorem wordwiseCopy_iff {w : ℕ} (hw : 0 < w) (h : Apart dst src n) (hn : w ≤ n) :
    WordwiseCopy w dst src n m m' ↔ m' = copyBlock dst src n m := by
  have hlt := initialBytes_lt hw dst
  simp only [WordwiseCopy, copyInitial_iff hw h hn, exists_eq_left]
  generalize initialBytes w dst = i at *
  -- whole words fit into what the initial bytes leave
  have hq₀ : 0 ≤ (n - i).tdiv w := Int.tdiv_nonneg (by omega) (by omega)
  have hqw := Int.tdiv_mul_self (n - i) w
  have hrest : 0 ≤ (n - i).tmod w := Int.tmod_nonneg _ (by omega)
  obtain ⟨q, hq⟩ := Int.eq_ofNat_of_zero_le hq₀
  rw [hq] at hqw ⊢
  have hqw₀ : 0 ≤ (q : ℤ) * w := Int.mul_nonneg (Int.natCast_nonneg q) (Int.natCast_nonneg w)
  have hwords : Apart (dst + i) (src + i) (q * w) := h.mono (Int.natCast_nonneg i) (by omega)
  have hprefix : Apart dst src (i + q * w) := by
    unfold Apart at *
    omega
  have hbulk : ∀ mem, ParallelForRange (hostBytes ℤ) (copyWords w (dst + i) (src + i)) 0 q
      (copyBlock dst src i m) mem ↔ mem = copyBlock dst src (i + q * w) m := by
    intro mem
    rw [parallelForRange_copyWords hw (Int.natCast_nonneg q) hwords,
      copyBlock_append (Int.natCast_nonneg i) hqw₀ hprefix]
  have hfinal : ∀ tail, (∃ fuel, copyFinal (dst + n) fuel
      ⟨dst + i + q * w, src + i + q * w, copyBlock dst src (i + q * w) m⟩ = some tail) ↔
        tail = cursorAt dst src m n.toNat := by
    intro tail
    have hcursor : (⟨dst + i + q * w, src + i + q * w, copyBlock dst src (i + q * w) m⟩ : Cursor) =
        cursorAt dst src m (i + q * w) := by
      simp only [cursorAt, Nat.cast_add, Nat.cast_mul, add_assoc]
    rw [hcursor, copyFinal_iff h (by push_cast; omega)]
  simp only [cursorAt, hbulk, exists_eq_left, hfinal]
  rw [Int.toNat_of_nonneg (by omega)]

/-- **A long copy has one result**: the block, copied. -/
theorem hostspaceParallelDeepcopy_iff {concurrency : ℤ} (hn : 0 ≤ n) (h : Apart dst src n) :
    HostspaceParallelDeepcopy concurrency dst src n m m' ↔ m' = copyBlock dst src n m := by
  unfold HostspaceParallelDeepcopy
  split_ifs with hserial h8 h4
  · rfl
  · exact wordwiseCopy_iff (by decide) h (by simp only [SERIAL_LIMIT] at hserial; omega)
  · exact wordwiseCopy_iff (by decide) h (by simp only [SERIAL_LIMIT] at hserial; omega)
  · have hbytes : n * ((1 : ℕ) : ℤ) = n := by rw [Nat.cast_one, mul_one]
    rw [parallelForRange_copyWords Nat.one_pos hn (by rwa [hbytes]), hbytes]

end

end Kokkos

end KokkosStencil
