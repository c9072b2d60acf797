import KokkosStencil.Kokkos.HostLaunch
import KokkosStencil.Test.Main

/-!
# The kernels of `test/jacobi.cpp` on the threads of the host

The memory of the kernels is a pair of arrays of `double`s and the bytes of the picture.  A load
from the picture converts a byte to a `double`, and a store to the picture converts back.

* `hostFilter_iff` : with any number of threads, any schedule and any interleaving of the loads and
  stores, the launches have one result, the one of `filter` for every choice of the orders;
* `testMain_iff` : what the program saves.
-/

namespace KokkosStencil

open Threads Kokkos

namespace TestJacobi

variable {N M : ℕ}

/-- The names of the arrays. -/
inductive ArrayName where
  | A
  | ANew
  deriving DecidableEq

/-- An entry of an array, or a byte behind `pixelPtr`. -/
abbrev Cell := (ArrayName × Ix) ⊕ ℤ

/-- The arrays by their names. -/
def fields (N M : ℕ) : Fields (Arrays N M) ArrayName (InExtents N M) ℚ where
  field
    | s, .A => s.A
    | s, .ANew => s.ANew
  setField
    | s, .A, v => { s with A := v }
    | s, .ANew, v => { s with ANew := v }
  field_setField s n v := by cases n <;> rfl
  field_setField_of_ne s n n' v h := by cases n <;> cases n' <;> first | rfl | exact absurd rfl h
  setField_setField s n v w := by cases n <;> rfl
  setField_comm s n n' v w h := by cases n <;> cases n' <;> first | rfl | exact absurd rfl h

/-- The arrays and the bytes of the picture. -/
abbrev Memory (N M : ℕ) := Arrays N M × Buffer (N * M * 3)

/-- The memory, cell by cell. -/
def storage (N M : ℕ) (wild : Wild) : Storage (Memory N M) Ix Cell ℚ :=
  ((fields N M).storage fun _ => wild.entry).prod
    (.ofRegion (fun _ => wild.byte) (fun b => (b.toNat : ℚ)) (toUInt8 wild.conversion))

/-- `"Initialize"`, load by load. -/
def initKernel (M : ℕ) : Kernel Ix Cell ℚ
  | (i, j, c) =>
    [⟨[.inr (i * M * cn + j * cn + c)], [(.inl (.A, (i, j, c)), fun vs => vs.headD 0)]⟩,
      ⟨[], [(.inl (.ANew, (i, j, c)), fun _ => 0)]⟩]

/-- The expression of `"Jacobi"`, from the values in the order in which it loads them. -/
def meanOf : List ℚ → ℚ
  | [a, down, up, right, left] => meanDoubles a down up right left
  | _ => 0

/-- `"Jacobi"`, load by load. -/
def jacobiKernel (N M : ℕ) : Kernel Ix Cell ℚ
  | (i, j, c) =>
    if Inner N M (i, j) then
      [⟨[.inl (.A, (i, j, c)), .inl (.A, (i + 1, j, c)), .inl (.A, (i - 1, j, c)),
        .inl (.A, (i, j + 1, c)), .inl (.A, (i, j - 1, c))], [(.inl (.ANew, (i, j, c)), meanOf)]⟩]
    else []

/-- `"output_image"`, load by load. -/
def outputKernel (M : ℕ) : Kernel Ix Cell ℚ
  | (i, j, c) =>
    [⟨[.inl (.ANew, (i, j, c))], [(.inr (i * M * cn + j * cn + c), fun vs => vs.headD 0)]⟩]

theorem body_initKernel (wild : Wild) : (initKernel M).body (storage N M wild) =
    fun x m => (initializeBody wild.byte m.2 x m.1, m.2) := by
  funext x m
  rfl

theorem body_jacobiKernel (wild : Wild) : (jacobiKernel N M).body (storage N M wild) =
    fun x m => (jacobiDouble wild.entry x m.1, m.2) := by
  funext ⟨i, j, c⟩ m
  simp only [Kernel.body, jacobiKernel, jacobiDouble]
  split_ifs <;> rfl

theorem body_outputKernel (wild : Wild) : (outputKernel M).body (storage N M wild) =
    fun x m => (m.1, outputImage wild.conversion wild.entry m.1.ANew x m.2) := by
  funext x m
  rfl

/-- The only index whose body stores to a cell. -/
def owner (M : ℕ) : Cell → Ix
  | .inl a => a.2
  | .inr o => unpix M o

theorem raceFree_initKernel : (initKernel M).RaceFree (policy N M) := by
  refine raceFree_of_owner (owner M) (fun a => a.isLeft) (fun x _ a ha => ?_) fun x _ a ha => ?_
  · have ha' : a = .inr (pix M x) := List.mem_singleton.1 ha
    subst ha'
    exact Bool.false_ne_true
  · have ha' : a ∈ [(.inl (.A, x) : Cell), .inl (.ANew, x)] := ha
    simp only [List.mem_cons, List.not_mem_nil, or_false] at ha'
    rcases ha' with rfl | rfl
    · exact ⟨rfl, rfl⟩
    · exact ⟨rfl, rfl⟩

theorem raceFree_jacobiKernel : (jacobiKernel N M).RaceFree (policy N M) := by
  refine raceFree_of_owner (owner M) (fun a => ∃ x, a = .inl (.ANew, x)) (fun x _ a ha => ?_)
    fun x _ a ha => ?_
  · rintro ⟨y, rfl⟩
    simp only [Kernel.loads, jacobiKernel] at ha
    split_ifs at ha
    · simp at ha
    · simp at ha
  · simp only [Kernel.stores, jacobiKernel] at ha
    split_ifs at ha
    · have ha' : a = .inl (.ANew, x) := List.mem_singleton.1 ha
      exact ⟨⟨x, ha'⟩, congrArg (owner M) ha'⟩
    · cases ha

theorem raceFree_outputKernel : (outputKernel M).RaceFree (policy N M) := by
  refine raceFree_of_owner (owner M) (fun a => a.isRight) (fun x _ a ha => ?_) fun x hx a ha => ?_
  · have ha' : a = .inl (.ANew, x) := List.mem_singleton.1 ha
    subst ha'
    exact Bool.false_ne_true
  · have ha' : a = .inr (pix M x) := List.mem_singleton.1 ha
    subst ha'
    exact ⟨rfl, unpix_pix (mem_policy.1 hx)⟩

/-! ### The program -/

/-- A launch over `{0, 0, 0}, {N, M, 3}` on the threads of the host. -/
def HostLaunch (wild : Wild) (K : Kernel Ix Cell ℚ) (m m' : Memory N M) : Prop :=
  ParallelFor3 (storage N M wild) K (0, 0, 0) ((N : ℤ), (M : ℤ), 3) (0, 0, 0) m m'

/-- `initialize`, the loop of `jacobi_iteration` and `"output_image"` on the threads of the host. -/
def HostFilter (wild : Wild) (iterations : ℕ) (pixelPtr pixelPtr' : Buffer (N * M * 3)) : Prop :=
  ∃ (s : Arrays N M) (m₁ m₂ : Memory N M),
    HostLaunch wild (initKernel M) (⟨zeros N M, zeros N M⟩, pixelPtr) m₁ ∧
    Steps (fun _ => HostLaunch wild (jacobiKernel N M)) iterations m₁ m₂ ∧
    HostLaunch wild (outputKernel M) m₂ (s, pixelPtr')

/-- Sizes whose extents are `int`s. -/
def IntExtents (N M : ℕ) : Prop := N < 2 ^ 31 ∧ M < 2 ^ 31

theorem hostLaunch_iff (h : IntExtents N M) (wild : Wild) {K : Kernel Ix Cell ℚ}
    (hrace : K.RaceFree (policy N M)) (o : LaunchOrder (policy N M)) {m m' : Memory N M} :
    HostLaunch wild K m m' ↔ m' = launch o (K.body (storage N M wild)) m := by
  obtain ⟨hN, hM⟩ := h
  have hsize := mul_lt_of_intSized (m := N) (n := M) (by omega) (by omega) (by omega)
  refine parallelFor3_iff hrace ?_ ?_ ?_ ?_ o
  · simp only [ValidEntry]; omega
  · simp only [ValidEntry]; omega
  · simp only [ValidEntry]; omega
  · simp only [Int.sub_zero]
    rw [← mul_assoc]
    omega

/-- **Every run of the threads is a run of `filter`**, for all orders. -/
theorem hostFilter_iff (h : IntExtents N M) (wild : Wild) (o : Orders N M) {iterations : ℕ}
    {pixelPtr pixelPtr' : Buffer (N * M * 3)} : HostFilter wild iterations pixelPtr pixelPtr' ↔
      pixelPtr' = filter wild o iterations pixelPtr := by
  have hinit : ∀ {m : Memory N M}, HostLaunch wild (initKernel M)
      (⟨zeros N M, zeros N M⟩, pixelPtr) m ↔
        m = (initializeArrays wild.byte pixelPtr o.init ⟨zeros N M, zeros N M⟩, pixelPtr) := by
    intro m
    rw [hostLaunch_iff h wild raceFree_initKernel o.init, body_initKernel, launch_fst]
    rfl
  have hjacobi : ∀ {t : ℕ} {m m' : Memory N M},
      Steps (fun _ => HostLaunch wild (jacobiKernel N M)) t m m' ↔
        m' = (jacobiIterationDouble wild.entry o.jacobi t m.1, m.2) := by
    refine steps_iff (fun t m => (jacobiIterationDouble wild.entry o.jacobi t m.1, m.2))
      (fun t m => (launch (o.jacobi t) (jacobiDouble wild.entry) m.1, m.2)) (fun t m m' => ?_)
      (fun _ => rfl) fun _ _ => rfl
    rw [hostLaunch_iff h wild raceFree_jacobiKernel (o.jacobi t), body_jacobiKernel,
      launch_fst _ fun _ => jacobiDouble wild.entry]
  have houtput : ∀ {s : Arrays N M} {m : Memory N M},
      HostLaunch wild (outputKernel M) m (s, pixelPtr') ↔ s = m.1 ∧
        pixelPtr' = launch o.output (outputImage wild.conversion wild.entry m.1.ANew) m.2 := by
    intro s m
    rw [hostLaunch_iff h wild raceFree_outputKernel o.output, body_outputKernel,
      launch_snd _ fun t : Arrays N M => outputImage wild.conversion wild.entry t.ANew,
      Prod.mk.injEq]
  simp only [HostFilter, hinit, hjacobi, houtput, exists_and_left, exists_eq_left]
  rfl

/-- `main`, from the picture that was read to the pictures that are written, unless the picture is
empty.  `fresh` are the bytes of the newly allocated `mColorNoise`. -/
def HostMain (noiseIter iterations : ℕ) (wild : Wild) (noise : ℕ → NoiseField N M)
    (fresh img : Image N M) (result : Option (Saved N M)) : Prop :=
  if N = 0 ∨ M = 0 then result = none
  else
    let s := noiseLoop noiseIter noise (Mats.start img fresh)
    ∃ pixelPtr, HostFilter wild iterations (s.heap s.front).data pixelPtr ∧
      result = some ⟨Image.ofData pixelPtr, s.heap s.back⟩

theorem hostMain_iff_main (h : IntExtents N M) (o : Orders N M) (noiseIter iterations : ℕ)
    (wild : Wild) (noise : ℕ → NoiseField N M) (fresh img : Image N M)
    (result : Option (Saved N M)) : HostMain noiseIter iterations wild noise fresh img result ↔
      result = main noiseIter iterations wild o noise fresh img := by
  by_cases hempty : N = 0 ∨ M = 0
  · rw [HostMain, main, if_pos hempty, if_pos hempty]
  · rw [HostMain, main, if_neg hempty, if_neg hempty]
    simp only [hostFilter_iff h wild o, exists_eq_left]

/-- **What the program saves**, in all runs of the threads and after any positive number of
iterations: the truncated means of the picture with all rounds of noise but the last, black along
the boundary, and the picture with all rounds.  The rounding of `double` does not show. -/
theorem testMain_iff (h : IntExtents N M) (n t : ℕ) (wild : Wild) (noise : ℕ → NoiseField N M)
    (fresh img : Image N M) (result : Option (Saved N M)) :
    HostMain (n + 1) (t + 1) wild noise fresh img result ↔
      result = if N = 0 ∨ M = 0 then none
        else some ⟨filtered (rounds noise img n), rounds noise img (n + 1)⟩ := by
  let o : Orders N M := ⟨.inOrder _, fun _ => .inOrder _, .inOrder _⟩
  rw [hostMain_iff_main h o, main_eq]

/-- A white `3 × 3` picture without noise. -/
theorem testMain_three :
    HostMain 1 1 ⟨fun _ => 0, fun _ => 0, fun _ => 0⟩ (fun _ _ => 0) (fun _ => 0)
      (fun _ => 255 : Image 3 3)
      (some ⟨filtered fun _ => 255, rounds (fun _ _ => 0) (fun _ => 255) 1⟩) :=
  (testMain_iff ⟨by decide, by decide⟩ 0 0 _ _ _ _ _).2 rfl

end TestJacobi

end KokkosStencil
