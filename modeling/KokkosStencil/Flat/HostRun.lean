import KokkosStencil.Flat.CpuJacobi
import KokkosStencil.Kokkos.HostLaunch

/-!
# The kernels of `cpu_parallel_jacobi.cpp` on the threads of the host

`hostFilter_iff` : with any number of threads, any schedule and any interleaving of the loads and
stores of bytes, the three kernels have one result, the one of `filter` for every choice of the
orders.
-/

namespace KokkosStencil

open Threads Kokkos

namespace CpuParallelJacobi

variable {R C : ℕ}

/-- The names of the buffers. -/
inductive BufferName where
  | pixelPtr
  | imgIn
  | imgOut
  deriving DecidableEq

/-- The buffers by their names. -/
def fields (R C : ℕ) : Fields (Memory R C) BufferName (InBuffer ((R + 2) * (C + 2) * 3)) UInt8 where
  field
    | s, .pixelPtr => s.pixelPtr
    | s, .imgIn => s.imgIn
    | s, .imgOut => s.imgOut
  setField
    | s, .pixelPtr, b => { s with pixelPtr := b }
    | s, .imgIn, b => { s with imgIn := b }
    | s, .imgOut, b => { s with imgOut := b }
  field_setField s n b := by cases n <;> rfl
  field_setField_of_ne s n n' b h := by cases n <;> cases n' <;> first | rfl | exact absurd rfl h
  setField_setField s n b b' := by cases n <;> rfl
  setField_comm s n n' b b' h := by cases n <;> cases n' <;> first | rfl | exact absurd rfl h

/-- `target(o) = source(o)` -/
def copyByte (target source : BufferName) (o : ℤ) : CodeBlock (BufferName × ℤ) UInt8 :=
  ⟨[(source, o)], [((target, o), fun vs => vs.headD 0)]⟩

/-- `target(o) = 0` -/
def clearByte (target : BufferName) (o : ℤ) : CodeBlock (BufferName × ℤ) UInt8 :=
  ⟨[], [((target, o), fun _ => 0)]⟩

/-- `init_image`, load by load. -/
def initKernel (C : ℕ) : Kernel (ℤ × ℤ) (BufferName × ℤ) UInt8
  | (i, j) =>
    let index := i * ((C + 2 : ℕ) : ℤ) * cn + j * cn
    [copyByte .imgIn .pixelPtr (index + 0), copyByte .imgIn .pixelPtr (index + 1),
      copyByte .imgIn .pixelPtr (index + 2), clearByte .imgOut (index + 0),
      clearByte .imgOut (index + 1), clearByte .imgOut (index + 2)]

/-- The means of the channels, from the values in the order in which `apply_jacobi` loads them. -/
def averages : List UInt8 → UInt8 × UInt8 × UInt8
  | [b, g, r, left_r, left_g, left_b, right_r, right_g, right_b, up_r, up_g, up_b, down_r, down_g,
      down_b] =>
    let avg_r := mean5 r left_r right_r up_r down_r
    let avg_g := mean5 g left_g right_g up_g down_g
    let avg_b := mean5 b left_b right_b up_b down_b
    (avg_b, avg_g, avg_r)
  | _ => (0, 0, 0)

/-- `apply_jacobi`, load by load. -/
def applyKernel (C : ℕ) : Kernel (ℤ × ℤ) (BufferName × ℤ) UInt8
  | (i, j) =>
    let index := i * C * cn + j * cn
    [{ loads := [index + 0, index + 1, index + 2,
        i * C * cn + (j - 1) * cn + 2, i * C * cn + (j - 1) * cn + 1, i * C * cn + (j - 1) * cn + 0,
        i * C * cn + (j + 1) * cn + 2, i * C * cn + (j + 1) * cn + 1, i * C * cn + (j + 1) * cn + 0,
        (i - 1) * C * cn + j * cn + 2, (i - 1) * C * cn + j * cn + 1, (i - 1) * C * cn + j * cn + 0,
        (i + 1) * C * cn + j * cn + 2, (i + 1) * C * cn + j * cn + 1,
        (i + 1) * C * cn + j * cn + 0].map (.imgIn, ·)
       stores := [((.imgOut, index + 0), fun vs => (averages vs).1),
        ((.imgOut, index + 1), fun vs => (averages vs).2.1),
        ((.imgOut, index + 2), fun vs => (averages vs).2.2)] }]

/-- `output_image`, load by load. -/
def outputKernel (C : ℕ) : Kernel (ℤ × ℤ) (BufferName × ℤ) UInt8
  | (i, j) =>
    let index := i * C * cn + j * cn
    [copyByte .pixelPtr .imgOut (index + 0), copyByte .pixelPtr .imgOut (index + 1),
      copyByte .pixelPtr .imgOut (index + 2)]

theorem body_initKernel (oob : BodyReads) :
    (initKernel C).body ((fields R C).storage oob) = initImage oob := by
  funext p s
  rfl

theorem body_applyKernel (oob : BodyReads) :
    (applyKernel C).body ((fields R C).storage oob) = applyJacobi oob := by
  funext p s
  rfl

theorem body_outputKernel (oob : BodyReads) :
    (outputKernel C).body ((fields R C).storage oob) = outputImage oob := by
  funext p s
  rfl

theorem raceFree_initKernel : (initKernel C).RaceFree (fullImage R C) :=
  raceFree_of_cells .pixelPtr [.imgIn, .imgOut] (by decide)
    (pixelBytes (C + 2)) (fun p => ⟨pixelBytes (C + 2) p, rfl⟩) (fun _ => rfl)
    fun _ hp _ hq => disjoint_pixelBytes hp hq

theorem raceFree_applyKernel : (applyKernel C).RaceFree (originalImage R C) :=
  raceFree_of_cells .imgIn [.imgOut] (by decide) (pixelBytes C)
    (fun p => ⟨_, List.append_nil _⟩) (fun _ => rfl) fun _ hp _ hq => disjoint_pixelBytes hp hq

theorem raceFree_outputKernel : (outputKernel C).RaceFree (originalImage R C) :=
  raceFree_of_cells .imgOut [.pixelPtr] (by decide) (pixelBytes C)
    (fun p => ⟨pixelBytes C p, rfl⟩) (fun _ => rfl) fun _ hp _ hq => disjoint_pixelBytes hp hq

/-! ### The program -/

/-- A launch of `init_image` on the threads of the host. -/
def HostInit (oob : BodyReads) (s s' : Memory R C) : Prop :=
  ParallelFor2 ((fields R C).storage oob) (initKernel C) (0, 0)
    (((R + 2 : ℕ) : ℤ), ((C + 2 : ℕ) : ℤ)) (1, 1) s s'

/-- A launch of `apply_jacobi` on the threads of the host. -/
def HostApply (oob : BodyReads) (s s' : Memory R C) : Prop :=
  ParallelFor2 ((fields R C).storage oob) (applyKernel C) (0, 0) ((R : ℤ), (C : ℤ)) (1, 1) s s'

/-- A launch of `output_image` on the threads of the host. -/
def HostOutput (oob : BodyReads) (s s' : Memory R C) : Prop :=
  ParallelFor2 ((fields R C).storage oob) (outputKernel C) (0, 0) ((R : ℤ), (C : ℤ)) (1, 1) s s'

/-- The three kernels on the threads of the host. -/
def HostFilter (oob : BodyReads) (s s' : Memory R C) : Prop :=
  ∃ s₁ s₂, HostInit oob s s₁ ∧ HostApply oob s₁ s₂ ∧ HostOutput oob s₂ s'

/-- A launch of a race-free kernel over a picture. -/
theorem parallelFor2_picture_iff {rows cols : ℕ} (hrows : rows < 2 ^ 31) (hcols : cols < 2 ^ 31)
    {oob : BodyReads} {K : Kernel (ℤ × ℤ) (BufferName × ℤ) UInt8}
    (hrace : K.RaceFree (mdRange2 (0, 0) ((rows : ℤ), (cols : ℤ))))
    (o : LaunchOrder (mdRange2 (0, 0) ((rows : ℤ), (cols : ℤ)))) {s s' : Memory R C} :
    ParallelFor2 ((fields R C).storage oob) K (0, 0) ((rows : ℤ), (cols : ℤ)) (1, 1) s s' ↔
      s' = launch o (K.body ((fields R C).storage oob)) s := by
  have hsize := mul_lt_of_intSized (m := rows) (n := cols) (by omega) (by omega) (by omega)
  refine parallelFor2_iff hrace ?_ ?_ ?_ o
  · simp only [ValidEntry]; omega
  · simp only [ValidEntry]; omega
  · simp only [Int.sub_zero]; omega

/-- **Every run of the threads is a run of `filter`**, for all orders. -/
theorem hostFilter_iff (h : IntSized R C) (oob : BodyReads) (o : Orders R C) {s s' : Memory R C} :
    HostFilter oob s s' ↔ s' = filter oob o s := by
  obtain ⟨hR, hC⟩ := h
  have hinit : ∀ {s s' : Memory R C}, HostInit oob s s' ↔
      s' = launch o.init (initImage oob) s := by
    rw [← body_initKernel]
    exact parallelFor2_picture_iff hR hC raceFree_initKernel o.init
  have happly : ∀ {s s' : Memory R C}, HostApply oob s s' ↔
      s' = launch o.apply (applyJacobi oob) s := by
    rw [← body_applyKernel]
    exact parallelFor2_picture_iff (by omega) (by omega) raceFree_applyKernel o.apply
  have houtput : ∀ {s s' : Memory R C}, HostOutput oob s s' ↔
      s' = launch o.output (outputImage oob) s := by
    rw [← body_outputKernel]
    exact parallelFor2_picture_iff (by omega) (by omega) raceFree_outputKernel o.output
  simp only [HostFilter, hinit, happly, houtput, exists_and_left, exists_eq_left]
  rfl

end CpuParallelJacobi

end KokkosStencil
