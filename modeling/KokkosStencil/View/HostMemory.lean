import KokkosStencil.Kokkos.CopyViews
import KokkosStencil.Run.Relocate
import KokkosStencil.View.Channels
import KokkosStencil.View.Threads

/-!
# The loops of the parallel programs in host memory

In a host build the views are `LayoutLeft` blocks of one byte-addressed memory.  The threads load
and store bytes at the addresses of the elements, and `deep_copy` moves bytes or words.

* `HostViews.address_injOn` : different elements of the two views have different addresses;
* `redBlack_memory_iff`, `wave_memory_iff` : every run of the threads turns a memory that holds the
  views into the memory that holds what `loop` makes of them, and changes nothing outside;
* `ParallelJacobi.raceFree_memory_iff` : the stray loads of `apply_jacobi` race with its stores iff
  the views are less than a column apart;
* `jacobi_memory_iff` : otherwise the runs are those of `loopLeft`, with the bytes around `img_in`.
-/

namespace KokkosStencil

open Threads FlatMemory Kokkos

variable {R C : ℕ}

/-- `img_in` and `img_out` in host memory. -/
structure HostViews (R C : ℕ) where
  /-- `img_in` -/
  imgIn : HostView
  /-- `img_out` -/
  imgOut : HostView
  imgIn_extents : imgIn.extents = (R + 2, C + 2, 3)
  imgOut_extents : imgOut.extents = (R + 2, C + 2, 3)
  apart : Apart imgIn.data imgOut.data ((R + 2) * (C + 2) * 3 : ℕ)

namespace HostViews

variable (V : HostViews R C)

/-- `data()` of a view -/
def base : ViewName → ℤ
  | .imgIn => V.imgIn.data
  | .imgOut => V.imgOut.data

/-- The address of an element of a view. -/
def address (c : ViewName × Ix) : ℤ := V.base c.1 + leftOffset (R + 2) (C + 2) c.2

/-- The elements of the views. -/
def Element (R C : ℕ) (c : ViewName × Ix) : Prop := InExtents (R + 2) (C + 2) c.2

/-- Address `a` is in the block of a view. -/
def InBlock (n : ViewName) (a : ℤ) : Prop := InBuffer ((R + 2) * (C + 2) * 3) (a - V.base n)

instance (n : ViewName) : DecidablePred (V.InBlock n) :=
  fun _ => inferInstanceAs (Decidable (InBuffer _ _))

/-- The memory `m` with the views at their places. -/
def memory (m : ℤ → UInt8) (s : Views R C) : ℤ → UInt8 := fun a =>
  s.imgIn.leftData.read (fun _ => s.imgOut.leftData.read (fun _ => m a) (a - V.base .imgOut))
    (a - V.base .imgIn)

theorem inBlock_address {c : ViewName × Ix} (hc : Element R C c) : V.InBlock c.1 (V.address c) := by
  rw [InBlock, address, add_sub_cancel_left]
  exact inBuffer_leftOffset hc

/-- No address is in both blocks. -/
theorem eq_of_inBlock {n n' : ViewName} {a : ℤ} (h : V.InBlock n a) (h' : V.InBlock n' a) :
    n = n' := by
  have hapart := V.apart
  unfold Apart at hapart
  unfold InBlock InBuffer at h h'
  cases n <;> cases n' <;> simp only [base] at h h' <;> first | rfl | omega

/-- **Different elements have different addresses.** -/
theorem address_injOn : Set.InjOn V.address {c | Element R C c} := by
  rintro ⟨n, x⟩ hx ⟨n', y⟩ hy h
  have hname : n = n' := by
    have hblock := V.inBlock_address hy
    rw [← h] at hblock
    exact V.eq_of_inBlock (V.inBlock_address hx) hblock
  subst hname
  have hoffset : leftOffset (R + 2) (C + 2) x = leftOffset (R + 2) (C + 2) y := add_left_cancel h
  have hix : x = y := by
    rw [← unleft_leftOffset (x := x) hx, hoffset, unleft_leftOffset hy]
  rw [hix]

theorem memory_of_imgIn (m : ℤ → UInt8) (s : Views R C) {a : ℤ} (h : V.InBlock .imgIn a) :
    V.memory m s a = s.imgIn.leftData ⟨a - V.base .imgIn, h⟩ :=
  Region.read_of_valid (P := InBuffer _) h

theorem memory_of_imgOut (m : ℤ → UInt8) (s : Views R C) {a : ℤ} (h : V.InBlock .imgOut a) :
    V.memory m s a = s.imgOut.leftData ⟨a - V.base .imgOut, h⟩ := by
  have hin : ¬ V.InBlock .imgIn a := fun h' => ViewName.noConfusion (V.eq_of_inBlock h h')
  exact (Region.read_of_invalid (P := InBuffer _) hin).trans
    (Region.read_of_valid (P := InBuffer _) h)

theorem memory_of_not_inBlock (m : ℤ → UInt8) (s : Views R C) {a : ℤ} (h : ∀ n, ¬ V.InBlock n a) :
    V.memory m s a = m a :=
  (Region.read_of_invalid (P := InBuffer _) (h .imgIn)).trans
    (Region.read_of_invalid (P := InBuffer _) (h .imgOut))

theorem not_inBlock {a : ℤ} (hin : ¬ V.InBlock .imgIn a) (hout : ¬ V.InBlock .imgOut a) :
    ∀ n, ¬ V.InBlock n a := fun n => by cases n <;> assumption

/-- Every address of a block is that of an element. -/
theorem address_unleft {n : ViewName} {a : ℤ} :
    V.address (n, unleft (R + 2) (C + 2) (a - V.base n)) = a := by
  rw [address, leftOffset_unleft, add_sub_cancel]

/-- What a memory holds at the elements. -/
theorem memory_address {κ : Type*} (oob : κ → Ix → UInt8) (x : κ) (m : ℤ → UInt8) (s : Views R C)
    {c : ViewName × Ix} (hc : Element R C c) :
    V.memory m s (V.address c) = (Views.storage R C oob).get x s c := by
  obtain ⟨n, y⟩ := c
  have hblock := V.inBlock_address hc
  have helement : ∀ v : Image (R + 2) (C + 2), ∀ h,
      v.leftData ⟨V.address (n, y) - V.base n, h⟩ = v.read (oob x) y := by
    intro v h
    rw [Region.read_of_valid (P := InExtents (R + 2) (C + 2)) hc]
    refine congrArg v (Subtype.ext ?_)
    simp only [address, add_sub_cancel_left]
    exact unleft_leftOffset hc
  cases n with
  | imgIn => exact (V.memory_of_imgIn m s hblock).trans (helement s.imgIn hblock)
  | imgOut => exact (V.memory_of_imgOut m s hblock).trans (helement s.imgOut hblock)

/-- Every address is that of an element or outside the blocks. -/
theorem element_or_not_inBlock (a : ℤ) :
    (∃ c, Element R C c ∧ V.address c = a) ∨ ∀ n, ¬ V.InBlock n a := by
  by_cases hblock : ∃ n, V.InBlock n a
  · obtain ⟨n, hn⟩ := hblock
    exact Or.inl ⟨(n, unleft (R + 2) (C + 2) (a - V.base n)), inExtents_unleft hn,
      V.address_unleft⟩
  · exact Or.inr fun n hn => hblock ⟨n, hn⟩

/-- The views that a memory holds. -/
def views (m : ℤ → UInt8) : Views R C :=
  ⟨fun x => m (V.address (.imgIn, x)), fun x => m (V.address (.imgOut, x))⟩

theorem get_set {κ : Type*} (oob : κ → Ix → UInt8) (x : κ) (s : Views R C) {c : ViewName × Ix}
    (hc : Element R C c) (v : UInt8) :
    (Views.storage R C oob).get x ((Views.storage R C oob).set s c v) c = v := by
  simp only [Views.storage, Fields.storage, (Views.fields R C).field_setField]
  rw [Region.read_write (P := InExtents (R + 2) (C + 2)) hc, Function.update_self]

/-- A store to an element changes the byte at its address. -/
theorem memory_set {κ : Type*} (oob : κ → Ix → UInt8) (m : ℤ → UInt8) (s : Views R C)
    {c : ViewName × Ix} (hc : Element R C c) (v : UInt8) :
    V.memory m ((Views.storage R C oob).set s c v) =
      Function.update (V.memory m s) (V.address c) v := by
  -- stores do not depend on what stray loads return
  let M := Views.storage R C fun (_ : Unit) _ => 0
  change V.memory m (M.set s c v) = _
  funext a
  rcases V.element_or_not_inBlock a with ⟨d, hd, rfl⟩ | hnone
  · rw [V.memory_address _ () _ _ hd]
    by_cases hcd : c = d
    · subst hcd
      rw [Function.update_self]
      exact get_set _ () s hc v
    · rw [Function.update_of_ne fun e => hcd (V.address_injOn hc hd e.symm),
        V.memory_address _ () _ _ hd]
      exact M.get_set_of_ne () s v hcd
  · have hne : a ≠ V.address c := fun e => hnone c.1 (e ▸ V.inBlock_address hc)
    rw [Function.update_of_ne hne, V.memory_of_not_inBlock _ _ hnone,
      V.memory_of_not_inBlock _ _ hnone]

/-- The views are a part of the memory, for bodies that stay inside the extents. -/
theorem embeds {κ : Type*} (oob : κ → Ix → UInt8) (m : ℤ → UInt8) :
    Embeds (Views.storage R C oob) V.address (V.memory m) (Element R C) (Element R C) where
  own ha hb h := V.address_injOn ha (hb.elim id id) h
  get x s _ hc := V.memory_address oob x m s hc
  set s _ v hc := V.memory_set oob m s hc v

/-- **`deep_copy(img_in, img_out)` in memory.** -/
theorem deepCopy_memory {concurrency : ℤ} (m : ℤ → UInt8) (s : Views R C)
    {r : Except String (ℤ → UInt8)} :
    DeepCopy concurrency V.imgIn V.imgOut (V.memory m s) r ↔ r = .ok (V.memory m s.deepCopy) := by
  have hspan : V.imgIn.span = ((R + 2) * (C + 2) * 3 : ℕ) := by
    rw [HostView.span, V.imgIn_extents]
  have hextents : V.imgIn.extents = V.imgOut.extents := V.imgIn_extents.trans V.imgOut_extents.symm
  have hcopied : copyBlock V.imgIn.data V.imgOut.data V.imgIn.span (V.memory m s) =
      V.memory m s.deepCopy := by
    funext a
    have hblock : V.imgIn.data ≤ a ∧ a < V.imgIn.data + V.imgIn.span ↔ V.InBlock .imgIn a := by
      simp only [hspan, InBlock, InBuffer, base]
      omega
    by_cases hin : V.InBlock .imgIn a
    · have hout : V.InBlock .imgOut (V.imgOut.data + (a - V.imgIn.data)) := by
        rw [InBlock, base, add_sub_cancel_left]
        exact hin
      rw [copyBlock_of_mem (hblock.2 hin), V.memory_of_imgOut m s hout,
        V.memory_of_imgIn m s.deepCopy hin]
      exact congrArg s.imgOut.leftData (Subtype.ext (add_sub_cancel_left _ _))
    · rw [copyBlock_of_notMem fun h => hin (hblock.1 h)]
      by_cases hout : V.InBlock .imgOut a
      · rw [V.memory_of_imgOut m s hout, V.memory_of_imgOut m s.deepCopy hout]
        rfl
      · have hnone := V.not_inBlock hin hout
        rw [V.memory_of_not_inBlock m s hnone, V.memory_of_not_inBlock m s.deepCopy hnone]
  rw [deepCopy_of_apart hextents (hspan ▸ V.apart), hcopied]

/-- Every memory holds some views at their places. -/
theorem memory_views (m : ℤ → UInt8) : V.memory m (V.views m) = m := by
  funext a
  rcases V.element_or_not_inBlock a with ⟨⟨n, x⟩, hx, rfl⟩ | hnone
  · rw [V.memory_address (fun (_ : Unit) _ => 0) () _ _ hx]
    have hread : ∀ v : Image (R + 2) (C + 2), v.read (fun _ => 0) x = v ⟨x, hx⟩ :=
      fun _ => Region.read_of_valid (P := InExtents (R + 2) (C + 2)) hx
    cases n with
    | imgIn => exact hread (V.views m).imgIn
    | imgOut => exact hread (V.views m).imgOut
  · exact V.memory_of_not_inBlock _ _ hnone

/-- What bodies access that store means to elements. -/
theorem within_map_meanBlock {κ : Type*} {policy : List κ} {Loaded Stored : ViewName × Ix → Prop}
    (cells : κ → List Ix) (reads : Ix → List Ix)
    (h : ∀ x ∈ policy, ∀ y ∈ cells x,
      (∀ z ∈ reads y, Loaded (.imgIn, z)) ∧ Stored (.imgOut, y)) :
    Kernel.Within (fun x => (cells x).map (Views.meanBlock reads)) Loaded Stored policy := by
  intro x hx
  simp only [Kernel.loads, Kernel.stores, List.flatMap_map, Views.meanBlock, List.mem_flatMap,
    List.mem_map, List.map_cons, List.map_nil, List.mem_singleton]
  constructor
  · rintro c ⟨y, hy, z, hz, rfl⟩
    exact (h x hx y hy).1 z hz
  · rintro c ⟨y, hy, rfl⟩
    exact (h x hx y hy).2

/-- The views of a `1 × 1` picture at the addresses `64` and `128`. -/
def oneByOne : HostViews 1 1 where
  imgIn := ⟨"image_pad", 64, (3, 3, 3), by decide⟩
  imgOut := ⟨"image_out", 128, (3, 3, 3), by decide⟩
  imgIn_extents := rfl
  imgOut_extents := rfl
  apart := by unfold Apart; decide

end HostViews

/-! ### `parallel_gauss_seidel.cpp` -/

namespace ParallelGaussSeidel

theorem within_kernel (colour : ℤ) :
    (kernel colour).Within (HostViews.Element R C) (HostViews.Element R C)
      (gaussOriginalImage R C) := by
  rw [kernel_eq]
  refine HostViews.within_map_meanBlock _ stencilReads fun x hx y hy => ?_
  rw [eq_of_mem_cells hy]
  exact ⟨fun z hz => inExtents_stencilReads hx hz,
    Views.inExtents_of_interiorIx (mem_gaussOriginalImage.1 hx)⟩

/-- A launch of `apply_gauss_red` or `apply_gauss_black` on memory. -/
def MemoryLaunch (V : HostViews R C) (colour : ℤ) (m m' : ℤ → UInt8) : Prop :=
  ParallelFor3 (hostBytes Ix) ((kernel colour).relocate V.address) (1, 1, 0)
    ((R + 2 : ℤ) - 1, (C + 2 : ℤ) - 1, cn) (1, 1, 1) m m'

/-- An iteration of the loop on memory. -/
def MemoryIteration (V : HostViews R C) (concurrency : ℤ) (m m' : ℤ → UInt8) : Prop :=
  ∃ m₁ m₂, MemoryLaunch V RED m m₁ ∧ MemoryLaunch V BLACK m₁ m₂ ∧
    DeepCopy concurrency V.imgIn V.imgOut m₂ (.ok m')

theorem memoryLaunch_iff (h : IntSized R C) (V : HostViews R C) (colour : ℤ) (oob : Ix → UInt8)
    (o : LaunchOrder (gaussOriginalImage R C)) {m m' : ℤ → UInt8} {s : Views R C} :
    MemoryLaunch V colour (V.memory m s) m' ↔
      m' = V.memory m (launch o (applyGauss colour oob) s) := by
  have hembeds := V.embeds (fun (_ : Ix) => oob) m
  have hrace := hembeds.raceFree_relocate (raceFree_kernel colour) (within_kernel colour)
  rw [MemoryLaunch, parallelFor_gaussOriginalImage_iff h hrace o, ← body_kernel,
    ← hembeds.launch (within_kernel colour)]

/-- **In memory every run of the threads is a run of `loop`** on the views, and nothing outside the
views changes. -/
theorem redBlack_memory_iff (h : IntSized R C) (V : HostViews R C) (concurrency : ℤ)
    (oob : Ix → UInt8) (orders : ℕ → Orders R C) {t : ℕ} {m m' : ℤ → UInt8} :
    Steps (fun _ => MemoryIteration V concurrency) t m m' ↔
      m' = V.memory m (loop oob orders t (V.views m)) := by
  have hstep : ∀ t (s : Views R C) m', MemoryIteration V concurrency (V.memory m s) m' ↔
      m' = V.memory m (iteration oob (orders t) s) := by
    intro t s m'
    simp only [MemoryIteration, memoryLaunch_iff h V RED oob (orders t).red, exists_and_left,
      exists_eq_left, memoryLaunch_iff h V BLACK oob (orders t).black, V.deepCopy_memory,
      Except.ok.injEq]
    rfl
  have hrun : Steps (fun _ => MemoryIteration V concurrency) t (V.memory m (V.views m)) m' ↔
      m' = V.memory m (loop oob orders t (V.views m)) :=
    steps_map_iff (V.memory m) (loop oob orders) (fun t => iteration oob (orders t)) hstep
      (fun _ => rfl) fun _ _ => rfl
  rwa [V.memory_views] at hrun

/-- The threads take a memory full of `7`s through two iterations. -/
theorem redBlack_memory_one_one : Steps (fun _ => MemoryIteration HostViews.oneByOne 4) 2
    (fun _ => 7) (HostViews.oneByOne.memory (fun _ => 7)
      (loop (fun _ => 0) (fun _ => Orders.inOrder 1 1) 2 (HostViews.oneByOne.views fun _ => 7))) :=
  (redBlack_memory_iff ⟨by decide, by decide⟩ _ _ _ _).2 rfl

end ParallelGaussSeidel

/-! ### `parallel_wave_gauss_seidel.cpp` -/

namespace ParallelWaveGaussSeidel

theorem within_kernel {n : ℤ} (hshape : HandlesShape n R C) {k : ℤ}
    (hk : k ∈ Int.range 1 (diagonals n + 1)) :
    (kernel n k).Within (HostViews.Element R C) (HostViews.Element R C) (diagonalRange n k) := by
  rw [kernel_eq]
  refine HostViews.within_map_meanBlock _ stencilReads fun idx hidx x hx => ?_
  have hinside := hshape.inside x (List.mem_flatMap.2 ⟨k, hk, List.mem_flatMap.2 ⟨idx, hidx, hx⟩⟩)
  exact ⟨fun z hz => hinside z (List.mem_cons_of_mem _ hz), hinside x List.mem_cons_self⟩

/-- A launch of `apply_gauss_diag` on memory. -/
def MemoryLaunch (V : HostViews R C) (n k : ℤ) (m m' : ℤ → UInt8) : Prop :=
  ParallelForRange (hostBytes ℤ) ((kernel n k).relocate V.address) 0 (if k < n then k else n) m m'

/-- An iteration of the loop on memory. -/
def MemoryIteration (V : HostViews R C) (concurrency n : ℤ) (m m' : ℤ → UInt8) : Prop :=
  ∃ m₁, Chain (MemoryLaunch V n) (Int.range 1 (diagonals n + 1)) m m₁ ∧
    DeepCopy concurrency V.imgIn V.imgOut m₁ (.ok m')

theorem memoryLaunch_iff {n : ℤ} (hshape : HandlesShape n R C) (V : HostViews R C) {k : ℤ}
    (hk : k ∈ Int.range 1 (diagonals n + 1)) (oob : Ix → UInt8)
    (o : LaunchOrder (diagonalRange n k)) {m m' : ℤ → UInt8} {s : Views R C} :
    MemoryLaunch V n k (V.memory m s) m' ↔
      m' = V.memory m (launch o (applyGaussDiag n k oob) s) := by
  have hin := within_kernel hshape hk
  have hembeds := V.embeds (fun (_ : ℤ) => oob) m
  have hrace := hembeds.raceFree_relocate (raceFree_kernel n k) hin
  rw [← body_kernel, ← hembeds.launch hin]
  exact parallelForRange_iff le_rfl (by norm_num) hrace o

/-- **In memory every run of the threads is a run of `loop`** on the views of a picture that the
side fits, and nothing outside the views changes. -/
theorem wave_memory_iff {n : ℤ} (hshape : HandlesShape n R C) (V : HostViews R C) (concurrency : ℤ)
    (oob : Ix → UInt8) (orders : ℕ → Orders n) {t : ℕ} {m m' : ℤ → UInt8} :
    Steps (fun _ => MemoryIteration V concurrency n) t m m' ↔
      m' = V.memory m (loop n oob orders t (V.views m)) := by
  have hchain : ∀ t (s : Views R C) m', Chain (MemoryLaunch V n) (Int.range 1 (diagonals n + 1))
      (V.memory m s) m' ↔ m' = V.memory m ((Int.range 1 (diagonals n + 1)).foldl
        (fun s k => launch (orders t k) (applyGaussDiag n k oob) s) s) :=
    fun t s m' => chain_map_iff (V.memory m)
      fun k hk s m' => memoryLaunch_iff hshape V hk oob (orders t k)
  have hstep : ∀ t (s : Views R C) m', MemoryIteration V concurrency n (V.memory m s) m' ↔
      m' = V.memory m (iteration n oob (orders t) s) := by
    intro t s m'
    simp only [MemoryIteration, hchain t, exists_eq_left, V.deepCopy_memory, Except.ok.injEq]
    rfl
  have hrun : Steps (fun _ => MemoryIteration V concurrency n) t (V.memory m (V.views m)) m' ↔
      m' = V.memory m (loop n oob orders t (V.views m)) :=
    steps_map_iff (V.memory m) (loop n oob orders) (fun t => iteration n oob (orders t)) hstep
      (fun _ => rfl) fun _ _ => rfl
  rwa [V.memory_views] at hrun

/-- The threads take a memory full of `7`s through two iterations. -/
theorem wave_memory_one_one : Steps (fun _ => MemoryIteration HostViews.oneByOne 4 1) 2
    (fun _ => 7) (HostViews.oneByOne.memory (fun _ => 7)
      (loop 1 (fun _ => 0) (fun _ => inOrder 1) 2 (HostViews.oneByOne.views fun _ => 7))) :=
  (wave_memory_iff (handlesShape_square 1) _ _ _ _).2 rfl

end ParallelWaveGaussSeidel

/-! ### `parallel_jacobi.cpp` -/

namespace ParallelJacobi

/-- Between the blocks of the views there is room for a column. -/
def RoomForColumn (V : HostViews R C) : Prop :=
  Apart V.imgIn.data V.imgOut.data (((R + 2) * (C + 2) * 3 : ℕ) + (R + 2 : ℤ))

instance (V : HostViews R C) : Decidable (RoomForColumn V) :=
  inferInstanceAs (Decidable (Apart _ _ _))

/-- The bytes of a memory by their offsets from `img_in`. -/
def around (V : HostViews R C) (m : ℤ → UInt8) (o : ℤ) : UInt8 := m (V.imgIn.data + o)

/-- The views as the bodies access them: loads from `img_in` are not checked, and nothing is stored
there. -/
def leftStorage (R C : ℕ) (mem : ℤ → UInt8) :
    Storage (Views R C) (ℤ × ℤ) (ViewName × Ix) UInt8 where
  get _ s c :=
    match c.1 with
    | .imgIn => s.imgIn.read (readLeft mem s.imgIn) c.2
    | .imgOut => s.imgOut.read (fun _ => 0) c.2
  set s c v :=
    match c.1 with
    | .imgIn => s
    | .imgOut => { s with imgOut := s.imgOut.write c.2 v }
  get_set_of_ne x s a b v h := by
    obtain ⟨n, y⟩ := a
    obtain ⟨n', z⟩ := b
    cases n with
    | imgIn => rfl
    | imgOut =>
      cases n' with
      | imgIn => rfl
      | imgOut => exact Region.read_write_of_ne (fun e => h (congrArg (Prod.mk _) e)) v
  set_comm s a b v w h := by
    obtain ⟨n, y⟩ := a
    obtain ⟨n', z⟩ := b
    cases n <;> cases n' <;> try rfl
    exact congrArg (Views.mk s.imgIn) (Region.write_comm (fun e => h (congrArg (Prod.mk _) e)) v w)

theorem body_kernel_leftStorage (mem : ℤ → UInt8) :
    kernel.body (leftStorage R C mem) = applyJacobiLeft mem := rfl

/-- The elements of `img_in` that the bodies load, with those outside the extents: at most a column
away from the block. -/
def Loaded (R C : ℕ) (c : ViewName × Ix) : Prop :=
  c.1 = .imgIn ∧ -(R + 2 : ℤ) ≤ leftOffset (R + 2) (C + 2) c.2 ∧
    leftOffset (R + 2) (C + 2) c.2 < ((R + 2) * (C + 2) * 3 : ℕ) + (R + 2 : ℤ)

/-- The elements of `img_out`. -/
def Stored (R C : ℕ) (c : ViewName × Ix) : Prop := c.1 = .imgOut ∧ HostViews.Element R C c

theorem loaded_of_stencilReads {x y : Ix} (hx : InExtents (R + 2) (C + 2) x)
    (hy : y ∈ stencilReads x) : Loaded R C (.imgIn, y) := by
  obtain ⟨i, j, k⟩ := x
  obtain ⟨h₀, h₁⟩ := inBuffer_leftOffset hx
  have hcolumn : ∀ j : ℤ, leftOffset (R + 2) (C + 2) (i, j + 1, k) =
      leftOffset (R + 2) (C + 2) (i, j, k) + (R + 2) := by
    intro j
    simp only [leftOffset]
    push_cast
    ring
  have hrow : ∀ i : ℤ, leftOffset (R + 2) (C + 2) (i + 1, j, k) =
      leftOffset (R + 2) (C + 2) (i, j, k) + 1 := by
    intro i
    simp only [leftOffset]
    ring
  have hleft := hcolumn (j - 1)
  have hup := hrow (i - 1)
  rw [sub_add_cancel] at hleft hup
  simp only [stencilReads, List.mem_cons, List.not_mem_nil, or_false] at hy
  refine ⟨rfl, ?_⟩
  rcases hy with rfl | rfl | rfl | rfl | rfl
  · constructor <;> simp only <;> omega
  · constructor <;> simp only <;> omega
  · constructor <;> simp only [hcolumn] <;> omega
  · constructor <;> simp only <;> omega
  · constructor <;> simp only [hrow] <;> omega

theorem within_kernel : kernel.Within (Loaded R C) (Stored R C) (stencilImage R C) := by
  refine HostViews.within_map_meanBlock pixelIx stencilReads fun p hp x hx => ?_
  have helement : InExtents (R + 2) (C + 2) x :=
    mem_fullImage_pixelIx.1 (List.mem_flatMap.2 ⟨p, hp, hx⟩)
  exact ⟨fun y hy => loaded_of_stencilReads helement hy, rfl, helement⟩

theorem address_loaded {V : HostViews R C} (hroom : RoomForColumn V) {c : ViewName × Ix}
    (hc : Loaded R C c) : ¬ V.InBlock .imgOut (V.address c) := by
  obtain ⟨n, x⟩ := c
  obtain ⟨rfl, h₀, h₁⟩ := hc
  rintro ⟨h₂, h₃⟩
  unfold RoomForColumn Apart at hroom
  simp only [HostViews.address, HostViews.base] at h₀ h₁ h₂ h₃
  omega

/-- An unchecked load from `img_in` that does not reach `img_out`. -/
theorem memory_address_imgIn (V : HostViews R C) (m : ℤ → UInt8) (s : Views R C) {x : Ix}
    (hout : ¬ V.InBlock .imgOut (V.address (.imgIn, x))) :
    V.memory m s (V.address (.imgIn, x)) = readLeft (around V m) s.imgIn x := by
  have hoffset : V.address (.imgIn, x) - V.base .imgIn = leftOffset (R + 2) (C + 2) x :=
    add_sub_cancel_left _ _
  by_cases hx : InBuffer ((R + 2) * (C + 2) * 3) (leftOffset (R + 2) (C + 2) x)
  · have hin : V.InBlock .imgIn (V.address (.imgIn, x)) := by rwa [HostViews.InBlock, hoffset]
    rw [V.memory_of_imgIn m s hin, readLeft, Region.read_of_valid hx]
    exact congrArg s.imgIn.leftData (Subtype.ext hoffset)
  · have hin : ¬ V.InBlock .imgIn (V.address (.imgIn, x)) := by rwa [HostViews.InBlock, hoffset]
    rw [V.memory_of_not_inBlock m s (V.not_inBlock hin hout), readLeft, Region.read_of_invalid hx]
    rfl

/-- The views are a part of the memory, for the bodies of `apply_jacobi`, if stray loads from
`img_in` do not reach `img_out`. -/
theorem embeds {V : HostViews R C} (hroom : RoomForColumn V) (m : ℤ → UInt8) :
    Embeds (leftStorage R C (around V m)) V.address (V.memory m) (Loaded R C) (Stored R C) where
  own := by
    rintro ⟨n, x⟩ b ⟨rfl, hx⟩ hb hab
    rcases hb with hb | ⟨hname, hb⟩
    · exact absurd (hab ▸ V.inBlock_address hx) (address_loaded hroom hb)
    · exact V.address_injOn hx hb hab
  get p s c hc := by
    have hout := address_loaded hroom hc
    obtain ⟨n, x⟩ := c
    obtain ⟨rfl, -, -⟩ := hc
    exact (memory_address_imgIn V m s hout).trans (read_readLeft _ _ _).symm
  set s c v hc := by
    obtain ⟨n, x⟩ := c
    obtain ⟨rfl, hx⟩ := hc
    exact V.memory_set (fun (_ : Unit) _ => 0) m s hx v

/-! #### Stray loads -/

theorem mem_stores {p : ℤ × ℤ} {x : Ix} (hx : x ∈ pixelIx p) : (.imgOut, x) ∈ kernel.stores p := by
  obtain ⟨i, j, k⟩ := x
  obtain ⟨rfl, hk⟩ := mem_pixelIx.1 hx
  refine List.mem_flatMap.2 ⟨_, List.mem_map_of_mem (Int.mem_range_iff.2 hk), ?_⟩
  exact List.mem_singleton_self _

theorem mem_loads {p : ℤ × ℤ} {x y : Ix} (hx : x ∈ pixelIx p) (hy : y ∈ stencilReads x) :
    (.imgIn, y) ∈ kernel.loads p := by
  obtain ⟨i, j, k⟩ := x
  obtain ⟨rfl, hk⟩ := mem_pixelIx.1 hx
  refine List.mem_flatMap.2 ⟨_, List.mem_map_of_mem (Int.mem_range_iff.2 hk), ?_⟩
  exact List.mem_map_of_mem hy

theorem mem_stencilImage {p : ℤ × ℤ} : p ∈ stencilImage R C ↔ InRange R C p := mem_mdRange2

/-- A body that stores where a stray load of another one finds its byte. -/
theorem exists_stray_load {V : HostViews R C} (hroom : ¬ RoomForColumn V) :
    ∃ p ∈ stencilImage R C, ∃ q ∈ stencilImage R C, p ≠ q ∧ ∃ x ∈ pixelIx p, ∃ y ∈ pixelIx q,
      ∃ z ∈ stencilReads y, V.address (.imgOut, x) = V.address (.imgIn, z) := by
  have hapart := V.apart
  unfold Apart at hapart
  unfold RoomForColumn Apart at hroom
  have hsize : (((R + 2) * (C + 2) * 3 : ℕ) : ℤ) = (R + 2) * ((C + 2) * 3) := by
    push_cast
    ring
  rw [hsize] at hapart hroom
  rcases hapart with hbefore | hafter
  · -- the column after the last one starts where `img_out` does, or before
    obtain ⟨g, hg⟩ : ∃ g, V.imgOut.data = V.imgIn.data + (R + 2) * ((C + 2) * 3) + g :=
      ⟨V.imgOut.data - (V.imgIn.data + (R + 2) * ((C + 2) * 3)), by ring⟩
    refine ⟨(0, 0), ?_, (g, (C : ℤ) + 1), ?_, ?_, (0, 0, 0), ?_, (g, (C : ℤ) + 1, 2), ?_,
      (g, (C : ℤ) + 1 + 1, 2), ?_, ?_⟩
    · exact mem_stencilImage.2 (by unfold InRange; dsimp only; omega)
    · exact mem_stencilImage.2 (by unfold InRange; dsimp only; omega)
    · intro h
      have hcolumn := congrArg Prod.snd h
      dsimp only at hcolumn
      omega
    · exact List.mem_cons_self
    · exact mem_pixelIx.2 ⟨rfl, (by decide : (0 : ℤ) ≤ 2 ∧ (2 : ℤ) < cn)⟩
    · simp [stencilReads]
    · simp only [HostViews.address, HostViews.base, leftOffset, hg]
      push_cast
      ring
  · obtain ⟨g, hg⟩ : ∃ g, V.imgIn.data = V.imgOut.data + (R + 2) * ((C + 2) * 3) + g :=
      ⟨V.imgIn.data - (V.imgOut.data + (R + 2) * ((C + 2) * 3)), by ring⟩
    refine ⟨((R : ℤ) + 1, (C : ℤ) + 1), ?_, (R + 1 - g, 0), ?_, ?_, ((R : ℤ) + 1, (C : ℤ) + 1, 2),
      ?_, (R + 1 - g, 0, 0), ?_, (R + 1 - g, 0 - 1, 0), ?_, ?_⟩
    · exact mem_stencilImage.2 (by unfold InRange; dsimp only; omega)
    · exact mem_stencilImage.2 (by unfold InRange; dsimp only; omega)
    · intro h
      have hcolumn := congrArg Prod.snd h
      dsimp only at hcolumn
      omega
    · exact mem_pixelIx.2 ⟨rfl, (by decide : (0 : ℤ) ≤ 2 ∧ (2 : ℤ) < cn)⟩
    · exact List.mem_cons_self
    · simp [stencilReads]
    · simp only [HostViews.address, HostViews.base, leftOffset, hg]
      push_cast
      ring

/-- **When the program has no data races** in host memory: iff there is room for a column between
its views. -/
theorem raceFree_memory_iff (V : HostViews R C) :
    (kernel.relocate V.address).RaceFree (stencilImage R C) ↔ RoomForColumn V := by
  constructor
  · intro hrace
    by_contra hroom
    obtain ⟨p, hp, q, hq, hpq, x, hx, y, hy, z, hz, haddress⟩ := exists_stray_load hroom
    have hdisjoint := (hrace p hp q hq hpq).2
    rw [Kernel.stores_relocate, Kernel.loads_relocate] at hdisjoint
    refine hdisjoint (List.mem_map_of_mem (mem_stores hx)) ?_
    rw [haddress]
    exact List.mem_map_of_mem (mem_loads hy hz)
  · intro hroom
    exact (embeds hroom fun _ => 0).raceFree_relocate raceFree_kernel within_kernel

/-! #### Runs -/

/-- A launch of `apply_jacobi` on memory. -/
def MemoryLaunch (V : HostViews R C) (m m' : ℤ → UInt8) : Prop :=
  ParallelFor2 (hostBytes (ℤ × ℤ)) (kernel.relocate V.address) (0, 0) ((R + 2 : ℤ), (C + 2 : ℤ))
    (1, 1) m m'

/-- An iteration of the loop on memory. -/
def MemoryIteration (V : HostViews R C) (concurrency : ℤ) (m m' : ℤ → UInt8) : Prop :=
  ∃ m₁, MemoryLaunch V m m₁ ∧ DeepCopy concurrency V.imgIn V.imgOut m₁ (.ok m')

theorem memoryLaunch_iff (h : IntSized R C) {V : HostViews R C} (hroom : RoomForColumn V)
    (o : LaunchOrder (stencilImage R C)) {m m' : ℤ → UInt8} {s : Views R C} :
    MemoryLaunch V (V.memory m s) m' ↔
      m' = V.memory m (launch o (applyJacobiLeft (around V m)) s) := by
  have hembeds := embeds hroom m
  have hrace := hembeds.raceFree_relocate raceFree_kernel within_kernel
  rw [MemoryLaunch, parallelFor_stencilImage_iff h hrace o, ← body_kernel_leftStorage,
    ← hembeds.launch within_kernel]

/-- **In memory every run of the threads is a run of `loopLeft`** on the views, with what the
memory holds around `img_in` for stray loads, and nothing outside the views changes. -/
theorem jacobi_memory_iff (h : IntSized R C) {V : HostViews R C} (hroom : RoomForColumn V)
    (concurrency : ℤ) (orders : ℕ → LaunchOrder (stencilImage R C)) {t : ℕ} {m m' : ℤ → UInt8} :
    Steps (fun _ => MemoryIteration V concurrency) t m m' ↔
      m' = V.memory m (loopLeft (around V m) orders t (V.views m)) := by
  have hstep : ∀ t (s : Views R C) m', MemoryIteration V concurrency (V.memory m s) m' ↔
      m' = V.memory m (iterationLeft (around V m) (orders t) s) := by
    intro t s m'
    simp only [MemoryIteration, memoryLaunch_iff h hroom (orders t), exists_eq_left,
      V.deepCopy_memory, Except.ok.injEq]
    rfl
  have hrun : Steps (fun _ => MemoryIteration V concurrency) t (V.memory m (V.views m)) m' ↔
      m' = V.memory m (loopLeft (around V m) orders t (V.views m)) :=
    steps_map_iff (V.memory m) (loopLeft (around V m) orders)
      (fun t => iterationLeft (around V m) (orders t)) hstep (fun _ => rfl) fun _ _ => rfl
  rwa [V.memory_views] at hrun

/-- The threads take a memory full of `7`s through two iterations. -/
theorem jacobi_memory_one_one : Steps (fun _ => MemoryIteration HostViews.oneByOne 4) 2
    (fun _ => 7) (HostViews.oneByOne.memory (fun _ => 7) (loopLeft (around HostViews.oneByOne
      fun _ => 7) (fun _ => LaunchOrder.inOrder _) 2 (HostViews.oneByOne.views fun _ => 7))) :=
  (jacobi_memory_iff ⟨by decide, by decide⟩ (by decide) _ _).2 rfl

end ParallelJacobi

end KokkosStencil
