import KokkosStencil.View.LayoutLeft

/-!
# Colour channels of `parallel_jacobi.cpp`

With unchecked `LayoutLeft` reads the neighbours to the left of the first column and to the right
of the last one are elements of the columns stored before and after it, which at the end of a
plane belong to another channel.

* `runLeft_eq_run` : such a run is one of the runs with arbitrary stray reads;
* `keepsChannel_succ_iff` : two pictures that agree in a channel are filtered alike in it as long
  as the padding, where the other channels arrive first, never shows in a mean next to it;
* `channel_kept_iff` : one iteration keeps the channels apart for all pictures, two or more
  do not: in white memory, black in another channel darkens a pixel of a white one for good.
-/

namespace KokkosStencil

namespace ParallelJacobi

variable {R C : ℕ}

/-- The body of `apply_jacobi` with unchecked reads. -/
def applyJacobiLeft (mem : ℤ → UInt8) (p : ℤ × ℤ) (s : Views R C) : Views R C :=
  applyJacobi (fun _ => readLeft mem s.imgIn) p s

/-- One iteration with unchecked reads. -/
def iterationLeft (mem : ℤ → UInt8) (o : LaunchOrder (stencilImage R C)) (s : Views R C) :
    Views R C := (launch o (applyJacobiLeft mem) s).deepCopy

/-- `t` iterations with unchecked reads. -/
def loopLeft (mem : ℤ → UInt8) (orders : ℕ → LaunchOrder (stencilImage R C)) :
    ℕ → Views R C → Views R C
  | 0, s => s
  | t + 1, s => iterationLeft mem (orders t) (loopLeft mem orders t s)

/-- The views after `t` iterations. -/
def runLeft (mem : ℤ → UInt8) (orders : ℕ → LaunchOrder (stencilImage R C))
    (img : Image (R + 2) (C + 2)) (t : ℕ) : Views R C := loopLeft mem orders t (Views.start img)

/-! ### Unchecked reads are stray reads -/

/-- The kernel does not write what it reads, so its stray reads are those of the view at launch. -/
theorem iterationLeft_eq (mem : ℤ → UInt8) (o : LaunchOrder (stencilImage R C)) (s : Views R C) :
    iterationLeft mem o s = iteration (fun _ => readLeft mem s.imgIn) o s := by
  have hleft : ∀ p (t : Views R C), applyJacobiLeft mem p t = ⟨t.imgIn, Region.scatter
      (stencil (fun _ => readLeft mem t.imgIn) t.imgIn) (pixelIx p) t.imgOut⟩ := fun _ _ => rfl
  rw [iterationLeft, iteration,
    Views.launch_scatter o (fun v => stencil (fun _ => readLeft mem v) v) pixelIx hleft,
    Views.launch_scatter o (stencil fun _ => readLeft mem s.imgIn) pixelIx (applyJacobi_eq _)]

/-- What stray reads return in a run with unchecked reads. -/
def leftReads (mem : ℤ → UInt8) (orders : ℕ → LaunchOrder (stencilImage R C))
    (img : Image (R + 2) (C + 2)) : SweepReads :=
  fun t _ => readLeft mem (runLeft mem orders img t).imgIn

theorem runLeft_eq_run (mem : ℤ → UInt8) (orders : ℕ → LaunchOrder (stencilImage R C))
    (img : Image (R + 2) (C + 2)) (t : ℕ) :
    runLeft mem orders img t = run (leftReads mem orders img) orders img t := by
  induction t with
  | zero => rfl
  | succ t ih =>
    rw [run_succ, ← ih]
    exact iterationLeft_eq mem (orders t) (runLeft mem orders img t)

/-- The next view holds the means of the last one, with its unchecked reads. -/
theorem read_runLeft_succ (mem : ℤ → UInt8) (orders : ℕ → LaunchOrder (stencilImage R C))
    (img : Image (R + 2) (C + 2)) (t : ℕ) {x : Ix} (hx : InExtents (R + 2) (C + 2) x) :
    (runLeft mem orders img (t + 1)).imgIn.read (fun _ => 0) x =
      stencil (fun _ => readLeft mem (runLeft mem orders img t).imgIn)
        (runLeft mem orders img t).imgIn x := by
  have hstep : runLeft mem orders img (t + 1) =
      iteration (fun _ => readLeft mem (runLeft mem orders img t).imgIn) (orders t)
        (runLeft mem orders img t) := iterationLeft_eq mem (orders t) _
  rw [hstep]
  exact plane_iteration _ (orders t) _ hx

/-- Inside the padding the next view holds the means of the last one. -/
theorem plane_runLeft_succ (mem : ℤ → UInt8) (orders : ℕ → LaunchOrder (stencilImage R C))
    (img : Image (R + 2) (C + 2)) (t : ℕ) (k : ℤ) {p : ℤ × ℤ} (hp : Grid.Interior R C p) :
    (runLeft mem orders img (t + 1)).imgIn.plane k p =
      Grid.cross.mean ((runLeft mem orders img t).imgIn.plane k) p := by
  rw [runLeft_eq_run, run_succ, plane_iteration_of_interior _ _ _ _ hp, ← runLeft_eq_run]

/-! ### Two runs -/

/-- What a run of the program does not take from its picture. -/
structure Env (R C : ℕ) where
  /-- Where the views live. -/
  build : Build
  /-- What stray reads return on the way from `pixelPtr` to the views and back. -/
  stray : StrayReads
  /-- The orders of the launches. -/
  orders : ℕ → LaunchOrder (stencilImage R C)
  /-- The initial memory. -/
  memory : Mirrored R C

/-- The cropped result of `t` iterations with unchecked reads. -/
def filteredLeft (mem : ℤ → UInt8) (e : Env R C) (pixelPtr : Buffer ((R + 2) * (C + 2) * 3))
    (t : ℕ) : Image R C :=
  crop (Image.ofData (filterStage e.build e.stray (loopLeft mem e.orders t) e.memory pixelPtr))

/-- Two padded pictures agree in channel `k`. -/
def AgreeIn (k : ℤ) (pixelPtr pixelPtr' : Buffer ((R + 2) * (C + 2) * 3)) : Prop :=
  (Image.ofData pixelPtr).plane k = (Image.ofData pixelPtr').plane k

/-- After `t` iterations of two runs the kept pixels agree in channel `k`. -/
def KeepsChannel (mem : ℤ → UInt8) (e e' : Env R C)
    (pixelPtr pixelPtr' : Buffer ((R + 2) * (C + 2) * 3)) (k : ℤ) (t : ℕ) : Prop :=
  ∀ p, Grid.Interior R C p → (filteredLeft mem e pixelPtr t).plane k (p.1 - 1, p.2 - 1) =
    (filteredLeft mem e' pixelPtr' t).plane k (p.1 - 1, p.2 - 1)

/-- Channel `k` of one run with the padding of the other. -/
def exchanged (mem : ℤ → UInt8) (e e' : Env R C)
    (pixelPtr pixelPtr' : Buffer ((R + 2) * (C + 2) * 3)) (k : ℤ) (t : ℕ) : ℤ × ℤ → UInt8 :=
  Sweep.overlay (Grid.Interior R C)
    ((runLeft mem e.orders (Image.ofData pixelPtr) t).imgIn.plane k)
    ((runLeft mem e'.orders (Image.ofData pixelPtr') t).imgIn.plane k)

/-- At no kept pixel does the other run's padding show in the next mean of channel `k`: what the
padding neighbours of the pixel would lose together by taking the other run's values does not carry
its five-point sum across a multiple of `5`. -/
def MixHidden (mem : ℤ → UInt8) (e e' : Env R C)
    (pixelPtr pixelPtr' : Buffer ((R + 2) * (C + 2) * 3)) (k : ℤ) (t : ℕ) : Prop :=
  ∀ p, Grid.Interior R C p →
    NoCarry (Grid.cross.change ((runLeft mem e.orders (Image.ofData pixelPtr) t).imgIn.plane k)
        (exchanged mem e e' pixelPtr pixelPtr' k t) p)
      (Grid.cross.sum ((runLeft mem e.orders (Image.ofData pixelPtr) t).imgIn.plane k) p)

theorem plane_filteredLeft (mem : ℤ → UInt8) (e : Env R C)
    (pixelPtr : Buffer ((R + 2) * (C + 2) * 3)) (t : ℕ) (k : ℤ) {p : ℤ × ℤ}
    (hp : Grid.Interior R C p) :
    (filteredLeft mem e pixelPtr (t + 1)).plane k (p.1 - 1, p.2 - 1) =
      (runLeft mem e.orders (Image.ofData pixelPtr) (t + 1)).imgIn.plane k p :=
  plane_crop_filterStage e.build e.stray (loopLeft mem e.orders (t + 1)) e.memory pixelPtr k hp

/-- The invariant of runs that keep channel `k`: inside the padding the views agree in it. -/
def InteriorAgrees (mem : ℤ → UInt8) (e e' : Env R C)
    (pixelPtr pixelPtr' : Buffer ((R + 2) * (C + 2) * 3)) (k : ℤ) (t : ℕ) : Prop :=
  ∀ p, Grid.Interior R C p →
    (runLeft mem e.orders (Image.ofData pixelPtr) t).imgIn.plane k p =
      (runLeft mem e'.orders (Image.ofData pixelPtr') t).imgIn.plane k p

theorem keepsChannel_succ_iff_interiorAgrees (mem : ℤ → UInt8) (e e' : Env R C)
    (pixelPtr pixelPtr' : Buffer ((R + 2) * (C + 2) * 3)) (k : ℤ) (t : ℕ) :
    KeepsChannel mem e e' pixelPtr pixelPtr' k (t + 1) ↔
      InteriorAgrees mem e e' pixelPtr pixelPtr' k (t + 1) := by
  refine forall₂_congr fun p hp => ?_
  rw [plane_filteredLeft _ _ _ _ _ hp, plane_filteredLeft _ _ _ _ _ hp]

/-- If the interiors agree before a sweep, they agree after it iff no mean shows the padding. -/
theorem interiorAgrees_succ_iff (mem : ℤ → UInt8) (e e' : Env R C)
    (pixelPtr pixelPtr' : Buffer ((R + 2) * (C + 2) * 3)) (k : ℤ) (t : ℕ)
    (h : InteriorAgrees mem e e' pixelPtr pixelPtr' k t) :
    InteriorAgrees mem e e' pixelPtr pixelPtr' k (t + 1) ↔
      MixHidden mem e e' pixelPtr pixelPtr' k t := by
  -- the other run is this one with the other padding
  have hother : (runLeft mem e'.orders (Image.ofData pixelPtr') t).imgIn.plane k =
      exchanged mem e e' pixelPtr pixelPtr' k t := (Sweep.overlay_eq_old h).symm
  refine forall₂_congr fun p hp => ?_
  have hself : (runLeft mem e.orders (Image.ofData pixelPtr) t).imgIn.plane k p =
      exchanged mem e e' pixelPtr pixelPtr' k t p := (Sweep.overlay_of_mem hp).symm
  rw [plane_runLeft_succ _ _ _ _ _ hp, plane_runLeft_succ _ _ _ _ _ hp, hother, eq_comm,
    Cross.mean_eq_iff_change hself]

/-- **When two runs keep a channel**: the kept pixels agree in it after each of the first `t`
sweeps iff the mixing of the channels is hidden before each of them. -/
theorem keepsChannel_succ_iff (mem : ℤ → UInt8) (e e' : Env R C)
    (pixelPtr pixelPtr' : Buffer ((R + 2) * (C + 2) * 3)) (k : ℤ) (t : ℕ)
    (h : AgreeIn k pixelPtr pixelPtr') :
    (∀ s < t, KeepsChannel mem e e' pixelPtr pixelPtr' k (s + 1)) ↔
      ∀ s < t, MixHidden mem e e' pixelPtr pixelPtr' k s := by
  have h₀ : InteriorAgrees mem e e' pixelPtr pixelPtr' k 0 := fun p _ => congrFun h p
  simp only [keepsChannel_succ_iff_interiorAgrees]
  exact forall_lt_succ_iff_forall_lt h₀ (interiorAgrees_succ_iff mem e e' _ _ k) t

/-- The first sweep keeps every channel: it reads the padding of the pictures. -/
theorem keepsChannel_one (mem : ℤ → UInt8) (e e' : Env R C)
    (pixelPtr pixelPtr' : Buffer ((R + 2) * (C + 2) * 3)) (k : ℤ)
    (h : AgreeIn k pixelPtr pixelPtr') : KeepsChannel mem e e' pixelPtr pixelPtr' k 1 := by
  rw [keepsChannel_succ_iff_interiorAgrees]
  intro p hp
  rw [plane_runLeft_succ _ _ _ _ _ hp, plane_runLeft_succ _ _ _ _ _ hp]
  exact congrArg (fun u => Grid.cross.mean u p) h

/-! ### A pair of pictures that mixes -/

/-- White in every channel. -/
def whitePixels (R C : ℕ) : Buffer ((R + 2) * (C + 2) * 3) := fun _ => 255

/-- White in channel `k`, black in the others. -/
def onlyChannel (R C : ℕ) (k : ℤ) : Buffer ((R + 2) * (C + 2) * 3) :=
  Image.data fun x => if x.1.2.2 = k then 255 else 0

theorem agreeIn_onlyChannel (k : ℤ) : AgreeIn k (whitePixels R C) (onlyChannel R C k) := by
  funext p
  rw [onlyChannel, Image.ofData_data]
  by_cases hx : InExtents (R + 2) (C + 2) (p.1, p.2, k)
  · rw [Image.plane, Image.plane, Region.read_of_valid hx, Region.read_of_valid hx, if_pos rfl]
    rfl
  · rw [Image.plane_of_not_inExtents hx, Image.plane_of_not_inExtents hx]

/-- In white memory a white picture stays white. -/
theorem runLeft_white (orders : ℕ → LaunchOrder (stencilImage R C)) (t : ℕ) :
    (runLeft (fun _ => 255) orders (fun _ => 255) t).imgIn = fun _ => 255 := by
  induction t with
  | zero => rfl
  | succ t ih =>
    -- every read, in range or not, finds white
    have hwhite : ∀ y, Region.read (runLeft (fun _ => 255) orders (fun _ => 255) t).imgIn
        (readLeft (fun _ => 255) (runLeft (fun _ => 255) orders (fun _ => 255) t).imgIn) y =
          255 := by
      intro y
      rw [ih]
      unfold Region.read readLeft Region.read
      split_ifs <;> rfl
    refine Region.ext_read (fun _ => 0) fun x hx => ?_
    have hx255 : Region.read (fun _ => 255 : Image (R + 2) (C + 2)) (fun _ => 0) x = 255 :=
      Region.read_of_valid hx
    rw [read_runLeft_succ _ _ _ _ hx, hx255]
    simp only [stencil, Cross.mean, hwhite]
    rfl

/-- The picture that is white in channel `k` only. -/
def onlyChannelRun (orders : ℕ → LaunchOrder (stencilImage R C)) (k : ℤ) (t : ℕ) : Views R C :=
  runLeft (fun _ => 255) orders (Image.ofData (onlyChannel R C k)) t

/-- There an index outside the extents with the offset of an element of another channel reads
black. -/
theorem read_onlyChannel_ne_white {k : ℤ} {x y : Ix} (hx : ¬ InExtents (R + 2) (C + 2) x)
    (hy : InExtents (R + 2) (C + 2) y)
    (hxy : leftOffset (R + 2) (C + 2) x = leftOffset (R + 2) (C + 2) y) (hne : y.2.2 ≠ k) :
    Region.read (Image.ofData (onlyChannel R C k))
      (readLeft (fun _ => 255) (Image.ofData (onlyChannel R C k))) x ≠ 255 := by
  rw [Region.read_of_invalid hx, readLeft_of_eq hy hxy (fun _ => 0), onlyChannel,
    Image.ofData_data, Region.read_of_valid hy, if_neg hne]
  decide

/-- In the first column of the padding the first sweep takes in the channel before. -/
theorem first_column_ne_white (orders : ℕ → LaunchOrder (stencilImage R C)) {i k : ℤ}
    (hi : 1 ≤ i ∧ i ≤ R) (hk : 1 ≤ k ∧ k < cn) :
    (onlyChannelRun orders k 1).imgIn.plane k (i, 0) ≠ 255 := by
  obtain ⟨hk₀, hk₁⟩ := hk
  have hx : InExtents (R + 2) (C + 2) (i, 0, k) := by
    simp only [InExtents]
    omega
  have hout : ¬ InExtents (R + 2) (C + 2) (i, 0 - 1, k) := by
    simp only [InExtents]
    omega
  have hlast : InExtents (R + 2) (C + 2) (i, 0 - 1 + ((C + 2 : ℕ) : ℤ), k - 1) := by
    simp only [InExtents]
    omega
  have halias : leftOffset (R + 2) (C + 2) (i, 0 - 1, k) =
      leftOffset (R + 2) (C + 2) (i, 0 - 1 + ((C + 2 : ℕ) : ℤ), k - 1) := by
    rw [leftOffset_add_columns, sub_add_cancel]
  have hstep := read_runLeft_succ (fun _ => 255) orders (Image.ofData (onlyChannel R C k)) 0 hx
  exact ne_of_eq_of_ne hstep (Cross.mean_ne_white (Or.inr (Or.inl
    (read_onlyChannel_ne_white hout hlast halias (sub_one_lt k).ne))))

/-- In the last column of the padding the first sweep takes in the channel after. -/
theorem last_column_ne_white (orders : ℕ → LaunchOrder (stencilImage R C)) {i k : ℤ}
    (hi : 1 ≤ i ∧ i ≤ R) (hk : 0 ≤ k ∧ k + 1 < cn) :
    (onlyChannelRun orders k 1).imgIn.plane k (i, (C : ℤ) + 1) ≠ 255 := by
  obtain ⟨hk₀, hk₁⟩ := hk
  have hx : InExtents (R + 2) (C + 2) (i, (C : ℤ) + 1, k) := by
    simp only [InExtents]
    omega
  have hout : ¬ InExtents (R + 2) (C + 2) (i, (C : ℤ) + 1 + 1, k) := by
    simp only [InExtents]
    omega
  have hfirst : InExtents (R + 2) (C + 2) (i, 0, k + 1) := by
    simp only [InExtents]
    omega
  have halias : leftOffset (R + 2) (C + 2) (i, (C : ℤ) + 1 + 1, k) =
      leftOffset (R + 2) (C + 2) (i, 0, k + 1) := by
    rw [← leftOffset_add_columns]
    congr 3
    push_cast
    ring
  have hstep := read_runLeft_succ (fun _ => 255) orders (Image.ofData (onlyChannel R C k)) 0 hx
  exact ne_of_eq_of_ne hstep (Cross.mean_ne_white (Or.inr (Or.inr (Or.inl
    (read_onlyChannel_ne_white hout hfirst halias (lt_add_one k).ne')))))

/-- After the first sweep of that picture some cell of the padding next to a kept pixel has read
black from another channel: to its right, or, in the last channel, to its left. -/
theorem exists_leak (hR : 0 < R) (hC : 0 < C) {k : ℤ} (hk : 0 ≤ k ∧ k < cn)
    (orders : ℕ → LaunchOrder (stencilImage R C)) : ∃ p, Grid.Interior R C p ∧
      ((onlyChannelRun orders k 1).imgIn.plane k (Grid.cross.left p) ≠ 255 ∨
        (onlyChannelRun orders k 1).imgIn.plane k (Grid.cross.right p) ≠ 255) := by
  obtain ⟨hk₀, hk₃⟩ := hk
  have hR₁ : (1 : ℤ) ≤ R := by exact_mod_cast hR
  have hC₁ : (1 : ℤ) ≤ C := by exact_mod_cast hC
  by_cases hlast : k + 1 < cn
  · exact ⟨(1, (C : ℤ)), ⟨le_rfl, hR₁, hC₁, le_rfl⟩,
      Or.inr (last_column_ne_white orders ⟨le_rfl, hR₁⟩ ⟨hk₀, hlast⟩)⟩
  · have hk₁ : 1 ≤ k := by
      simp only [cn] at hlast
      omega
    exact ⟨(1, 1), ⟨le_rfl, hR₁, le_rfl, hC₁⟩,
      Or.inl (first_column_ne_white orders ⟨le_rfl, hR₁⟩ ⟨hk₁, hk₃⟩)⟩

/-- The kept pixel next to that cell is darkened by the second sweep and never white again. -/
theorem exists_dark (hR : 0 < R) (hC : 0 < C) {k : ℤ} (hk : 0 ≤ k ∧ k < cn)
    (orders : ℕ → LaunchOrder (stencilImage R C)) (t : ℕ) : ∃ p, Grid.Interior R C p ∧
      (onlyChannelRun orders k (t + 2)).imgIn.plane k p ≠ 255 := by
  obtain ⟨p, hp, hleak⟩ := exists_leak hR hC hk orders
  refine ⟨p, hp, ?_⟩
  induction t with
  | zero =>
    rw [onlyChannelRun, plane_runLeft_succ _ _ _ _ _ hp]
    rcases hleak with hleft | hright
    · exact Cross.mean_ne_white (Or.inr (Or.inl hleft))
    · exact Cross.mean_ne_white (Or.inr (Or.inr (Or.inl hright)))
  | succ t ih =>
    -- a pixel that is not white is part of its own mean
    rw [onlyChannelRun, plane_runLeft_succ _ _ _ _ _ hp]
    exact Cross.mean_ne_white (Or.inl ih)

/-- From the second sweep on a white picture and one that is white in channel `k` only differ in a
kept pixel of that channel. -/
theorem not_keepsChannel_of_two_le (hR : 0 < R) (hC : 0 < C) {k : ℤ} (hk : 0 ≤ k ∧ k < cn)
    (e e' : Env R C) (t : ℕ) :
    ¬ KeepsChannel (fun _ => 255) e e' (whitePixels R C) (onlyChannel R C k) k (t + 2) := by
  rw [keepsChannel_succ_iff_interiorAgrees]
  intro h
  obtain ⟨p, hp, hdark⟩ := exists_dark hR hC hk e'.orders t
  have hx := inExtents_of_interior hp hk
  have hwhite : (runLeft (fun _ => 255) e.orders (Image.ofData (whitePixels R C))
      (t + 2)).imgIn.plane k p = 255 := by
    have hrun := runLeft_white e.orders (t + 2)
    show (runLeft (fun _ => 255) e.orders (fun _ => 255) (t + 2)).imgIn.plane k p = 255
    rw [hrun, Image.plane, Region.read_of_valid hx]
  exact hdark ((h p hp).symm.trans hwhite)

/-- **When the channels stay apart.**  For two pictures that agree in channel `k`, the kept pixels
agree in it after each of the first `t` sweeps iff the mixing is hidden before each of them.  For
all pictures and all memory around the allocation, of all numbers of sweeps only `1` keeps the
channel. -/
theorem channel_kept_iff (R C : ℕ) (k : ℤ) :
    (∀ mem (e e' : Env R C) pixelPtr pixelPtr' t, AgreeIn k pixelPtr pixelPtr' →
        ((∀ s < t, KeepsChannel mem e e' pixelPtr pixelPtr' k (s + 1)) ↔
          ∀ s < t, MixHidden mem e e' pixelPtr pixelPtr' k s)) ∧
      (0 < R → 0 < C → 0 ≤ k ∧ k < cn → ∀ (e e' : Env R C) (t : ℕ), 1 ≤ t →
        ((∀ mem pixelPtr pixelPtr', AgreeIn k pixelPtr pixelPtr' →
            KeepsChannel mem e e' pixelPtr pixelPtr' k t) ↔ t = 1)) := by
  constructor
  · intro mem e e' pixelPtr pixelPtr' t h
    exact keepsChannel_succ_iff mem e e' pixelPtr pixelPtr' k t h
  · intro hR hC hk e e' t ht
    constructor
    · intro h
      by_contra hne
      obtain ⟨s, rfl⟩ : ∃ s, t = s + 2 := ⟨t - 2, by omega⟩
      exact not_keepsChannel_of_two_le hR hC hk e e' s (h _ _ _ (agreeIn_onlyChannel k))
    · rintro rfl
      exact fun mem pixelPtr pixelPtr' h => keepsChannel_one mem e e' pixelPtr pixelPtr' k h

/-- A run of a host build in the order of its policies. -/
def inOrder (R C : ℕ) : Env R C :=
  ⟨.host, ⟨fun _ => 0, fun _ => 0⟩, fun _ => LaunchOrder.inOrder _,
    ⟨Views.start fun _ => 0, Views.start fun _ => 0⟩⟩

/-- Two `1 × 1` pictures, white in the first channel and in the others white or black, differ in
the first channel after two sweeps. -/
theorem not_keepsChannel_two : ¬ ∀ pixelPtr pixelPtr', AgreeIn 0 pixelPtr pixelPtr' →
    KeepsChannel (fun _ => 255) (inOrder 1 1) (inOrder 1 1) pixelPtr pixelPtr' 0 2 :=
  fun h => not_keepsChannel_of_two_le Nat.one_pos Nat.one_pos (by decide) _ _ 0
    (h _ _ (agreeIn_onlyChannel 0))

end ParallelJacobi

end KokkosStencil
