import KokkosStencil.Noise.Pipelines
import KokkosStencil.View.Dependence
import KokkosStencil.View.Threads

/-!
# The whole of the parallel programs

From the picture that is read to the pictures that are written: the noise and the padding, the frame
around the device loop, the loop as the threads of the host or of a device run it, and the crop.

* `filterStage_iff` : a loop with one result leaves one result in `pixelPtr`;
* `filterAndSave_steps_iff`, for each program : what all runs of its threads make of the picture;
* `redBlackMain_iff`, `jacobiMain_iff` : what the red-black and the Jacobi program save;
* `main_wave_iff` : on square pictures the red-black and the diagonal program save the same files;
* `main_jacobi_deep` : far enough from the edge the Jacobi program saves what the red-black one
  saves, although it pads before the noise and reads outside its views.
-/

namespace KokkosStencil

open Kokkos

variable {R C rows cols : ℕ}

/-- From `pixelPtr` to `pixelPtr`, around a device loop that may turn `s` into `s'` if
`Loop s s'`. -/
def FilterStage (b : Build) (stray : StrayReads) (Loop : Views R C → Views R C → Prop)
    (m : Mirrored R C) (pixelPtr pixelPtr' : Buffer ((R + 2) * (C + 2) * 3)) : Prop :=
  let m := prepare b stray m pixelPtr
  ∃ dev, Loop m.dev dev ∧ pixelPtr' = finish b stray { m with dev := dev } pixelPtr

/-- From the prepared pictures to the saved ones. -/
def FilterAndSave (b : Build) (stray : StrayReads) (Loop : Views R C → Views R C → Prop)
    (m : Mirrored R C) (p : Prepared R C rows cols) (saved : Saved R C rows cols) : Prop :=
  ∃ pixelPtr, FilterStage b stray Loop m p.imagePad.data pixelPtr ∧
    saved = ⟨crop (Image.ofData pixelPtr), p.mColorNoise⟩

/-- **A loop with one result leaves one result**, in either build. -/
theorem filterStage_iff {b : Build} {stray : StrayReads} {Loop : Views R C → Views R C → Prop}
    {loop : Views R C → Views R C} (h : ∀ s s', Loop s s' ↔ s' = loop s) {m : Mirrored R C}
    {pixelPtr pixelPtr' : Buffer ((R + 2) * (C + 2) * 3)} :
    FilterStage b stray Loop m pixelPtr pixelPtr' ↔
      pixelPtr' = (loop (Views.start (Image.ofData pixelPtr))).imgOut.data := by
  simp only [FilterStage, h, exists_eq_left, finish_eq, dev_prepare]

theorem filterAndSave_iff {b : Build} {stray : StrayReads} {Loop : Views R C → Views R C → Prop}
    {loop : Views R C → Views R C} (h : ∀ s s', Loop s s' ↔ s' = loop s) {m : Mirrored R C}
    {p : Prepared R C rows cols} {saved : Saved R C rows cols} :
    FilterAndSave b stray Loop m p saved ↔
      saved = ⟨crop (loop (Views.start p.imagePad)).imgOut, p.mColorNoise⟩ := by
  simp only [FilterAndSave, filterStage_iff h, exists_eq_left, Image.ofData_data]

/-- The picture after `t` Jacobi sweeps inside a black frame. -/
def blur (t : ℕ) (v : Image R C) : Image R C := fun x =>
  (Grid.jacobi R C)^[t] ((copyMakeBorder v).plane x.1.2.2) (x.1.1 + 1, x.1.2.1 + 1)

theorem interior_of_inExtents {x : Ix} (hx : InExtents R C x) :
    Grid.Interior R C (x.1 + 1, x.2.1 + 1) := by
  simp only [InExtents, Grid.Interior] at *
  omega

/-- An element of the picture without its padding. -/
theorem crop_apply (v : Image (R + 2) (C + 2)) (x : {x : Ix // InExtents R C x}) :
    crop v x = v.plane x.1.2.2 (x.1.1 + 1, x.1.2.1 + 1) := rfl

/-- Sweeps of a picture in a black frame. -/
theorem crop_sweep (v : Image R C) (t : ℕ) :
    crop (Views.sweep^[t + 1] (Views.start (copyMakeBorder v))).imgOut = blur (t + 1) v := by
  funext x
  rw [crop_apply, Function.iterate_succ_apply', ← Views.sweep_imgIn,
    ← Function.iterate_succ_apply' Views.sweep]
  exact congrFun (Views.iterate_sweep (PaddedImage.ofImage v) x.1.2.2 (t + 1)) _

/-- Copies alone leave a black picture. -/
theorem crop_deepCopy (img : Image (R + 2) (C + 2)) (t : ℕ) :
    crop (Views.deepCopy^[t] (Views.start img)).imgOut = black R C := by
  have hout : (Views.deepCopy^[t] (Views.start img)).imgOut = fun _ => 0 := by
    induction t with
    | zero => rfl
    | succ t ih => rw [Function.iterate_succ_apply']; exact ih
  funext x
  rw [hout]
  exact Region.read_of_valid (inExtents_of_interior (interior_of_inExtents x.2) x.2.2.2)

/-! ### `parallel_gauss_seidel.cpp` -/

namespace ParallelGaussSeidel

/-- `main`, from the picture that was read to the pictures that are written, unless the picture is
empty.  `fresh` are the bytes of the newly allocated `mColorNoise`. -/
def Main (b : Build) (noiseIter iterations : ℕ) (stray : StrayReads) (noise : ℕ → NoiseField R C)
    (fresh : Image R C) (m : Mirrored R C) (img : Image R C) (result : Option (Saved R C R C)) :
    Prop :=
  if R = 0 ∨ C = 0 then result = none
  else ∃ saved, FilterAndSave b stray
      (Steps (fun _ => ThreadIteration b stray.view) iterations) m
      (noiseThenPad noiseIter noise fresh img) saved ∧ result = some saved

/-- For `NOISE_ITER = n + 1` and `ITERATIONS = t + 1`, every run filters the picture with the first
`n` rounds of noise by Jacobi sweeps, unless the device skips the launches. -/
theorem filterAndSave_steps_iff (h : IntSized R C) (b : Build) (n t : ℕ) (stray : StrayReads)
    (noise : ℕ → NoiseField R C) (fresh : Image R C) (m : Mirrored R C) (img : Image R C)
    (saved : Saved R C R C) :
    FilterAndSave b stray (Steps (fun _ => ThreadIteration b stray.view) (t + 1)) m
        (noiseThenPad (n + 1) noise fresh img) saved ↔
      saved = ⟨if Skips b R C then black R C else blur (t + 1) (rounds noise img n),
        rounds noise img (n + 1)⟩ := by
  have hloop : ∀ s s' : Views R C,
      Steps (fun _ => ThreadIteration b stray.view) (t + 1) s s' ↔
        s' = if Skips b R C then Views.deepCopy^[t + 1] s else Views.sweep^[t + 1] s := by
    intro s s'
    rw [redBlack_threads_iff h b stray.view fun _ => Orders.inOrder R C, loop_eq_iterate]
  rw [filterAndSave_iff hloop, noiseThenPad_eq]
  by_cases hskip : Skips b R C
  · simp only [if_pos hskip, crop_deepCopy]
  · simp only [if_neg hskip, crop_sweep]

/-- **What the program saves**, in all runs of its threads: the filtered picture, or a black one if
the device skips the launches, and the picture with all rounds of noise. -/
theorem redBlackMain_iff (h : IntSized R C) (b : Build) (n t : ℕ) (stray : StrayReads)
    (noise : ℕ → NoiseField R C) (fresh : Image R C) (m : Mirrored R C) (img : Image R C)
    (result : Option (Saved R C R C)) :
    Main b (n + 1) (t + 1) stray noise fresh m img result ↔
      result = if R = 0 ∨ C = 0 then none
        else some ⟨if Skips b R C then black R C else blur (t + 1) (rounds noise img n),
          rounds noise img (n + 1)⟩ := by
  by_cases hempty : R = 0 ∨ C = 0
  · rw [Main, if_pos hempty, if_pos hempty]
  · rw [Main, if_neg hempty, if_neg hempty]
    simp only [filterAndSave_steps_iff h, exists_eq_left]

/-- Two iterations on a white `1 × 1` picture on a device. -/
theorem redBlackMain_one_one : Main .device 1 2 ⟨fun _ => 0, fun _ => 0⟩ (fun _ _ => 0) (fun _ => 0)
    ⟨Views.start fun _ => 0, Views.start fun _ => 0⟩ (fun _ => 255 : Image 1 1)
    (some ⟨blur 2 fun _ => 255, rounds (fun _ _ => 0) (fun _ => 255) 1⟩) :=
  (redBlackMain_iff ⟨by decide, by decide⟩ _ 0 1 _ _ _ _ _ _).2 rfl

end ParallelGaussSeidel

/-! ### `parallel_wave_gauss_seidel.cpp` -/

namespace ParallelWaveGaussSeidel

/-- `main`, from the picture that was read to the pictures that are written, unless the picture is
empty.  `fresh` are the bytes of the newly allocated `mColorNoise`. -/
def Main (b : Build) (n : ℤ) (noiseIter iterations : ℕ) (stray : StrayReads)
    (noise : ℕ → NoiseField R C) (fresh : Image R C) (m : Mirrored R C) (img : Image R C)
    (result : Option (Saved R C R C)) : Prop :=
  if R = 0 ∨ C = 0 then result = none
  else ∃ saved, FilterAndSave b stray
      (Steps (fun _ => ThreadIteration b n stray.view) iterations) m
      (noiseThenPad noiseIter noise fresh img) saved ∧ result = some saved

/-- On a square picture, every run filters the picture as the red-black program does. -/
theorem filterAndSave_steps_iff {side : ℕ} {b : Build} (h : Counted b side) (n t : ℕ)
    (stray : StrayReads) (noise : ℕ → NoiseField side side) (fresh : Image side side)
    (m : Mirrored side side) (img : Image side side) (saved : Saved side side side side) :
    FilterAndSave b stray (Steps (fun _ => ThreadIteration b side stray.view) (t + 1)) m
        (noiseThenPad (n + 1) noise fresh img) saved ↔
      saved = ⟨blur (t + 1) (rounds noise img n), rounds noise img (n + 1)⟩ := by
  have hloop : ∀ s s' : Views side side,
      Steps (fun _ => ThreadIteration b side stray.view) (t + 1) s s' ↔
        s' = Views.sweep^[t + 1] s := by
    intro s s'
    rw [wave_threads_iff h stray.view fun _ => inOrder side, loop_eq_iterate]
  simp only [filterAndSave_iff hloop, noiseThenPad_eq, crop_sweep]

end ParallelWaveGaussSeidel

/-- **The red-black and the diagonal program save the same files**, whatever their builds and the
runs of their threads, unless the device skips the red-black launches. -/
theorem main_wave_iff {side : ℕ} (hsize : IntSized side side) {b b' : Build}
    (hskip : ¬ ParallelGaussSeidel.Skips b side side)
    (hcount : ParallelWaveGaussSeidel.Counted b' side) (n t : ℕ) (stray stray' : StrayReads)
    (noise : ℕ → NoiseField side side) (fresh fresh' : Image side side)
    (m m' : Mirrored side side) (img : Image side side)
    (result : Option (Saved side side side side)) :
    ParallelGaussSeidel.Main b (n + 1) (t + 1) stray noise fresh m img result ↔
      ParallelWaveGaussSeidel.Main b' side (n + 1) (t + 1) stray' noise fresh' m' img result := by
  by_cases hempty : side = 0 ∨ side = 0
  · rw [ParallelGaussSeidel.Main, ParallelWaveGaussSeidel.Main, if_pos hempty, if_pos hempty]
  · rw [ParallelGaussSeidel.Main, ParallelWaveGaussSeidel.Main, if_neg hempty, if_neg hempty]
    simp only [ParallelGaussSeidel.filterAndSave_steps_iff hsize, if_neg hskip,
      ParallelWaveGaussSeidel.filterAndSave_steps_iff hcount]

/-- What a host build of the diagonal program saves for a white `1 × 1` picture, from a device build
of the red-black program. -/
theorem main_wave_one_one : ParallelWaveGaussSeidel.Main .host 1 1 1 ⟨fun _ => 0, fun _ => 0⟩
    (fun _ _ => 0) (fun _ => 0) ⟨Views.start fun _ => 0, Views.start fun _ => 0⟩
    (fun _ => 255 : Image 1 1)
    (some ⟨blur 1 fun _ => 255, rounds (fun _ _ => 0) (fun _ => 255) 1⟩) := by
  have hsize : IntSized 1 1 := ⟨by decide, by decide⟩
  have hred : ParallelGaussSeidel.Main .device 1 1 ⟨fun _ => 0, fun _ => 0⟩ (fun _ _ => 0)
      (fun _ => 0) ⟨Views.start fun _ => 0, Views.start fun _ => 0⟩ (fun _ => 255 : Image 1 1)
      (some ⟨blur 1 fun _ => 255, rounds (fun _ _ => 0) (fun _ => 255) 1⟩) := by
    rw [ParallelGaussSeidel.Main, if_neg (by decide)]
    exact ⟨_, (ParallelGaussSeidel.filterAndSave_steps_iff hsize .device 0 0 _ _ _ _ _ _).2 rfl,
      rfl⟩
  refine (main_wave_iff hsize ?_ ?_ 0 0 _ _ _ _ _ _ _ _ _).1 hred
  · decide
  · exact fun h => Build.noConfusion h

/-! ### `parallel_jacobi.cpp` -/

namespace ParallelJacobi

/-- `main`, from the picture that was read to the pictures that are written, unless the picture is
empty.  `fresh` are the bytes of the newly allocated `mColorNoise`. -/
def Main (b : Build) (noiseIter iterations : ℕ) (stray : StrayReads) (oob : SweepReads)
    (noise : ℕ → NoiseField (R + 2) (C + 2)) (fresh : Image (R + 2) (C + 2)) (m : Mirrored R C)
    (img : Image R C) (result : Option (Saved R C (R + 2) (C + 2))) : Prop :=
  if R = 0 ∨ C = 0 then result = none
  else ∃ saved, FilterAndSave b stray (Steps (fun s => ThreadIteration b (oob s)) iterations) m
      (padThenNoise noiseIter noise fresh img) saved ∧ result = some saved

/-- Every run filters the padded picture with the first `n` rounds of noise by the loop, in any
orders, unless the device skips the launches. -/
theorem filterAndSave_steps_iff (h : IntSized R C) (b : Build) (n t : ℕ) (stray : StrayReads)
    (oob : SweepReads) (orders : ℕ → LaunchOrder (stencilImage R C))
    (noise : ℕ → NoiseField (R + 2) (C + 2)) (fresh : Image (R + 2) (C + 2)) (m : Mirrored R C)
    (img : Image R C) (saved : Saved R C (R + 2) (C + 2)) :
    FilterAndSave b stray (Steps (fun s => ThreadIteration b (oob s)) t) m
        (padThenNoise (n + 1) noise fresh img) saved ↔
      saved = ⟨if Skips b R C then KokkosStencil.black R C
          else crop (run oob orders (rounds noise (copyMakeBorder img) n) t).imgOut,
        rounds noise (copyMakeBorder img) (n + 1)⟩ := by
  have hloop : ∀ s s' : Views R C, Steps (fun s => ThreadIteration b (oob s)) t s s' ↔
      s' = if Skips b R C then Views.deepCopy^[t] s else loop oob orders t s :=
    fun _ _ => jacobi_threads_iff h b oob orders
  rw [filterAndSave_iff hloop, padThenNoise_eq]
  by_cases hskip : Skips b R C
  · simp only [if_pos hskip, crop_deepCopy]
  · simp only [if_neg hskip]
    rfl

/-- **What the program saves**, in all runs of its threads: the filtered picture for any orders of
the bodies, although the bodies read outside the views, or a black one if the device skips the
launches. -/
theorem jacobiMain_iff (h : IntSized R C) (b : Build) (n t : ℕ) (stray : StrayReads)
    (oob : SweepReads) (orders : ℕ → LaunchOrder (stencilImage R C))
    (noise : ℕ → NoiseField (R + 2) (C + 2)) (fresh : Image (R + 2) (C + 2)) (m : Mirrored R C)
    (img : Image R C) (result : Option (Saved R C (R + 2) (C + 2))) :
    Main b (n + 1) t stray oob noise fresh m img result ↔
      result = if R = 0 ∨ C = 0 then none
        else some ⟨if Skips b R C then KokkosStencil.black R C
          else crop (run oob orders (rounds noise (copyMakeBorder img) n) t).imgOut,
          rounds noise (copyMakeBorder img) (n + 1)⟩ := by
  by_cases hempty : R = 0 ∨ C = 0
  · rw [Main, if_pos hempty, if_pos hempty]
  · rw [Main, if_neg hempty, if_neg hempty]
    simp only [filterAndSave_steps_iff h b n t stray oob orders, exists_eq_left]

/-- Two iterations on a white `1 × 1` picture on a device. -/
theorem jacobiMain_one_one : Main .device 1 2 ⟨fun _ => 0, fun _ => 0⟩ (fun _ _ _ => 0)
    (fun _ _ => 0) (fun _ => 0) ⟨Views.start fun _ => 0, Views.start fun _ => 0⟩
    (fun _ => 255 : Image 1 1)
    (some ⟨crop (run (fun _ _ _ => 0) (fun _ => LaunchOrder.inOrder _)
      (copyMakeBorder fun _ => 255) 2).imgOut,
      rounds (fun _ _ => 0) (copyMakeBorder fun _ => 255) 1⟩) :=
  (jacobiMain_iff ⟨by decide, by decide⟩ _ 0 2 _ _ _ _ _ _ _ _).2 rfl

end ParallelJacobi

/-! ### Away from the edge -/

namespace Grid

/-- A sweep that keeps the boundary is the mean as far inside as the boundary has not reached. -/
theorem iterate_jacobi_of_edge {u : ℤ × ℤ → UInt8} {t : ℕ} {p : ℤ × ℤ} (h : (t : ℤ) ≤ edge R C p) :
    (jacobi R C)^[t] u p = cross.mean^[t] u p := by
  induction t generalizing p with
  | zero => rfl
  | succ t ih =>
    obtain ⟨hp, hself, hleft, hright, hup, hdown⟩ := edge_neighbours h
    rw [Function.iterate_succ_apply', Function.iterate_succ_apply', jacobi_of_interior hp]
    exact Cross.mean_congr (ih hself) (ih hleft) (ih hright) (ih hup) (ih hdown)

/-- The ball around a cell that is further from the edge than its radius is inside. -/
theorem interior_of_dist {p q : ℤ × ℤ} {t : ℕ} (hq : dist p q ≤ t) (h : (t : ℤ) < edge R C p) :
    Interior R C q := by
  simp only [dist, edge, Interior, lt_min_iff] at *
  omega

end Grid

theorem plane_copyMakeBorder_crop (v : Image (R + 2) (C + 2)) (k : ℤ) {p : ℤ × ℤ}
    (hp : Grid.Interior R C p) : (copyMakeBorder (crop v)).plane k p = v.plane k p := by
  rw [plane_copyMakeBorder, ParallelJacobi.plane_crop v k hp]

/-- **Far enough from the edge the Jacobi program saves what the red-black program saves**, whatever
the runs of their threads and the stray reads, in builds that skip no launch of either, for the same
noise on the picture: after `t + 1` iterations the filtered pictures agree at every pixel with more
than `t` pixels between it and the edge; the pictures with noise agree everywhere. -/
theorem main_jacobi_deep (hsize : IntSized R C) {b b' : Build}
    (hskip : ¬ ParallelJacobi.Skips b R C) (hskip' : ¬ ParallelGaussSeidel.Skips b' R C) {n t : ℕ}
    {stray stray' : StrayReads} {oob : ParallelJacobi.SweepReads}
    {noise : ℕ → NoiseField (R + 2) (C + 2)} {fresh : Image (R + 2) (C + 2)} {fresh' : Image R C}
    {m m' : Mirrored R C} {img : Image R C} {saved : Saved R C (R + 2) (C + 2)}
    {saved' : Saved R C R C}
    (hjacobi : ParallelJacobi.Main b (n + 1) (t + 1) stray oob noise fresh m img (some saved))
    (hred : ParallelGaussSeidel.Main b' (n + 1) (t + 1) stray' (fun s => interiorField (noise s))
      fresh' m' img (some saved')) :
    (∀ x : {x : Ix // InExtents R C x}, (t + 1 : ℤ) < Grid.edge R C (x.1.1 + 1, x.1.2.1 + 1) →
      saved.imageNoPad x = saved'.imageNoPad x) ∧ crop saved.mColorNoise = saved'.mColorNoise := by
  by_cases hempty : R = 0 ∨ C = 0
  · rw [ParallelGaussSeidel.Main, if_pos hempty] at hred
    cases hred
  rw [ParallelJacobi.Main, if_neg hempty] at hjacobi
  rw [ParallelGaussSeidel.Main, if_neg hempty] at hred
  simp only [ParallelJacobi.filterAndSave_steps_iff hsize b n (t + 1) stray oob
    fun _ => LaunchOrder.inOrder _, if_neg hskip, exists_eq_left, Option.some_inj] at hjacobi
  simp only [ParallelGaussSeidel.filterAndSave_steps_iff hsize, if_neg hskip', exists_eq_left,
    Option.some_inj] at hred
  subst hjacobi hred
  refine ⟨fun x hx => ?_, crop_rounds noise img (n + 1)⟩
  -- both cells are iterated means of pictures that agree within reach
  have hedge : ((t + 1 : ℕ) : ℤ) < Grid.edge R C (x.1.1 + 1, x.1.2.1 + 1) := by exact_mod_cast hx
  have hrun := ParallelJacobi.plane_run_of_edge oob (fun _ => LaunchOrder.inOrder _)
    (rounds noise (copyMakeBorder img) n) x.1.2.2 hedge.le
  refine Eq.trans hrun ?_
  show _ = blur (t + 1) (rounds (fun s => interiorField (noise s)) img n) x
  rw [blur, Grid.iterate_jacobi_of_edge hedge.le, ← crop_rounds]
  refine Grid.iterate_mean_congr fun q hq => ?_
  rw [plane_copyMakeBorder_crop _ _ (Grid.interior_of_dist hq hedge)]

/-- After one iteration on a `3 × 3` picture, in its middle. -/
theorem main_jacobi_deep_three : ∃ (saved : Saved 3 3 5 5) (saved' : Saved 3 3 3 3),
    ParallelJacobi.Main .host 1 1 ⟨fun _ => 0, fun _ => 0⟩ (fun _ _ _ => 0) (fun _ _ => 0)
        (fun _ => 0) ⟨Views.start fun _ => 0, Views.start fun _ => 0⟩ (fun _ => 255)
        (some saved) ∧
      ParallelGaussSeidel.Main .host 1 1 ⟨fun _ => 0, fun _ => 0⟩
        (fun _ => interiorField fun _ => 0) (fun _ => 0)
        ⟨Views.start fun _ => 0, Views.start fun _ => 0⟩ (fun _ => 255) (some saved') ∧
      saved.imageNoPad ⟨(1, 1, 0), by decide⟩ = saved'.imageNoPad ⟨(1, 1, 0), by decide⟩ := by
  have hsize : IntSized 3 3 := ⟨by decide, by decide⟩
  obtain ⟨saved, hjacobi⟩ : ∃ saved, ParallelJacobi.Main .host 1 1 ⟨fun _ => 0, fun _ => 0⟩
      (fun _ _ _ => 0) (fun _ _ => 0) (fun _ => 0)
      ⟨Views.start fun _ => 0, Views.start fun _ => 0⟩ (fun _ => 255 : Image 3 3) (some saved) := by
    simp only [ParallelJacobi.Main, if_neg (by decide : ¬ (3 = 0 ∨ 3 = 0))]
    exact ⟨_, _, (ParallelJacobi.filterAndSave_steps_iff hsize .host 0 1 _ _
      (fun _ => LaunchOrder.inOrder _) _ _ _ _ _).2 rfl, rfl⟩
  obtain ⟨saved', hred⟩ : ∃ saved, ParallelGaussSeidel.Main .host 1 1 ⟨fun _ => 0, fun _ => 0⟩
      (fun _ => interiorField fun _ => 0) (fun _ => 0)
      ⟨Views.start fun _ => 0, Views.start fun _ => 0⟩ (fun _ => 255 : Image 3 3) (some saved) := by
    simp only [ParallelGaussSeidel.Main, if_neg (by decide : ¬ (3 = 0 ∨ 3 = 0))]
    exact ⟨_, _, (ParallelGaussSeidel.filterAndSave_steps_iff hsize .host 0 0 _ _ _ _ _ _).2 rfl,
      rfl⟩
  have hdeep := main_jacobi_deep (n := 0) (t := 0) hsize (by decide) (by decide) hjacobi hred
  have hmiddle : ((0 : ℕ) + 1 : ℤ) < Grid.edge 3 3 (1 + 1, 1 + 1) := by decide
  exact ⟨saved, saved', hjacobi, hred, hdeep.1 ⟨(1, 1, 0), by decide⟩ hmiddle⟩

end KokkosStencil
