import KokkosStencil.Flat.Bounds
import KokkosStencil.Mean.UpTo
import KokkosStencil.View.GaussSeidel

/-!
# The Gauss–Seidel programs never amplify noise

Two pictures that differ by some noise are filtered by two runs of a program.  `NeverAmplifies`
says that the results differ by no more than the pictures did, and that brighter pictures have
brighter results.  Both follow from the one-sided relation `UpTo`, which every truncated mean
keeps:

* `IterativeGaussSeidel.sweep_upTo` : through the chain of in-place updates;
* `ParallelGaussSeidel.filterStage_upTo` : through any number of iterations, each of which also
  replaces the padding by black;
* `neverAmplify` : both programs, also between runs with different builds, orders and stray reads.
-/

namespace KokkosStencil

variable {R C : ℕ}

/-- Filtering two buffers, one by `f` and the other by `f'`, increases no difference between them
and reverses no order. -/
def NeverAmplifies {size : ℕ} (f f' : Buffer size → Buffer size) : Prop :=
  ∀ b b', (∀ d, (∀ o, Within d (b o) (b' o)) → ∀ o, Within d (f b o) (f' b' o)) ∧
    ((∀ o, b o ≤ b' o) → ∀ o, f b o ≤ f' b' o)

/-- It is enough that neither filter lets one buffer rise further above the other. -/
theorem neverAmplifies_of_upTo {size : ℕ} {f f' : Buffer size → Buffer size}
    (h : ∀ d b b', (∀ o, UpTo d (b o) (b' o)) → ∀ o, UpTo d (f b o) (f' b' o))
    (h' : ∀ d b b', (∀ o, UpTo d (b o) (b' o)) → ∀ o, UpTo d (f' b o) (f b' o)) :
    NeverAmplifies f f' := by
  intro b b'
  constructor
  · intro d hd o
    rw [within_iff]
    exact ⟨h d b b' (fun o => (within_iff.1 (hd o)).1) o,
      h' d b' b (fun o => (within_iff.1 (hd o)).2) o⟩
  · intro hle o
    rw [← upTo_zero]
    exact h 0 b b' (fun o => upTo_zero.2 (hle o)) o

/-- Blocks that are up to `d` above each other read so, if stray reads do. -/
theorem Region.read_upTo {ι : Type*} {P : ι → Prop} [DecidablePred P] {d : ℕ}
    {m m' : Region P UInt8} (h : ∀ x, UpTo d (m x) (m' x)) (oob : ι → UInt8) (x : ι) :
    UpTo d (m.read oob x) (m'.read oob x) := by
  by_cases hx : P x
  · rw [Region.read_of_valid hx, Region.read_of_valid hx]
    exact h ⟨x, hx⟩
  · rw [Region.read_of_invalid hx, Region.read_of_invalid hx]
    exact UpTo.refl d _

/-! ### The sequential program -/

namespace IterativeGaussSeidel

theorem sweep_upTo (oob oob' : ℤ → UInt8) (d : ℕ) (b b' : Buffer ((R + 2) * (C + 2) * 3))
    (h : ∀ o, UpTo d (b o) (b' o)) (o : {o // InBuffer ((R + 2) * (C + 2) * 3) o}) :
    UpTo d (sweep oob b o) (sweep oob' b' o) := by
  have hread := Cross.inPlace_upTo (c := flatCross C) (window R C) (Region.read_upTo h oob) o.1
  rw [← read_sweep, ← read_sweep, Region.read_of_valid o.2, Region.read_of_valid o.2] at hread
  rw [sweep_congr_oob oob' oob]
  exact hread

end IterativeGaussSeidel

/-! ### The parallel program -/

/-- One sweep of two pairs of views keeps both views up to `d` above each other. -/
theorem Views.sweep_upTo {d : ℕ} {s s' : Views R C}
    (hin : ∀ k p, UpTo d (s.imgIn.plane k p) (s'.imgIn.plane k p))
    (hout : ∀ k p, UpTo d (s.imgOut.plane k p) (s'.imgOut.plane k p)) (k : ℤ) (p : ℤ × ℤ) :
    UpTo d (s.sweep.imgOut.plane k p) (s'.sweep.imgOut.plane k p) := by
  rw [Views.plane_sweep, Views.plane_sweep]
  by_cases hp : Grid.Interior R C p
  · rw [if_pos hp, if_pos hp]
    exact Cross.mean_upTo (hin k) p
  · rw [if_neg hp, if_neg hp]
    exact hout k p

namespace ParallelGaussSeidel

/-- After any number of iterations the views are as close as the pictures were. -/
theorem loop_upTo {d : ℕ} {img img' : Image (R + 2) (C + 2)}
    (h : ∀ k p, UpTo d (img.plane k p) (img'.plane k p)) (oob oob' : Ix → UInt8)
    (orders orders' : ℕ → Orders R C) (t : ℕ) :
    (∀ k p, UpTo d ((loop oob orders t (Views.start img)).imgIn.plane k p)
        ((loop oob' orders' t (Views.start img')).imgIn.plane k p)) ∧
      ∀ k p, UpTo d ((loop oob orders t (Views.start img)).imgOut.plane k p)
        ((loop oob' orders' t (Views.start img')).imgOut.plane k p) := by
  rw [loop_eq_iterate, loop_eq_iterate]
  induction t with
  | zero => exact ⟨h, fun k p => UpTo.refl d _⟩
  | succ t ih =>
    obtain ⟨hin, hout⟩ := ih
    rw [Function.iterate_succ_apply', Function.iterate_succ_apply']
    exact ⟨Views.sweep_upTo hin hout, Views.sweep_upTo hin hout⟩

theorem filterStage_upTo (build build' : Build) (stray stray' : StrayReads)
    (orders orders' : ℕ → Orders R C) (m m' : Mirrored R C) (t d : ℕ)
    (b b' : Buffer ((R + 2) * (C + 2) * 3)) (h : ∀ o, UpTo d (b o) (b' o))
    (o : {o // InBuffer ((R + 2) * (C + 2) * 3) o}) :
    UpTo d (filterStage build stray (loop stray.view orders t) m b o)
      (filterStage build' stray' (loop stray'.view orders' t) m' b' o) := by
  have hplane : ∀ k p, UpTo d ((Image.ofData b).plane k p) ((Image.ofData b').plane k p) :=
    fun k p => Region.read_upTo (fun x => h ⟨pix (C + 2) x.1, inBuffer_pix x.2⟩) _ _
  have hout := (loop_upTo hplane stray.view stray'.view orders orders' t).2
  have hx := inExtents_unpix o.2
  have hbyte := hout (unpix (C + 2) o).2.2 ((unpix (C + 2) o).1, (unpix (C + 2) o).2.1)
  rw [Image.plane, Image.plane, Region.read_of_valid hx, Region.read_of_valid hx] at hbyte
  rw [filterStage_eq, filterStage_eq]
  exact hbyte

end ParallelGaussSeidel

/-- **The Gauss–Seidel programs never amplify noise.**  Neither the in-place sweep of the
sequential program nor any number of iterations of the parallel one increases the difference of
two buffers or reverses their order, whatever stray reads return, and whatever the builds, the
orders and the initial memories of the two parallel runs are. -/
theorem neverAmplify (R C : ℕ) :
    (∀ oob oob' : ℤ → UInt8, NeverAmplifies
        (fun b : Buffer ((R + 2) * (C + 2) * 3) => IterativeGaussSeidel.sweep oob b)
        (fun b => IterativeGaussSeidel.sweep oob' b)) ∧
      ∀ (build build' : Build) (stray stray' : StrayReads)
        (orders orders' : ℕ → ParallelGaussSeidel.Orders R C) (m m' : Mirrored R C) (t : ℕ),
        NeverAmplifies
          (filterStage build stray (ParallelGaussSeidel.loop stray.view orders t) m)
          (filterStage build' stray' (ParallelGaussSeidel.loop stray'.view orders' t) m') := by
  constructor
  · intro oob oob'
    exact neverAmplifies_of_upTo (IterativeGaussSeidel.sweep_upTo oob oob')
      (IterativeGaussSeidel.sweep_upTo oob' oob)
  · intro build build' stray stray' orders orders' m m' t
    exact neverAmplifies_of_upTo
      (ParallelGaussSeidel.filterStage_upTo build build' stray stray' orders orders' m m' t)
      (ParallelGaussSeidel.filterStage_upTo build' build stray' stray orders' orders m' m t)

end KokkosStencil
