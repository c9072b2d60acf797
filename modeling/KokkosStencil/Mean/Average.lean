import KokkosStencil.Mean.FivePoint
import Mathlib.Algebra.Order.Field.Basic
import Mathlib.Data.Set.Finite.Lemmas
import Mathlib.Order.Iterate
import Mathlib.Tactic.Ring

/-!
# Exact five-point means

`Cross.average` is the mean of a site and its neighbours in a linear ordered field, without
truncation, and `Cross.relax S` replaces the sites of `S` by their means and keeps the others.

The results are discrete maximum principles on a finite `S`.  They rest on a *barrier*, a function
that is positive on `S`, nonnegative elsewhere and above its own mean everywhere on `S`:

* `Cross.nonpos_of_le_relax` : what does not exceed its own relaxation on `S` and is at most `0`
  off `S` is at most `0` everywhere;
* `Cross.relax_eq_of_iterate_eq` : if relaxing a memory some number of times gives it back, then
  relaxing it once already does.
-/

namespace KokkosStencil

namespace Cross

variable {ι K : Type*} [Field K] (c : Cross ι)

/-- The mean of a site and its neighbours. -/
def average (m : ι → K) (x : ι) : K :=
  (m x + m (c.left x) + m (c.right x) + m (c.up x) + m (c.down x)) / 5

/-- Replace the sites of `S` by their means. -/
def relax (S : ι → Prop) [DecidablePred S] (m : ι → K) : ι → K :=
  Sweep.simultaneous S c.average m

variable {c} {S : ι → Prop} [DecidablePred S] {m m' : ι → K}

theorem relax_of_mem {x : ι} (h : S x) : c.relax S m x = c.average m x :=
  Sweep.simultaneous_of_mem h

theorem relax_of_notMem {x : ι} (h : ¬ S x) : c.relax S m x = m x :=
  Sweep.simultaneous_of_notMem h

theorem average_sub (m m' : ι → K) (x : ι) :
    c.average (m - m') x = c.average m x - c.average m' x := by
  simp only [average, Pi.sub_apply]
  ring

theorem average_mul (k : K) (m : ι → K) (x : ι) :
    c.average (fun y => k * m y) x = k * c.average m x := by
  simp only [average]
  ring

theorem relax_sub (m m' : ι → K) : c.relax S (m - m') = c.relax S m - c.relax S m' := by
  funext x
  by_cases hx : S x
  · rw [Pi.sub_apply, relax_of_mem hx, relax_of_mem hx, relax_of_mem hx, average_sub]
  · rw [Pi.sub_apply, relax_of_notMem hx, relax_of_notMem hx, relax_of_notMem hx, Pi.sub_apply]

theorem iterate_relax_sub (m m' : ι → K) (t : ℕ) :
    (c.relax S)^[t] (m - m') = (c.relax S)^[t] m - (c.relax S)^[t] m' := by
  induction t with
  | zero => rfl
  | succ t ih => simp only [Function.iterate_succ_apply', ih, relax_sub]

/-- The sites off `S` are never changed. -/
theorem iterate_relax_of_notMem {x : ι} (h : ¬ S x) (t : ℕ) : (c.relax S)^[t] m x = m x := by
  induction t with
  | zero => rfl
  | succ t ih => rw [Function.iterate_succ_apply', relax_of_notMem h, ih]

/-! ### Order -/

variable [LinearOrder K] [IsStrictOrderedRing K]

theorem average_mono {x : ι} (h : ∀ y, m y ≤ m' y) : c.average m x ≤ c.average m' x := by
  have hsum := add_le_add (add_le_add (add_le_add (add_le_add (h x) (h (c.left x)))
    (h (c.right x))) (h (c.up x))) (h (c.down x))
  exact div_le_div_of_nonneg_right hsum (by norm_num)

theorem relax_monotone : Monotone (c.relax S : (ι → K) → ι → K) := by
  intro m m' h
  exact Sweep.simultaneous_rel (fun _ _ hg _ _ => average_mono hg) h

/-- A function that is positive on `S`, nonnegative elsewhere, and above its own mean on `S`. -/
structure Barrier (c : Cross ι) (S : ι → Prop) (φ : ι → K) : Prop where
  pos : ∀ x, S x → 0 < φ x
  nonneg : ∀ x, 0 ≤ φ x
  average_lt : ∀ x, S x → c.average φ x < φ x

/-- Relaxing a multiple of a barrier, any positive number of times, lowers it on all of `S`. -/
theorem Barrier.iterate_relax_lt {φ : ι → K} (hφ : Barrier c S φ) {k : K} (hk : 0 < k) {x : ι}
    (hx : S x) (t : ℕ) : (c.relax S)^[t + 1] (fun y => k * φ y) x < k * φ x := by
  have hlt : ∀ y, S y → c.relax S (fun z => k * φ z) y < k * φ y := by
    intro y hy
    rw [relax_of_mem hy, average_mul]
    exact mul_lt_mul_of_pos_left (hφ.average_lt y hy) hk
  have hle : c.relax S (fun y => k * φ y) ≤ fun y => k * φ y := by
    intro y
    by_cases hy : S y
    · exact (hlt y hy).le
    · exact (relax_of_notMem hy).le
  -- the first relaxation is strict on `S`, the later ones only go further down
  have hanti := relax_monotone.antitone_iterate_of_map_le hle (Nat.le_add_left 1 t)
  exact lt_of_le_of_lt (hanti x) (hlt x hx)

/-- **The maximum principle.**  A function that is at most `0` off `S` and does not exceed its own
relaxation on `S`, after some positive number of steps, is at most `0`. -/
theorem nonpos_of_le_relax {φ : ι → K} (hφ : Barrier c S φ) (hfin : {x | S x}.Finite) {d : ι → K}
    (hout : ∀ x, ¬ S x → d x ≤ 0) (t : ℕ) (h : ∀ x, S x → d x ≤ (c.relax S)^[t + 1] d x) (x : ι) :
    d x ≤ 0 := by
  by_contra hpos
  push Not at hpos
  have hx : S x := by
    by_contra hx
    exact absurd (hout x hx) (not_le.2 hpos)
  -- the smallest multiple of the barrier above `d` touches it at some `p`
  obtain ⟨p, hp, hmax⟩ := Set.exists_max_image {x | S x} (fun y => d y / φ y) hfin ⟨x, hx⟩
  have hk : 0 < d p / φ p := lt_of_lt_of_le (div_pos hpos (hφ.pos x hx)) (hmax x hx)
  have hle : d ≤ fun y => d p / φ p * φ y := by
    intro y
    by_cases hy : S y
    · exact (div_le_iff₀ (hφ.pos y hy)).1 (hmax y hy)
    · exact (hout y hy).trans (mul_nonneg hk.le (hφ.nonneg y))
  have htouch : d p / φ p * φ p = d p := div_mul_cancel₀ _ (hφ.pos p hp).ne'
  have hlt := hφ.iterate_relax_lt hk hp t
  rw [htouch] at hlt
  exact absurd (h p hp) (not_le.2 (lt_of_le_of_lt (relax_monotone.iterate (t + 1) hle p) hlt))

/-- **Relaxation has no cycles**: a memory that comes back after some positive number of steps
is at rest. -/
theorem relax_eq_of_iterate_eq {φ : ι → K} (hφ : Barrier c S φ) (hfin : {x | S x}.Finite) {t : ℕ}
    (h : (c.relax S)^[t + 1] m = m) : c.relax S m = m := by
  have hnext : (c.relax S)^[t + 1] (c.relax S m) = c.relax S m := by
    rw [← Function.iterate_succ_apply, Function.iterate_succ_apply', h]
  -- what one step changes comes back as well, and it is `0` off `S`
  have hup : (c.relax S)^[t + 1] (c.relax S m - m) = c.relax S m - m := by
    rw [iterate_relax_sub, hnext, h]
  have hdown : (c.relax S)^[t + 1] (m - c.relax S m) = m - c.relax S m := by
    rw [iterate_relax_sub, hnext, h]
  have hout : ∀ x, ¬ S x → c.relax S m x = m x := fun x hx => relax_of_notMem hx
  funext x
  apply le_antisymm
  · have hle := nonpos_of_le_relax hφ hfin (d := c.relax S m - m)
      (fun y hy => by rw [Pi.sub_apply, hout y hy, sub_self]) t (fun y _ => by rw [hup]) x
    exact sub_nonpos.1 hle
  · have hle := nonpos_of_le_relax hφ hfin (d := m - c.relax S m)
      (fun y hy => by rw [Pi.sub_apply, hout y hy, sub_self]) t (fun y _ => by rw [hdown]) x
    exact sub_nonpos.1 hle

end Cross

end KokkosStencil
