import KokkosStencil.Mean.FivePoint
import Mathlib.Algebra.BigOperators.Ring.Finset
import Mathlib.Algebra.Order.BigOperators.Group.Finset
import Mathlib.Data.Finset.Lattice.Fold
import Mathlib.Order.Lattice.Nat

/-!
# Totals of five-point means

On a finite set of sites outside of which the memory is black, the truncated means are together at
most the values they are taken of:

* `Cross.sum_mean_le` : their sum, by counting twice.  A site is read by itself and, as the left,
  right, upper and lower neighbour, by at most one site each (`Cross.Injective`), so the five-point
  sums add up to at most five times the memory;
* `Cross.sup_mean_le` : and their maximum.
-/

namespace KokkosStencil

namespace Cross

variable {ι : Type*} {c : Cross ι} {S : Finset ι} {m : ι → UInt8}

/-- No two sites have the same neighbour on the same side. -/
structure Injective (c : Cross ι) : Prop where
  up : Function.Injective c.up
  down : Function.Injective c.down
  left : Function.Injective c.left
  right : Function.Injective c.right

/-- What the sites of `S` read through one neighbour is at most what they hold. -/
theorem sum_comp_le (hout : ∀ x, x ∉ S → m x = 0) {f : ι → ι} (hf : Function.Injective f) :
    ∑ x ∈ S, (m (f x)).toNat ≤ ∑ x ∈ S, (m x).toNat := by
  classical
  have hin : ∀ y ∈ S.image f, (m y).toNat ≠ 0 → y ∈ S := by
    intro y _ hy
    by_contra hS
    rw [hout y hS] at hy
    exact hy rfl
  calc ∑ x ∈ S, (m (f x)).toNat = ∑ y ∈ S.image f, (m y).toNat := by
        rw [Finset.sum_image fun _ _ _ _ h => hf h]
    _ ≤ ∑ y ∈ S, (m y).toNat := Finset.sum_le_sum_of_ne_zero hin

/-- The five-point sums of `S` add up to at most five times `S`. -/
theorem sum_sum_le (hc : c.Injective) (hout : ∀ x, x ∉ S → m x = 0) :
    ∑ x ∈ S, c.sum m x ≤ 5 * ∑ x ∈ S, (m x).toNat := by
  have hleft := sum_comp_le hout hc.left
  have hright := sum_comp_le hout hc.right
  have hup := sum_comp_le hout hc.up
  have hdown := sum_comp_le hout hc.down
  simp only [sum, Finset.sum_add_distrib]
  omega

/-- **Means add up to no more** than the memory. -/
theorem sum_mean_le (hc : c.Injective) (hout : ∀ x, x ∉ S → m x = 0) :
    ∑ x ∈ S, (c.mean m x).toNat ≤ ∑ x ∈ S, (m x).toNat := by
  have hfive : 5 * ∑ x ∈ S, (c.mean m x).toNat ≤ 5 * ∑ x ∈ S, (m x).toNat := by
    rw [Finset.mul_sum]
    refine (Finset.sum_le_sum fun x _ => ?_).trans (sum_sum_le hc hout)
    rw [toNat_mean]
    exact Nat.mul_div_le _ 5
  omega

/-- A mean exceeds no bound of the memory. -/
theorem toNat_mean_le_of_forall {b : ℕ} (h : ∀ y, (m y).toNat ≤ b) (x : ι) :
    (c.mean m x).toNat ≤ b := by
  have hself := h x
  have hleft := h (c.left x)
  have hright := h (c.right x)
  have hup := h (c.up x)
  have hdown := h (c.down x)
  rw [toNat_mean, sum]
  omega

/-- **No mean exceeds the maximum** of the memory. -/
theorem sup_mean_le (hout : ∀ x, x ∉ S → m x = 0) :
    (S.sup fun x => (c.mean m x).toNat) ≤ S.sup fun x => (m x).toNat := by
  refine Finset.sup_le fun x _ => toNat_mean_le_of_forall (fun y => ?_) x
  by_cases hy : y ∈ S
  · exact Finset.le_sup (f := fun x => (m x).toNat) hy
  · rw [hout y hy]
    exact Nat.zero_le _

end Cross

end KokkosStencil
