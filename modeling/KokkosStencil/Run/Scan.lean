import Mathlib.Data.Int.Range
import Mathlib.Data.List.ProdSigma
import Mathlib.Tactic.Ring

/-!
# Nested loops over integer ranges

A loop `for i in [a, b)` around a loop `for j in [c, d)` runs through the list
`Int.range a b ×ˢ Int.range c d`.

* `Scan.pairwise_product` : the index pairs ascend in row-major order (`Scan.Before`);
* `Scan.map_product_range` : when the inner range has the length of a row, the linearised
  indices `i * width + j` run through one interval without a gap.
-/

namespace KokkosStencil

namespace Scan

/-- Row-major order of index pairs. -/
def Before (p q : ℤ × ℤ) : Prop := p.1 < q.1 ∨ p.1 = q.1 ∧ p.2 < q.2

instance : DecidableRel Before := fun _ _ => inferInstanceAs (Decidable (_ ∨ _))

theorem Before.asymm (p q : ℤ × ℤ) (h : Before p q) : ¬ Before q p := by
  unfold Before at *
  omega

theorem lt_asymm_int (a b : ℤ) (h : a < b) : ¬ b < a := by omega

theorem range_add (a : ℤ) (n : ℕ) :
    Int.range a (a + n) = (List.range n).map fun r : ℕ => a + r := by
  simp [Int.range]

theorem pairwise_range (a b : ℤ) : (Int.range a b).Pairwise (· < ·) := by
  unfold Int.range
  rw [List.pairwise_map]
  exact List.pairwise_lt_range.imp fun h => by omega

theorem range_append (a : ℤ) (m n : ℕ) :
    Int.range a (a + m) ++ Int.range (a + m) (a + m + n) = Int.range a (a + m + n) := by
  rw [range_add, range_add, show a + (m : ℤ) + n = a + ((m + n : ℕ) : ℤ) by push_cast; ring,
    range_add, List.range_add, List.map_append, List.map_map]
  congr 1
  refine List.map_congr_left fun r _ => ?_
  simp only [Function.comp_apply]
  push_cast
  ring

theorem map_add_range (x a : ℤ) (n : ℕ) :
    (Int.range a (a + n)).map (x + ·) = Int.range (x + a) (x + a + n) := by
  rw [range_add, range_add, List.map_map]
  refine List.map_congr_left fun r _ => ?_
  simp only [Function.comp_apply]
  ring

/-- Nested loops visit the index pairs in row-major order. -/
theorem pairwise_product {xs ys : List ℤ} (hx : xs.Pairwise (· < ·)) (hy : ys.Pairwise (· < ·)) :
    (xs ×ˢ ys).Pairwise Before := by
  induction xs with
  | nil => exact List.Pairwise.nil
  | cons x xs ih =>
    obtain ⟨hx₀, hx⟩ := List.pairwise_cons.1 hx
    rw [List.product_cons, List.pairwise_append]
    refine ⟨?_, ih hx, ?_⟩
    · rw [List.pairwise_map]
      exact hy.imp fun h => Or.inr ⟨rfl, h⟩
    · intro p hp q hq
      obtain ⟨y, -, rfl⟩ := List.mem_map.1 hp
      exact Or.inl (hx₀ q.1 (List.mem_product.1 hq).1)

theorem product_append (xs xs' ys : List ℤ) :
    (xs ++ xs') ×ˢ ys = xs ×ˢ ys ++ xs' ×ˢ ys := List.flatMap_append

/-- Linearised with the length of the inner range as row length, the indices of a nested loop
are consecutive. -/
theorem map_product_range (a c : ℤ) (height width : ℕ) :
    (Int.range a (a + height) ×ˢ Int.range c (c + width)).map
      (fun p : ℤ × ℤ => p.1 * width + p.2) =
    Int.range (a * width + c) ((a + height) * width + c) := by
  -- a further row continues the interval where the rows before it end
  induction height with
  | zero => simp [Int.range]
  | succ n ih =>
    have hrow : Int.range (a + n) (a + n + 1) = [a + n] := by simp [Int.range]
    have hlast : a * width + c + ((n * width : ℕ) : ℤ) = (a + n) * width + c := by
      push_cast; ring
    have hsucc := range_append a n 1
    have happ := range_append (a * width + c) (n * width) width
    rw [Nat.cast_one] at hsucc
    rw [hlast] at happ
    rw [Nat.cast_succ, ← add_assoc a, ← hsucc, product_append, List.map_append, ih, hrow,
      List.product_cons, List.nil_product, List.append_nil, List.map_map]
    have hmap : ((fun p : ℤ × ℤ => p.1 * width + p.2) ∘ fun b => (a + n, b)) =
        fun b => (a + (n : ℤ)) * width + b := rfl
    rw [hmap, map_add_range, happ]
    congr 1
    ring

end Scan

end KokkosStencil
