import KokkosStencil.Grid.Basic
import KokkosStencil.Mean.Average
import KokkosStencil.Mean.Totals
import KokkosStencil.Mean.UpTo
import Mathlib.Algebra.Order.BigOperators.Group.Finset
import Mathlib.Data.Nat.Cast.Order.Field
import Mathlib.Data.Rat.Cast.Order
import Mathlib.Data.Finset.Card
import Mathlib.Tactic.Linarith
import Mathlib.Tactic.NormNum

/-!
# Jacobi sweeps inside a black boundary

Truncation only ever loses brightness, so a channel with a black boundary fades:

* `Grid.level_jacobi_le`, `Grid.peak_jacobi_le` : a sweep raises neither the sum of the interior
  nor its largest value;
* `Grid.barrier` : the parabola `i * (R + 1 - i)` on the interior is above its own exact mean;
* `Grid.eq_zero_of_jacobi_eq` : the black grid is the only fixed point of the Jacobi sweep.  A
  fixed point does not exceed its exact mean, so the maximum principle applies;
* `Grid.iterate_jacobi_eq_zero` : after `255 * R * C` sweeps every grid is black.  The sweeps of
  the white grid only descend, each of them until black lowers the sum of its cells, and every
  other grid stays below.
-/

namespace KokkosStencil

namespace Grid

variable {R C : ℕ}

/-! ### The barrier -/

/-- The cells inside the boundary. -/
def cells (R C : ℕ) : Finset (ℤ × ℤ) := (rowMajor R C).toFinset

theorem mem_cells {p : ℤ × ℤ} : p ∈ cells R C ↔ Interior R C p := by
  rw [cells, List.mem_toFinset, mem_rowMajor]

theorem card_cells (R C : ℕ) : (cells R C).card = R * C := by
  rw [cells, List.toFinset_card_of_nodup nodup_rowMajor, rowMajor, List.length_product]
  simp [Int.range]

theorem finite_interior (R C : ℕ) : {p | Interior R C p}.Finite := by
  refine (cells R C).finite_toSet.subset fun p hp => ?_
  exact Finset.mem_coe.2 (mem_cells.2 hp)

/-- A parabola in the row on the interior, `0` elsewhere. -/
def parabola (R C : ℕ) (p : ℤ × ℤ) : ℚ :=
  if Interior R C p then (p.1 : ℚ) * (R + 1 - p.1) else 0

theorem parabola_nonneg (p : ℤ × ℤ) : 0 ≤ parabola R C p := by
  unfold parabola
  split_ifs with hp
  · have h₁ : (1 : ℚ) ≤ p.1 := by exact_mod_cast hp.1
    have h₂ : (p.1 : ℚ) ≤ R := by exact_mod_cast hp.2.1
    exact mul_nonneg (by linarith) (by linarith)
  · exact le_rfl

theorem parabola_le {p : ℤ × ℤ} (h₀ : 0 ≤ p.1) (h₁ : p.1 ≤ R + 1) :
    parabola R C p ≤ (p.1 : ℚ) * (R + 1 - p.1) := by
  have h₀' : (0 : ℚ) ≤ p.1 := by exact_mod_cast h₀
  have h₁' : (p.1 : ℚ) ≤ R + 1 := by exact_mod_cast h₁
  unfold parabola
  split_ifs
  · exact le_rfl
  · exact mul_nonneg h₀' (by linarith)

/-- **The barrier** of the interior: the second difference of the parabola is `-2`. -/
theorem barrier (R C : ℕ) : cross.Barrier (Interior R C) (parabola R C) where
  pos p hp := by
    have h₁ : (1 : ℚ) ≤ p.1 := by exact_mod_cast hp.1
    have h₂ : (p.1 : ℚ) ≤ R := by exact_mod_cast hp.2.1
    rw [parabola, if_pos hp]
    exact mul_pos (by linarith) (by linarith)
  nonneg := parabola_nonneg
  average_lt p hp := by
    have hself : parabola R C p = (p.1 : ℚ) * (R + 1 - p.1) := if_pos hp
    obtain ⟨h₁, h₂, -, -⟩ := hp
    have hl := parabola_le (R := R) (C := C) (p := cross.left p) (by simp only [cross]; omega)
      (by simp only [cross]; omega)
    have hr := parabola_le (R := R) (C := C) (p := cross.right p) (by simp only [cross]; omega)
      (by simp only [cross]; omega)
    have hu := parabola_le (R := R) (C := C) (p := cross.up p) (by simp only [cross]; omega)
      (by simp only [cross]; omega)
    have hd := parabola_le (R := R) (C := C) (p := cross.down p) (by simp only [cross]; omega)
      (by simp only [cross]; omega)
    simp only [cross] at hl hr hu hd
    push_cast at hl hr hu hd
    simp only [Cross.average, cross]
    rw [hself, div_lt_iff₀ (by norm_num)]
    linarith

/-! ### Fixed points -/

/-- A truncated mean does not exceed the exact one. -/
theorem toNat_mean_le_average (u : ℤ × ℤ → UInt8) (p : ℤ × ℤ) :
    ((cross.mean u p).toNat : ℚ) ≤ cross.average (fun q => ((u q).toNat : ℚ)) p := by
  have hdiv : ((cross.sum u p / 5 : ℕ) : ℚ) ≤ (cross.sum u p : ℚ) / (5 : ℕ) := Nat.cast_div_le
  rw [Cross.toNat_mean]
  refine hdiv.trans (le_of_eq ?_)
  simp only [Cross.sum, Cross.average]
  push_cast
  ring

/-- **The black grid is the only fixed point** with a black boundary. -/
theorem eq_zero_of_jacobi_eq {u : ℤ × ℤ → UInt8} (hout : ∀ p, ¬ Interior R C p → u p = 0)
    (h : jacobi R C u = u) (p : ℤ × ℤ) : u p = 0 := by
  have hzero : (0 : UInt8).toNat = 0 := rfl
  have hle := Cross.nonpos_of_le_relax (barrier R C) (finite_interior R C)
    (d := fun q => ((u q).toNat : ℚ)) (fun q hq => by rw [hout q hq, hzero, Nat.cast_zero]) 0
    (fun q hq => by
      rw [Function.iterate_one, Cross.relax_of_mem hq]
      calc ((u q).toNat : ℚ) = ((cross.mean u q).toNat : ℚ) := by
            rw [← jacobi_of_interior hq, h]
        _ ≤ cross.average (fun q => ((u q).toNat : ℚ)) q := toNat_mean_le_average u q) p
  have hnat : (u p).toNat ≤ 0 := by exact_mod_cast hle
  rw [← UInt8.toNat_inj, hzero]
  exact Nat.le_zero.1 hnat

/-! ### Fading -/

theorem jacobi_upTo {d : ℕ} {u v : ℤ × ℤ → UInt8} (h : ∀ p, UpTo d (u p) (v p)) (p : ℤ × ℤ) :
    UpTo d (jacobi R C u p) (jacobi R C v p) := Cross.simultaneous_upTo h p

theorem iterate_jacobi_upTo {d : ℕ} {u v : ℤ × ℤ → UInt8} (h : ∀ p, UpTo d (u p) (v p)) (t : ℕ)
    (p : ℤ × ℤ) : UpTo d ((jacobi R C)^[t] u p) ((jacobi R C)^[t] v p) := by
  induction t generalizing p with
  | zero => exact h p
  | succ t ih =>
    rw [Function.iterate_succ_apply', Function.iterate_succ_apply']
    exact jacobi_upTo ih p

/-- The sum of the interior cells. -/
def level (R C : ℕ) (u : ℤ × ℤ → UInt8) : ℕ := ∑ p ∈ cells R C, (u p).toNat

/-- The largest value of an interior cell. -/
def peak (R C : ℕ) (u : ℤ × ℤ → UInt8) : ℕ := (cells R C).sup fun p => (u p).toNat

theorem injective_cross : cross.Injective where
  up p q h := by simpa [cross, Prod.ext_iff] using h
  down p q h := by simpa [cross, Prod.ext_iff] using h
  left p q h := by simpa [cross, Prod.ext_iff] using h
  right p q h := by simpa [cross, Prod.ext_iff] using h

theorem toNat_jacobi_of_mem (u : ℤ × ℤ → UInt8) {p : ℤ × ℤ} (h : p ∈ cells R C) :
    (jacobi R C u p).toNat = (cross.mean u p).toNat := by
  rw [jacobi_of_interior (mem_cells.1 h)]

/-- A sweep does not raise the sum of the interior. -/
theorem level_jacobi_le {u : ℤ × ℤ → UInt8} (hout : ∀ p, ¬ Interior R C p → u p = 0) :
    level R C (jacobi R C u) ≤ level R C u := by
  rw [level, Finset.sum_congr rfl fun p hp => toNat_jacobi_of_mem u hp]
  exact Cross.sum_mean_le injective_cross fun p hp => hout p fun hi => hp (mem_cells.2 hi)

/-- A sweep does not raise the largest value of the interior. -/
theorem peak_jacobi_le {u : ℤ × ℤ → UInt8} (hout : ∀ p, ¬ Interior R C p → u p = 0) :
    peak R C (jacobi R C u) ≤ peak R C u := by
  rw [peak, Finset.sup_congr rfl fun p hp => toNat_jacobi_of_mem u hp]
  exact Cross.sup_mean_le fun p hp => hout p fun hi => hp (mem_cells.2 hi)

/-- A grid that a sweep raises nowhere. -/
def Descends (R C : ℕ) (u : ℤ × ℤ → UInt8) : Prop := ∀ p, UpTo 0 (jacobi R C u p) (u p)

/-- White inside, black outside. -/
def white (R C : ℕ) (p : ℤ × ℤ) : UInt8 := if Interior R C p then 255 else 0

/-- As long as a descending grid is not at rest, a sweep lowers its level. -/
theorem Descends.level_lt {u : ℤ × ℤ → UInt8} (h : Descends R C u) (hne : jacobi R C u ≠ u) :
    level R C (jacobi R C u) < level R C u := by
  obtain ⟨p, hp⟩ := Function.ne_iff.1 hne
  have hmem : p ∈ cells R C := by
    by_contra hmem
    exact hp (jacobi_of_not_interior fun hi => hmem (mem_cells.2 hi))
  have hlt : (jacobi R C u p).toNat < (u p).toNat :=
    lt_of_le_of_ne (h p) fun e => hp (UInt8.toNat_inj.1 e)
  exact Finset.sum_lt_sum (fun q _ => h q) ⟨p, hmem, hlt⟩

theorem level_white (R C : ℕ) : level R C (white R C) = 255 * R * C := by
  have hcell : ∀ p ∈ cells R C, (white R C p).toNat = 255 := by
    intro p hp
    rw [white, if_pos (mem_cells.1 hp)]
    rfl
  rw [level, Finset.sum_congr rfl hcell, Finset.sum_const, card_cells, nsmul_eq_mul, Nat.cast_id]
  ring

theorem white_of_not_interior {p : ℤ × ℤ} (h : ¬ Interior R C p) : white R C p = 0 := if_neg h

theorem descends_white (R C : ℕ) : Descends R C (white R C) := by
  intro p
  by_cases hp : Interior R C p
  · have hwhite : white R C p = 255 := if_pos hp
    rw [hwhite]
    exact upTo_white 0 _
  · rw [jacobi_of_not_interior hp]
    exact UpTo.refl 0 _

theorem upTo_white_grid {u : ℤ × ℤ → UInt8} (hout : ∀ p, ¬ Interior R C p → u p = 0)
    (p : ℤ × ℤ) : UpTo 0 (u p) (white R C p) := by
  by_cases hp : Interior R C p
  · have hwhite : white R C p = 255 := if_pos hp
    rw [hwhite]
    exact upTo_white 0 _
  · rw [hout p hp, white_of_not_interior hp]
    exact UpTo.refl 0 _

/-- The white grid is black after `255 * R * C` sweeps: until then each sweep lowers its level. -/
theorem iterate_jacobi_white {t : ℕ} (ht : 255 * R * C ≤ t) (p : ℤ × ℤ) :
    (jacobi R C)^[t] (white R C) p = 0 := by
  have hfix : jacobi R C ((jacobi R C)^[t] (white R C)) = (jacobi R C)^[t] (white R C) :=
    iterate_fixed_of_rank (I := Descends R C) (fun _ h => jacobi_upTo h)
      (fun _ h hne => h.level_lt hne) (descends_white R C) ((level_white R C).le.trans ht)
  refine eq_zero_of_jacobi_eq (fun q hq => ?_) hfix p
  rw [iterate_jacobi_of_not_interior hq, white_of_not_interior hq]

/-- **Every grid with a black boundary is black** after `255 * R * C` sweeps. -/
theorem iterate_jacobi_eq_zero {u : ℤ × ℤ → UInt8} (hout : ∀ p, ¬ Interior R C p → u p = 0)
    {t : ℕ} (ht : 255 * R * C ≤ t) (p : ℤ × ℤ) : (jacobi R C)^[t] u p = 0 :=
  (iterate_jacobi_upTo (upTo_white_grid hout) t p).eq_zero (iterate_jacobi_white ht p)

end Grid

end KokkosStencil
