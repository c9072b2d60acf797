import Mathlib.Algebra.BigOperators.Group.Finset.Basic
import Mathlib.Algebra.BigOperators.Intervals
import Mathlib.Order.Interval.Finset.Nat

/-!
# Walks between two walls

`walk M x e` starts at `x`, is pushed by `e 0, e 1, …`, and is stopped by walls at `0` and `M`.
Where it is after `t` steps depends on the pushes through the totals `total e j t` of the last
steps only:

* `walk_eq_zero_iff` : it is at the lower wall iff the pushes drain it (`Drained`);
* `walk_eq_top_iff` : it is at the upper wall iff they fill it (`Filled`);
* `walk_succ_eq_self_iff` : a step leaves it where it is iff the step is zero or pushes into the
  wall the walk is at.
-/

namespace KokkosStencil

namespace ClampedWalk

/-- `n` brought between the walls. -/
def clamp (M n : ℤ) : ℤ := max 0 (min M n)

/-- The position after some steps. -/
def walk (M x : ℤ) (e : ℕ → ℤ) : ℕ → ℤ
  | 0 => x
  | t + 1 => clamp M (walk M x e t + e t)

/-- What steps `j, …, t - 1` push together. -/
def total (e : ℕ → ℤ) (j t : ℕ) : ℤ := ∑ i ∈ Finset.Ico j t, e i

/-- From some step on, the pushes to the end never add up to more than `h`, and either that step
is the first and they carry the start to `h` or below, or they carry even the upper wall there. -/
def Below (M x : ℤ) (e : ℕ → ℤ) (h : ℤ) (t : ℕ) : Prop :=
  ∃ k ≤ t, (∀ j, k ≤ j → j ≤ t → total e j t ≤ h) ∧
    (k = 0 ∧ x + total e 0 t ≤ h ∨ M + total e k t ≤ h)

/-- From some step on, the pushes to the end are never positive together, and either that step is
the first and they carry the start to the lower wall, or they carry even the upper wall there. -/
def Drained (M x : ℤ) (e : ℕ → ℤ) (t : ℕ) : Prop := Below M x e 0 t

/-- The mirror image of `Drained`: from some step on, the pushes to the end are never negative
together, and they carry the start, if that step is the first, or else the lower wall to the upper
one. -/
def Filled (M x : ℤ) (e : ℕ → ℤ) (t : ℕ) : Prop :=
  ∃ k ≤ t, (∀ j, k ≤ j → j ≤ t → 0 ≤ total e j t) ∧
    (k = 0 ∧ M ≤ x + total e 0 t ∨ M ≤ total e k t)

@[simp] theorem total_self (e : ℕ → ℤ) (t : ℕ) : total e t t = 0 := by simp [total]

theorem total_succ (e : ℕ → ℤ) {j t : ℕ} (h : j ≤ t) : total e j (t + 1) = total e j t + e t :=
  Finset.sum_Ico_succ_top h e

theorem total_neg (e : ℕ → ℤ) (j t : ℕ) : total (fun i => -e i) j t = -total e j t :=
  Finset.sum_neg_distrib e

variable {M x : ℤ} {e : ℕ → ℤ}

/-- The walk stays between the walls. -/
theorem walk_mem (hx : 0 ≤ x ∧ x ≤ M) (t : ℕ) : 0 ≤ walk M x e t ∧ walk M x e t ≤ M := by
  cases t with
  | zero => exact hx
  | succ t => simp only [walk, clamp]; omega

/-- A step that ends at or below `h < M` came from at or below `h` less the push. -/
theorem walk_succ_le_iff {h : ℤ} (h₀ : 0 ≤ h) (hM : h < M) (t : ℕ) :
    walk M x e (t + 1) ≤ h ↔ walk M x e t ≤ h - e t := by
  simp only [walk, clamp]
  omega

/-- The totals up to one step later, without the last push. -/
theorem forall_total_succ_le_iff {k t : ℕ} {h : ℤ} (h₀ : 0 ≤ h) :
    (∀ j, k ≤ j → j ≤ t + 1 → total e j (t + 1) ≤ h) ↔
      ∀ j, k ≤ j → j ≤ t → total e j t ≤ h - e t := by
  constructor
  · intro hall j hkj hjt
    have hj := hall j hkj (Nat.le_succ_of_le hjt)
    rw [total_succ e hjt] at hj
    omega
  · intro hall j hkj hjt
    rcases Nat.lt_or_ge t j with hlt | hge
    · obtain rfl : j = t + 1 := by omega
      rw [total_self]
      exact h₀
    · have hj := hall j hkj hge
      rw [total_succ e hge]
      omega

/-- The same condition on the pushes, one step earlier. -/
theorem below_succ_iff {h : ℤ} (h₀ : 0 ≤ h) (hM : h < M) (t : ℕ) :
    Below M x e h (t + 1) ↔
      0 ≤ h - e t ∧ (M ≤ h - e t ∨ Below M x e (h - e t) t) := by
  constructor
  · rintro ⟨k, hk, hall, hend⟩
    have hkt : k ≤ t := by
      by_contra hlt
      obtain rfl : k = t + 1 := by omega
      rw [total_self] at hend
      omega
    rw [forall_total_succ_le_iff h₀] at hall
    have hlast := hall t hkt le_rfl
    rw [total_self] at hlast
    refine ⟨hlast, Or.inr ⟨k, hkt, hall, ?_⟩⟩
    rw [total_succ e (Nat.zero_le t), total_succ e hkt] at hend
    omega
  · rintro ⟨hpush, hM' | ⟨k, hk, hall, hend⟩⟩
    · -- the last push alone carries the upper wall down
      refine ⟨t, Nat.le_succ t, (forall_total_succ_le_iff h₀).2 fun j htj hjt => ?_,
        Or.inr ?_⟩
      · obtain rfl : j = t := le_antisymm hjt htj
        rw [total_self]
        exact hpush
      · rw [total_succ e le_rfl, total_self]
        omega
    · refine ⟨k, Nat.le_succ_of_le hk, (forall_total_succ_le_iff h₀).2 hall, ?_⟩
      rw [total_succ e (Nat.zero_le t), total_succ e hk]
      omega

/-- **Where the walk is low**: the level `h` is reached or undershot iff the last pushes see to
it. -/
theorem walk_le_iff (hx : 0 ≤ x ∧ x ≤ M) (t : ℕ) {h : ℤ} (h₀ : 0 ≤ h) (hM : h < M) :
    walk M x e t ≤ h ↔ Below M x e h t := by
  induction t generalizing h with
  | zero =>
    constructor
    · intro hle
      refine ⟨0, le_rfl, fun j _ hj => ?_, Or.inl ⟨rfl, ?_⟩⟩
      · obtain rfl : j = 0 := by omega
        rwa [total_self]
      · rw [total_self, add_zero]
        exact hle
    · rintro ⟨k, hk, -, hend⟩
      obtain rfl : k = 0 := by omega
      rw [total_self] at hend
      simp only [walk]
      omega
  | succ t ih =>
    have hmem := walk_mem (e := e) hx t
    rw [walk_succ_le_iff h₀ hM, below_succ_iff h₀ hM]
    rcases lt_or_ge (h - e t) 0 with hneg | hpos
    · -- pushed up too far: the walk cannot have been below the lower wall
      constructor
      · intro hle; omega
      · rintro ⟨hle, -⟩; omega
    · rcases lt_or_ge (h - e t) M with hlt | hge
      · rw [ih hpos hlt]
        constructor
        · exact fun hb => ⟨hpos, Or.inr hb⟩
        · rintro ⟨-, hge | hb⟩
          · omega
          · exact hb
      · exact ⟨fun _ => ⟨hpos, Or.inl hge⟩, fun _ => by omega⟩

/-- The walk is at the lower wall iff the pushes drain it. -/
theorem walk_eq_zero_iff (hM : 0 < M) (hx : 0 ≤ x ∧ x ≤ M) (t : ℕ) :
    walk M x e t = 0 ↔ Drained M x e t := by
  rw [Drained, ← walk_le_iff hx t le_rfl hM]
  exact ⟨fun h => h.le, fun h => le_antisymm h (walk_mem hx t).1⟩

/-- Turned upside down, a walk is the walk from the mirrored start with the opposite pushes. -/
theorem walk_mirror (hM : 0 ≤ M) (t : ℕ) :
    walk M (M - x) (fun i => -e i) t = M - walk M x e t := by
  induction t with
  | zero => rfl
  | succ t ih =>
    rw [walk, walk, ih]
    simp only [clamp]
    omega

theorem drained_mirror_iff (t : ℕ) :
    Drained M (M - x) (fun i => -e i) t ↔ Filled M x e t := by
  simp only [Drained, Below, Filled, total_neg]
  constructor
  · rintro ⟨k, hk, hall, hend⟩
    refine ⟨k, hk, fun j hkj hjt => ?_, by omega⟩
    have := hall j hkj hjt
    omega
  · rintro ⟨k, hk, hall, hend⟩
    refine ⟨k, hk, fun j hkj hjt => ?_, by omega⟩
    have := hall j hkj hjt
    omega

/-- The walk is at the upper wall iff the pushes fill it. -/
theorem walk_eq_top_iff (hM : 0 < M) (hx : 0 ≤ x ∧ x ≤ M) (t : ℕ) :
    walk M x e t = M ↔ Filled M x e t := by
  rw [← drained_mirror_iff, ← walk_eq_zero_iff hM (by omega), walk_mirror hM.le]
  constructor <;> intro h <;> omega

/-- **When a step does not show**: the push is zero, or it goes into the wall that the earlier
pushes have brought the walk to. -/
theorem walk_succ_eq_self_iff (hM : 0 < M) (hx : 0 ≤ x ∧ x ≤ M) (t : ℕ) :
    walk M x e (t + 1) = walk M x e t ↔
      e t = 0 ∨ (0 ≤ e t ∧ Filled M x e t) ∨ (e t ≤ 0 ∧ Drained M x e t) := by
  have hmem := walk_mem (e := e) hx t
  rw [← walk_eq_top_iff hM hx, ← walk_eq_zero_iff hM hx]
  simp only [walk, clamp]
  omega

end ClampedWalk

end KokkosStencil
