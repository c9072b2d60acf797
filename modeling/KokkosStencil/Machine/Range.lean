import Mathlib.Data.Int.Order.Basic
import Mathlib.Data.Option.Basic
import Mathlib.Order.Lattice

/-!
# Integers of a bounded range

A machine integer has the values of a range.  Two ways to compute with one are covered here.

* In C an arithmetic expression whose exact value, or that of a part of it, is out of range has no
  value: `IntExpr.eval range` is then `none`.  `IntExpr.eval_eq_some_iff` says that an expression
  has a value iff every part of it is in range (`IntExpr.InRange`), and that the value is then the
  exact one (`IntExpr.exact`).
* `saturate lo hi` replaces what is out of range by the nearest bound.  Saturating in a wider range
  first makes no difference (`saturate_saturate`).
-/

namespace KokkosStencil

/-! ### Expressions that may overflow -/

/-- Expressions of one integer type; a variable stands as its value. -/
inductive IntExpr where
  | val (n : ℤ)
  | add (a b : IntExpr)
  | sub (a b : IntExpr)
  | mul (a b : IntExpr)
  | mod (a b : IntExpr)
  deriving DecidableEq

namespace IntExpr

instance : Add IntExpr := ⟨add⟩
instance : Sub IntExpr := ⟨sub⟩
instance : Mul IntExpr := ⟨mul⟩
instance : Mod IntExpr := ⟨mod⟩

/-- The exact value. -/
def exact : IntExpr → ℤ
  | val n => n
  | add a b => a.exact + b.exact
  | sub a b => a.exact - b.exact
  | mul a b => a.exact * b.exact
  | mod a b => a.exact.tmod b.exact

/-- Every part of the expression is in range.  A remainder needs a divisor other than `0` and a
quotient in range. -/
def InRange (range : ℤ → Prop) : IntExpr → Prop
  | val n => range n
  | add a b => a.InRange range ∧ b.InRange range ∧ range (a.exact + b.exact)
  | sub a b => a.InRange range ∧ b.InRange range ∧ range (a.exact - b.exact)
  | mul a b => a.InRange range ∧ b.InRange range ∧ range (a.exact * b.exact)
  | mod a b => a.InRange range ∧ b.InRange range ∧ b.exact ≠ 0 ∧ range (a.exact.tdiv b.exact) ∧
      range (a.exact.tmod b.exact)

section

variable {range : ℤ → Prop} (a b : IntExpr)

@[simp] theorem exact_val (n : ℤ) : (val n).exact = n := rfl

@[simp] theorem exact_add : (a + b).exact = a.exact + b.exact := rfl

@[simp] theorem exact_sub : (a - b).exact = a.exact - b.exact := rfl

@[simp] theorem exact_mul : (a * b).exact = a.exact * b.exact := rfl

@[simp] theorem inRange_val (n : ℤ) : (val n).InRange range ↔ range n := Iff.rfl

@[simp] theorem inRange_add : (a + b).InRange range ↔
    a.InRange range ∧ b.InRange range ∧ range (a.exact + b.exact) := Iff.rfl

@[simp] theorem inRange_sub : (a - b).InRange range ↔
    a.InRange range ∧ b.InRange range ∧ range (a.exact - b.exact) := Iff.rfl

@[simp] theorem inRange_mul : (a * b).InRange range ↔
    a.InRange range ∧ b.InRange range ∧ range (a.exact * b.exact) := Iff.rfl

@[simp] theorem inRange_mod : (a % b).InRange range ↔ a.InRange range ∧ b.InRange range ∧
    b.exact ≠ 0 ∧ range (a.exact.tdiv b.exact) ∧ range (a.exact.tmod b.exact) := Iff.rfl

end

variable (range : ℤ → Prop) [DecidablePred range]

/-- A result, if it is in range. -/
def checked (n : ℤ) : Option ℤ := if range n then some n else none

/-- The value of an expression, if it has one. -/
def eval : IntExpr → Option ℤ
  | val n => checked range n
  | add a b => do checked range ((← a.eval) + (← b.eval))
  | sub a b => do checked range ((← a.eval) - (← b.eval))
  | mul a b => do checked range ((← a.eval) * (← b.eval))
  | mod a b => do
    let m ← a.eval
    let n ← b.eval
    if n = 0 ∨ ¬ range (m.tdiv n) then none else checked range (m.tmod n)

variable {range}

@[simp] theorem checked_eq_some_iff {n v : ℤ} : checked range n = some v ↔ range n ∧ v = n := by
  unfold checked
  split_ifs with h
  · simp [h, eq_comm]
  · simp [h]

/-- An operation on two parts whose values are known. -/
theorem bind_checked_eq_some_iff {x y : Option ℤ} {P Q : Prop} {m n v : ℤ}
    (hx : ∀ u, x = some u ↔ P ∧ u = m) (hy : ∀ u, y = some u ↔ Q ∧ u = n) (op : ℤ → ℤ → ℤ) :
    (do checked range (op (← x) (← y))) = some v ↔ (P ∧ Q ∧ range (op m n)) ∧ v = op m n := by
  simp only [bind, Option.bind_eq_some_iff, hx, hy, checked_eq_some_iff]
  constructor
  · rintro ⟨_, ⟨ha, rfl⟩, _, ⟨hb, rfl⟩, hr, rfl⟩
    exact ⟨⟨ha, hb, hr⟩, rfl⟩
  · rintro ⟨⟨ha, hb, hr⟩, rfl⟩
    exact ⟨_, ⟨ha, rfl⟩, _, ⟨hb, rfl⟩, hr, rfl⟩

/-- **When an expression has a value**: iff every part of it is in range; the value is exact. -/
theorem eval_eq_some_iff {e : IntExpr} {v : ℤ} :
    e.eval range = some v ↔ e.InRange range ∧ v = e.exact := by
  induction e generalizing v with
  | val n => exact checked_eq_some_iff
  | add a b iha ihb => exact bind_checked_eq_some_iff (fun _ => iha) (fun _ => ihb) (· + ·)
  | sub a b iha ihb => exact bind_checked_eq_some_iff (fun _ => iha) (fun _ => ihb) (· - ·)
  | mul a b iha ihb => exact bind_checked_eq_some_iff (fun _ => iha) (fun _ => ihb) (· * ·)
  | mod a b iha ihb =>
    simp only [eval, InRange, exact, bind, Option.bind_eq_some_iff, iha, ihb]
    constructor
    · rintro ⟨_, ⟨ha, rfl⟩, _, ⟨hb, rfl⟩, h⟩
      split_ifs at h with hdiv
      rw [checked_eq_some_iff] at h
      push Not at hdiv
      exact ⟨⟨ha, hb, hdiv.1, hdiv.2, h.1⟩, h.2⟩
    · rintro ⟨⟨ha, hb, hne, hdiv, hr⟩, rfl⟩
      refine ⟨_, ⟨ha, rfl⟩, _, ⟨hb, rfl⟩, ?_⟩
      rw [if_neg (by push Not; exact ⟨hne, hdiv⟩), checked_eq_some_iff]
      exact ⟨hr, rfl⟩

/-- An expression has its exact value iff every part of it is in range. -/
theorem eval_eq_exact_iff {e : IntExpr} : e.eval range = some e.exact ↔ e.InRange range := by
  rw [eval_eq_some_iff, and_iff_left rfl]

instance : DecidablePred (InRange range) := fun _ => decidable_of_iff _ eval_eq_exact_iff

end IntExpr

/-! ### Saturation -/

section Saturate

variable {α : Type*} [LinearOrder α]

/-- `n` brought into the range from `lo` to `hi`. -/
def saturate (lo hi n : α) : α := max lo (min hi n)

theorem saturate_of_mem {lo hi n : α} (hlo : lo ≤ n) (hhi : n ≤ hi) : saturate lo hi n = n := by
  rw [saturate, min_eq_right hhi, max_eq_right hlo]

/-- **Saturating twice**: first in a wider range and then in a range is saturating in the range. -/
theorem saturate_saturate {lo hi lo' hi' : α} (hlo : lo' ≤ lo) (hle : lo ≤ hi) (hhi : hi ≤ hi')
    (n : α) : saturate lo hi (saturate lo' hi' n) = saturate lo hi n := by
  unfold saturate
  rcases le_total n lo with hn | hn
  · -- below the range, what the wider one leaves is still below
    have hwide : max lo' (min hi' n) ≤ lo := max_le hlo ((min_le_right _ _).trans hn)
    rw [max_eq_left ((min_le_right _ _).trans hwide), max_eq_left ((min_le_right _ _).trans hn)]
  · rw [max_eq_right (le_min (hlo.trans (hle.trans hhi)) (hlo.trans hn)), ← min_assoc,
      min_eq_left hhi]

end Saturate

end KokkosStencil
