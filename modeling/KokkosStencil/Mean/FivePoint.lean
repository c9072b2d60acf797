import KokkosStencil.Memory.Sweep
import Mathlib.Data.UInt
import Mathlib.Order.Basic

/-!
# Truncated five-point means

A `Cross` gives every site of a memory four neighbours.  `Cross.mean` is the truncated mean of a
site and its neighbours in 8-bit memory.  The results here say when two such means agree:

* `Cross.mean_eq_mean_iff` : when the difference of the two sums does not carry the first across
  a multiple of `5` (`NoCarry`);
* `Cross.mean_simultaneous_eq_iff` : when recomputing the neighbours of a site first makes no
  difference at the site (`Cross.Steady`).
-/

namespace KokkosStencil

/-- The truncated mean of five bytes; it is a byte again (`toNat_mean5`). -/
def mean5 (a b c d e : UInt8) : UInt8 :=
  UInt8.ofNat ((a.toNat + b.toNat + c.toNat + d.toNat + e.toNat) / 5)

theorem toNat_mean5 (a b c d e : UInt8) :
    (mean5 a b c d e).toNat = (a.toNat + b.toNat + c.toNat + d.toNat + e.toNat) / 5 := by
  have ha := a.toNat_lt
  have hb := b.toNat_lt
  have hc := c.toNat_lt
  have hd := d.toNat_lt
  have he := e.toNat_lt
  exact UInt8.toNat_ofNat_of_lt' (by simp only [UInt8.size]; omega)

/-- The mean depends on the sum only, so the order of the five values is irrelevant. -/
theorem mean5_congr {a b c d e a' b' c' d' e' : UInt8}
    (h : a.toNat + b.toNat + c.toNat + d.toNat + e.toNat =
      a'.toNat + b'.toNat + c'.toNat + d'.toNat + e'.toNat) :
    mean5 a b c d e = mean5 a' b' c' d' e' := by
  rw [mean5, mean5, h]

@[simp] theorem mean5_zero : mean5 0 0 0 0 0 = 0 := rfl

/-- Taking `d` away from `s` leaves its quotient by `5` as it was. -/
def NoCarry (d s : ℤ) : Prop := s % 5 - 4 ≤ d ∧ d ≤ s % 5

instance (d s : ℤ) : Decidable (NoCarry d s) := inferInstanceAs (Decidable (_ ∧ _))

theorem noCarry_iff {d s : ℤ} : NoCarry d s ↔ (s - d) / 5 = s / 5 := by
  unfold NoCarry
  omega

/-- Four neighbours for every site. -/
structure Cross (ι : Type*) where
  /-- The site above. -/
  up : ι → ι
  /-- The site below. -/
  down : ι → ι
  /-- The site to the left. -/
  left : ι → ι
  /-- The site to the right. -/
  right : ι → ι

namespace Cross

variable {ι : Type*} (c : Cross ι)

/-- The sum of a site and its neighbours. -/
def sum (m : ι → UInt8) (x : ι) : ℕ :=
  (m x).toNat + (m (c.left x)).toNat + (m (c.right x)).toNat + (m (c.up x)).toNat +
    (m (c.down x)).toNat

/-- The truncated mean of a site and its neighbours. -/
def mean (m : ι → UInt8) (x : ι) : UInt8 :=
  mean5 (m x) (m (c.left x)) (m (c.right x)) (m (c.up x)) (m (c.down x))

theorem toNat_mean (m : ι → UInt8) (x : ι) : (c.mean m x).toNat = c.sum m x / 5 :=
  toNat_mean5 ..

variable {c}

/-- A fifth of the upper neighbour reaches the mean. -/
theorem up_div_le_mean (m : ι → UInt8) (x : ι) :
    (m (c.up x)).toNat / 5 ≤ (c.mean m x).toNat := by
  rw [toNat_mean, sum]
  omega

/-- Two black neighbours keep the mean at or below `3 * 255 / 5`. -/
theorem toNat_mean_le {m : ι → UInt8} {x : ι} (hr : m (c.right x) = 0) (hd : m (c.down x) = 0) :
    (c.mean m x).toNat ≤ 153 := by
  have hself := (m x).toNat_lt
  have hleft := (m (c.left x)).toNat_lt
  have hup := (m (c.up x)).toNat_lt
  have hzero : (0 : UInt8).toNat = 0 := rfl
  rw [toNat_mean, sum, hr, hd, hzero]
  omega

/-- A mean is white only if everything it reads is. -/
theorem mean_ne_white {m : ι → UInt8} {x : ι} (h : m x ≠ 255 ∨ m (c.left x) ≠ 255 ∨
    m (c.right x) ≠ 255 ∨ m (c.up x) ≠ 255 ∨ m (c.down x) ≠ 255) : c.mean m x ≠ 255 := by
  have hself := (m x).toNat_lt
  have hleft := (m (c.left x)).toNat_lt
  have hright := (m (c.right x)).toNat_lt
  have hup := (m (c.up x)).toNat_lt
  have hdown := (m (c.down x)).toNat_lt
  have hwhite : (255 : UInt8).toNat = 255 := rfl
  simp only [ne_eq, ← UInt8.toNat_inj, toNat_mean, sum, hwhite] at *
  omega

/-- The mean reads the site and its four neighbours only. -/
theorem mean_congr {m m' : ι → UInt8} {x : ι} (h : m x = m' x)
    (hl : m (c.left x) = m' (c.left x)) (hr : m (c.right x) = m' (c.right x))
    (hu : m (c.up x) = m' (c.up x)) (hd : m (c.down x) = m' (c.down x)) :
    c.mean m x = c.mean m' x := by
  simp only [mean, h, hl, hr, hu, hd]

/-- Along a map of sites that keeps the neighbours, means are means. -/
theorem mean_comp {κ : Type*} {c' : Cross κ} {e : κ → ι} {x : κ} (hl : c.left (e x) = e (c'.left x))
    (hr : c.right (e x) = e (c'.right x)) (hu : c.up (e x) = e (c'.up x))
    (hd : c.down (e x) = e (c'.down x)) (m : ι → UInt8) : c.mean m (e x) = c'.mean (m ∘ e) x := by
  simp only [mean, hl, hr, hu, hd, Function.comp_apply]

/-- A change at a site that the mean does not read does not show. -/
theorem mean_update_of_ne [DecidableEq ι] {m : ι → UInt8} {x y : ι} {b : UInt8} (h : x ≠ y)
    (hl : c.left x ≠ y) (hr : c.right x ≠ y) (hu : c.up x ≠ y) (hd : c.down x ≠ y) :
    c.mean (Function.update m y b) x = c.mean m x := by
  simp only [mean, Function.update_of_ne h, Function.update_of_ne hl, Function.update_of_ne hr,
    Function.update_of_ne hu, Function.update_of_ne hd]

/-- Two truncated means agree iff their sums differ by no carry. -/
theorem mean_eq_mean_iff {κ : Type*} {c' : Cross κ} {m : ι → UInt8} {m' : κ → UInt8} {x : ι}
    {y : κ} : c'.mean m' y = c.mean m x ↔
      NoCarry ((c.sum m x : ℤ) - c'.sum m' y) (c.sum m x) := by
  rw [← UInt8.toNat_inj, toNat_mean, toNat_mean, noCarry_iff]
  omega

/-- What the neighbours of `x` lose together from `m` to `m'`. -/
def change (c : Cross ι) (m m' : ι → UInt8) (x : ι) : ℤ :=
  ((m (c.left x)).toNat - (m' (c.left x)).toNat : ℤ) +
    ((m (c.right x)).toNat - (m' (c.right x)).toNat : ℤ) +
    ((m (c.up x)).toNat - (m' (c.up x)).toNat : ℤ) +
    ((m (c.down x)).toNat - (m' (c.down x)).toNat : ℤ)

/-- Where two memories share the site itself, its means agree iff the change of the neighbours
makes no carry. -/
theorem mean_eq_iff_change {m m' : ι → UInt8} {x : ι} (h : m x = m' x) :
    c.mean m' x = c.mean m x ↔ NoCarry (c.change m m' x) (c.sum m x) := by
  rw [mean_eq_mean_iff]
  have hchange : (c.sum m x : ℤ) - c.sum m' x = c.change m m' x := by
    simp only [sum, change, h]
    omega
  rw [hchange]

/-! ### Recomputing the neighbours first -/

variable (c) (S : ι → Prop) [DecidablePred S] (m : ι → UInt8)

/-- What site `y` loses when the sites of `S` are recomputed. -/
def loss (y : ι) : ℤ := if S y then (m y).toNat - (c.mean m y).toNat else 0

/-- Recomputing the neighbours of `x` that lie in `S` does not show in the mean at `x`: what they
lose together does not carry the five-point sum across a multiple of `5`. -/
def Steady (x : ι) : Prop :=
  NoCarry (c.loss S m (c.left x) + c.loss S m (c.right x) + c.loss S m (c.up x) +
    c.loss S m (c.down x)) (c.sum m x)

instance (x : ι) : Decidable (c.Steady S m x) := inferInstanceAs (Decidable (NoCarry _ _))

theorem toNat_simultaneous (y : ι) :
    ((Sweep.simultaneous S c.mean m y).toNat : ℤ) = (m y).toNat - c.loss S m y := by
  by_cases hy : S y
  · rw [Sweep.simultaneous_of_mem hy, loss, if_pos hy]; omega
  · rw [Sweep.simultaneous_of_notMem hy, loss, if_neg hy]; omega

variable {S m}

/-- **When recomputing the neighbours first makes no difference.** -/
theorem mean_simultaneous_eq_iff {x : ι} (hx : ¬ S x) :
    c.mean (Sweep.simultaneous S c.mean m) x = c.mean m x ↔ c.Steady S m x := by
  have hl := c.toNat_simultaneous S m (c.left x)
  have hr := c.toNat_simultaneous S m (c.right x)
  have hu := c.toNat_simultaneous S m (c.up x)
  have hd := c.toNat_simultaneous S m (c.down x)
  have hchange : c.change m (Sweep.simultaneous S c.mean m) x =
      c.loss S m (c.left x) + c.loss S m (c.right x) + c.loss S m (c.up x) +
        c.loss S m (c.down x) := by
    unfold change
    omega
  rw [mean_eq_iff_change (Sweep.simultaneous_of_notMem hx).symm, hchange, Steady]

end Cross

end KokkosStencil
