import KokkosStencil.Mean.Totals
import KokkosStencil.Run.Launch
import Mathlib.Algebra.Order.Ring.Abs
import Mathlib.Tactic.Linarith
import Mathlib.Tactic.Ring

/-!
# In-place sweeps settle

Sweeping the same sites in place, again and again, with truncated five-point means comes to rest,
whatever the memory holds on the sites and around them.  Nothing about the order of the sites, nor
about the shape they form, is used; only that a site is its right neighbour's left neighbour and so
on (`Cross.Mutual`).

What falls is a potential (`Cross.potential`): the squares of the differences across the edges and
four times the values.

* `Cross.potential_visit` : a visit that changes a site lowers the potential by two at least, even
  where the truncation makes the picture rougher;
* `Cross.inPlace_eq_self_iff` : so a sweep that changes nothing has every site at its own mean;
* `Cross.inPlace_iterate_fixed` : and after `65535` sweeps for every site that edges start from,
  sweeping changes nothing any more.
-/

namespace KokkosStencil

namespace Cross

variable {ι : Type*} {c : Cross ι}

/-- Neighbours are neighbours of each other, and of no site on both sides. -/
structure Mutual (c : Cross ι) : Prop where
  right_eq_iff : ∀ x y, c.right x = y ↔ x = c.left y
  down_eq_iff : ∀ x y, c.down x = y ↔ x = c.up y

/-- The square of the difference across the edge from `x` to `f x`. -/
def edge (f : ι → ι) (m : ι → UInt8) (x : ι) : ℤ :=
  (((m x).toNat : ℤ) - (m (f x)).toNat) ^ 2

/-- The squares across the edges that start in `V`, and four times the values on `V`. -/
def potential (c : Cross ι) (V : Finset ι) (m : ι → UInt8) : ℤ :=
  ∑ x ∈ V, edge c.right m x + ∑ x ∈ V, edge c.down m x + 4 * ∑ x ∈ V, ((m x).toNat : ℤ)

/-- How many visits that change a site the potential allows. -/
def changesLeft (c : Cross ι) (V : Finset ι) (m : ι → UInt8) : ℕ := (potential c V m).toNat / 2

/-- The edges that start in `V` are all edges at the sites of `S`, and none of them is a loop. -/
structure Covers (c : Cross ι) (V S : Finset ι) : Prop where
  self : ∀ x ∈ S, x ∈ V
  left : ∀ x ∈ S, c.left x ∈ V
  up : ∀ x ∈ S, c.up x ∈ V
  right_ne : ∀ x ∈ S, c.right x ≠ x
  down_ne : ∀ x ∈ S, c.down x ≠ x

theorem edge_bounds (f : ι → ι) (m : ι → UInt8) (x : ι) :
    0 ≤ edge f m x ∧ edge f m x ≤ 255 ^ 2 := by
  have hx := (m x).toNat_lt
  have hf := (m (f x)).toNat_lt
  exact ⟨sq_nonneg _, sq_le_sq' (by omega) (by omega)⟩

theorem potential_nonneg (V : Finset ι) (m : ι → UInt8) : 0 ≤ potential c V m := by
  have hright := Finset.sum_nonneg fun x (_ : x ∈ V) => (edge_bounds c.right m x).1
  have hdown := Finset.sum_nonneg fun x (_ : x ∈ V) => (edge_bounds c.down m x).1
  have hvalues := Finset.sum_nonneg fun x (_ : x ∈ V) => Int.natCast_nonneg (m x).toNat
  rw [potential]
  omega

theorem changesLeft_le (V : Finset ι) (m : ι → UInt8) : changesLeft c V m ≤ 65535 * V.card := by
  have hedges : ∀ f : ι → ι, ∑ x ∈ V, edge f m x ≤ V.card * 255 ^ 2 := by
    intro f
    rw [← nsmul_eq_mul]
    exact Finset.sum_le_card_nsmul V _ _ fun x _ => (edge_bounds f m x).2
  have hvalues : ∑ x ∈ V, ((m x).toNat : ℤ) ≤ V.card * 255 := by
    rw [← nsmul_eq_mul]
    refine Finset.sum_le_card_nsmul V _ _ fun x _ => ?_
    have := (m x).toNat_lt
    omega
  have hright := hedges c.right
  have hdown := hedges c.down
  rw [changesLeft, potential]
  omega

variable [DecidableEq ι] {V S : Finset ι} {m : ι → UInt8}

/-- A new value at `x` shows in the edge to `f x` and in the edge from `g x` to `x`. -/
theorem sum_edge_update {f g : ι → ι} (hfg : ∀ x y, f x = y ↔ x = g y) {x : ι} (hx : x ∈ V)
    (hgx : g x ∈ V) (hne : f x ≠ x) (b : UInt8) :
    ∑ y ∈ V, edge f (Function.update m x b) y - ∑ y ∈ V, edge f m y =
      ((b.toNat : ℤ) - (m (f x)).toNat) ^ 2 - (((m x).toNat : ℤ) - (m (f x)).toNat) ^ 2 +
        (((m (g x)).toNat - (b.toNat : ℤ)) ^ 2 - (((m (g x)).toNat : ℤ) - (m x).toNat) ^ 2) := by
  have hfgx : f (g x) = x := (hfg _ _).2 rfl
  have hne' : x ≠ g x := fun h => hne ((hfg x x).2 h)
  have hother : ∀ y ∈ V, y ≠ x ∧ y ≠ g x →
      edge f (Function.update m x b) y - edge f m y = 0 := by
    rintro y - ⟨hyx, hyg⟩
    have hfy : f y ≠ x := fun h => hyg ((hfg y x).1 h)
    rw [edge, edge, Function.update_of_ne hyx, Function.update_of_ne hfy, sub_self]
  rw [← Finset.sum_sub_distrib, Finset.sum_eq_add_of_mem x (g x) hx hgx hne' hother]
  simp only [edge, hfgx, Function.update_self, Function.update_of_ne hne,
    Function.update_of_ne hne'.symm]

theorem sum_toNat_update {x : ι} (hx : x ∈ V) (b : UInt8) :
    ∑ y ∈ V, ((Function.update m x b y).toNat : ℤ) - ∑ y ∈ V, ((m y).toNat : ℤ) =
      b.toNat - (m x).toNat := by
  have hother : ∀ y ∈ V, y ≠ x →
      ((Function.update m x b y).toNat : ℤ) - (m y).toNat = 0 := by
    intro y _ hyx
    rw [Function.update_of_ne hyx, sub_self]
  rw [← Finset.sum_sub_distrib, Finset.sum_eq_single_of_mem x hx hother, Function.update_self]

/-- The quadratic form of a visit: `b` is the truncated mean of `a` and four neighbours that add up
to `s`. -/
theorem visit_form_le {a b s : ℤ} (h₁ : 5 * b ≤ a + s) (h₂ : a + s ≤ 5 * b + 4) (hne : b ≠ a) :
    4 * (b * b - a * a) - 2 * ((b - a) * s) + 4 * (b - a) ≤ -2 := by
  rcases lt_or_gt_of_ne hne with hlt | hgt
  · -- a falling site: truncation costs at most `8` a step, the values give `4` of it back
    nlinarith [mul_le_mul_of_nonneg_left h₂ (sub_nonneg.2 hlt.le), mul_self_nonneg (a - b - 1)]
  · nlinarith [mul_le_mul_of_nonneg_left h₁ (sub_nonneg.2 hgt.le), mul_self_nonneg (b - a - 1)]

/-- **A visit that changes a site lowers the potential.** -/
theorem potential_visit (hc : c.Mutual) (hV : c.Covers V S) {x : ι} (hx : x ∈ S)
    (hne : c.mean m x ≠ m x) : potential c V (Sweep.visit c.mean m x) + 2 ≤ potential c V m := by
  have hright := sum_edge_update (m := m) hc.right_eq_iff (hV.self x hx) (hV.left x hx)
    (hV.right_ne x hx) (c.mean m x)
  have hdown := sum_edge_update (m := m) hc.down_eq_iff (hV.self x hx) (hV.up x hx)
    (hV.down_ne x hx) (c.mean m x)
  have hvalues := sum_toNat_update (m := m) (hV.self x hx) (c.mean m x)
  have hmean := c.toNat_mean m x
  rw [sum] at hmean
  have hform := visit_form_le (a := (m x).toNat) (b := (c.mean m x).toNat)
    (s := (m (c.left x)).toNat + (m (c.right x)).toNat + (m (c.up x)).toNat +
      (m (c.down x)).toNat) (by omega) (by omega)
    (fun h => hne (UInt8.toNat_inj.1 (Int.ofNat.inj h)))
  rw [potential, potential, Sweep.visit]
  linarith

/-- A sweep that changes something lowers the potential. -/
theorem potential_inPlace (hc : c.Mutual) (hV : c.Covers V S) {ps : List ι}
    (hps : ∀ x ∈ ps, x ∈ S) : (∀ x ∈ ps, c.mean m x = m x) ∧ Sweep.inPlace c.mean ps m = m ∨
      potential c V (Sweep.inPlace c.mean ps m) + 2 ≤ potential c V m := by
  induction ps generalizing m with
  | nil => exact Or.inl ⟨fun x hx => absurd hx List.not_mem_nil, rfl⟩
  | cons x ps ih =>
    obtain ⟨hx, hps⟩ := List.forall_mem_cons.1 hps
    rw [Sweep.inPlace_cons]
    by_cases hfix : c.mean m x = m x
    · rw [Sweep.visit, hfix, Function.update_eq_self]
      refine (ih hps).imp_left fun h => ⟨List.forall_mem_cons.2 ⟨hfix, h.1⟩, h.2⟩
    · right
      have hvisit := potential_visit hc hV hx hfix
      rcases ih (m := Sweep.visit c.mean m x) hps with ⟨-, hrest⟩ | hrest
      · rwa [hrest]
      · omega

/-- **A sweep at rest has every site at its own mean**: a later visit undoes no earlier one. -/
theorem inPlace_eq_self_iff (hc : c.Mutual) (hV : c.Covers V S) {ps : List ι}
    (hps : ∀ x ∈ ps, x ∈ S) :
    Sweep.inPlace c.mean ps m = m ↔ ∀ x ∈ ps, c.mean m x = m x := by
  constructor
  · intro h
    rcases potential_inPlace (m := m) hc hV hps with ⟨hfix, -⟩ | hlt
    · exact hfix
    · rw [h] at hlt
      omega
  · intro h
    induction ps with
    | nil => rfl
    | cons x ps ih =>
      obtain ⟨hfix, hrest⟩ := List.forall_mem_cons.1 h
      rw [Sweep.inPlace_cons, Sweep.visit, hfix, Function.update_eq_self]
      exact ih (List.forall_mem_cons.1 hps).2 hrest

/-- **In-place sweeps settle.** -/
theorem inPlace_iterate_fixed (hc : c.Mutual) (hV : c.Covers V S) {ps : List ι}
    (hps : ∀ x ∈ ps, x ∈ S) {t : ℕ} (ht : 65535 * V.card ≤ t) :
    Sweep.inPlace c.mean ps ((Sweep.inPlace c.mean ps)^[t] m) =
      (Sweep.inPlace c.mean ps)^[t] m := by
  have hfewer : ∀ m : ι → UInt8, True → Sweep.inPlace c.mean ps m ≠ m →
      changesLeft c V (Sweep.inPlace c.mean ps m) < changesLeft c V m := by
    intro m _ hne
    have hnonneg := potential_nonneg (c := c) V (Sweep.inPlace c.mean ps m)
    rcases potential_inPlace (m := m) hc hV hps with ⟨-, h⟩ | h
    · exact absurd h hne
    · rw [changesLeft, changesLeft]
      omega
  exact iterate_fixed_of_rank (I := fun _ => True) (fun _ _ => trivial) hfewer trivial
    ((changesLeft_le V m).trans ht)

end Cross

end KokkosStencil
