import KokkosStencil.Run.Scan
import Mathlib.Algebra.Order.BigOperators.GroupWithZero.List
import Mathlib.Data.List.FinRange
import Mathlib.Data.List.Pairwise
import Mathlib.Data.List.Perm.Basic
import Mathlib.Tactic.Linarith

/-!
# Nested loops cut into tiles

`nest ranges` lists what a nest of loops visits, one loop for each entry of `ranges`, the last one
innermost.

* `flatMap_range_blocks` : the blocks between the values of a monotone sequence are consecutive
  and make up one range;
* `map_digits_perm` : counting up to the product of some numbers and splitting every number into
  digits to these bases visits every tuple of digits once;
* `nest_tiles_perm` : nested loops over the tiles of every axis around nested loops inside a tile
  visit what plain nested loops visit, in another order;
* `sharedOut_of_perm` : threads whose indices are together those of a list without repetitions share
  them out.
-/

namespace KokkosStencil

namespace Tiling

variable {α β γ : Type*}

/-! ### Consecutive blocks -/

theorem range_append_range {a b c : ℤ} (hab : a ≤ b) (hbc : b ≤ c) :
    Int.range a b ++ Int.range b c = Int.range a c := by
  have h := Scan.range_append a (b - a).toNat (c - b).toNat
  have hb : a + ((b - a).toNat : ℤ) = b := by omega
  have hc : b + ((c - b).toNat : ℤ) = c := by omega
  rwa [hb, hc] at h

theorem range_eq_nil {a b : ℤ} (h : b ≤ a) : Int.range a b = [] := by
  rw [Int.range, Int.toNat_of_nonpos (by omega)]
  rfl

theorem range_succ {m : ℤ} (hm : 0 ≤ m) : Int.range 0 (m + 1) = Int.range 0 m ++ [m] := by
  rw [← range_append_range hm (Int.le_add_one le_rfl)]
  simp [Int.range]

/-- **The blocks between consecutive values of a monotone sequence make up one range.** -/
theorem flatMap_range_blocks {f : ℤ → ℤ} (hf : ∀ k l, k ≤ l → f k ≤ f l) {m : ℤ} (hm : 0 ≤ m) :
    (Int.range 0 m).flatMap (fun k => Int.range (f k) (f (k + 1))) = Int.range (f 0) (f m) := by
  induction m, hm using Int.leInduction with
  | base => rw [range_eq_nil le_rfl, range_eq_nil le_rfl, List.flatMap_nil]
  | succ m hm ih =>
    rw [range_succ hm, List.flatMap_append, ih, List.flatMap_singleton,
      range_append_range (hf 0 m hm) (hf m (m + 1) (Int.le_add_one le_rfl))]

theorem range_add_right (a b x : ℤ) : Int.range (a + x) (b + x) = (Int.range a b).map (· + x) := by
  rw [Int.range, Int.range, List.map_map, Int.add_sub_add_right]
  exact List.map_congr_left fun i _ => Int.add_right_comm a x i

theorem range_eq_cons {a b : ℤ} (h : a < b) : Int.range a b = a :: Int.range (a + 1) b := by
  rw [← range_append_range (Int.le_add_one le_rfl) (Int.add_one_le_of_lt h)]
  simp [Int.range]

theorem range_eq_append {a b : ℤ} (h : a < b) : Int.range a b = Int.range a (b - 1) ++ [b - 1] := by
  rw [← range_append_range (b := b - 1) (by omega) (by omega)]
  simp [Int.range]

/-- Counting threads. -/
theorem map_finRange (m : ℕ) : (List.finRange m).map (fun t => (t.val : ℤ)) = Int.range 0 m := by
  have h := congrArg (List.map fun i : ℕ => (i : ℤ)) (List.map_coe_finRange_eq_range (n := m))
  rw [List.map_map] at h
  exact h.trans (by simp [Int.range])

/-- Take an element out of one of the lists that are put together. -/
theorem flatMap_update_perm [DecidableEq α] {l : List α} (hnodup : l.Nodup) {t : α} (ht : t ∈ l)
    {f : α → List β} {x : β} {ys : List β} (h : (f t).Perm (x :: ys)) :
    (l.flatMap f).Perm (x :: l.flatMap (Function.update f t ys)) := by
  induction l with
  | nil => cases ht
  | cons a l ih =>
    obtain ⟨ha, hnodup⟩ := List.nodup_cons.1 hnodup
    rw [List.flatMap_cons, List.flatMap_cons]
    by_cases hat : t = a
    · subst hat
      have hrest : l.flatMap (Function.update f t ys) = l.flatMap f :=
        List.flatMap_congr fun u hu => Function.update_of_ne (ne_of_mem_of_not_mem hu ha) _ _
      rw [Function.update_self, hrest, ← List.cons_append]
      exact h.append_right _
    · have htl : t ∈ l := (List.mem_cons.1 ht).resolve_left hat
      rw [Function.update_of_ne (Ne.symm hat)]
      exact ((ih hnodup htl).append_left _).trans List.perm_middle

/-! ### Interchanging loops -/

/-- Two nested loops may be interchanged. -/
theorem flatMap_swap_perm (xs : List α) (ys : List β) (f : α → β → List γ) :
    (xs.flatMap fun x => ys.flatMap (f x)).Perm (ys.flatMap fun y => xs.flatMap (f · y)) := by
  induction xs with
  | nil => simp
  | cons x xs ih =>
    have hinner : (ys.flatMap (f x) ++ xs.flatMap fun x => ys.flatMap (f x)).Perm
        (ys.flatMap (f x) ++ ys.flatMap fun y => xs.flatMap (f · y)) := ih.append_left _
    exact hinner.trans (List.flatMap_append_perm ys (f x) _)

theorem map_swap_perm (xs : List α) (ys : List β) (f : α → β → γ) :
    (xs.flatMap fun x => ys.map (f x)).Perm (ys.flatMap fun y => xs.map (f · y)) := by
  simp only [List.map_eq_flatMap]
  exact flatMap_swap_perm xs ys fun x y => [f x y]

/-! ### Nests of loops -/

/-- The tuples a nest of loops visits; the loop over the first list is the outermost. -/
def nest : List (List α) → List (List α)
  | [] => [[]]
  | xs :: ranges => xs.flatMap fun x => (nest ranges).map (x :: ·)

theorem nest_cons (xs : List α) (ranges : List (List α)) :
    nest (xs :: ranges) = xs.flatMap fun x => (nest ranges).map (x :: ·) := rfl

theorem nest_singleton (xs : List α) : nest [xs] = xs.map fun x => [x] :=
  List.map_eq_flatMap.symm

theorem mem_nest {ranges : List (List α)} {p : List α} :
    p ∈ nest ranges ↔ List.Forall₂ (· ∈ ·) p ranges := by
  induction ranges generalizing p with
  | nil => simp [nest]
  | cons xs ranges ih =>
    simp only [nest_cons, List.mem_flatMap, List.mem_map, ih, List.forall₂_cons_right_iff]
    constructor
    · rintro ⟨x, hx, q, hq, rfl⟩
      exact ⟨x, q, hx, hq, rfl⟩
    · rintro ⟨x, q, hx, hq, rfl⟩
      exact ⟨x, hx, q, hq, rfl⟩

theorem nest_append (as bs : List (List α)) :
    nest (as ++ bs) = (nest as).flatMap fun s => (nest bs).map (s ++ ·) := by
  induction as with
  | nil => simp [nest]
  | cons a as ih =>
    rw [List.cons_append, nest_cons, nest_cons, List.flatMap_assoc]
    congr 1
    funext x
    rw [ih, List.map_flatMap, List.flatMap_map]
    simp only [List.map_map]
    rfl

/-- Loops in other orders visit the same tuples. -/
theorem nest_perm {as bs : List (List α)} (h : List.Forall₂ List.Perm as bs) :
    (nest as).Perm (nest bs) := by
  induction h with
  | nil => exact List.Perm.refl _
  | cons hab _ ih =>
    exact (hab.flatMap_right _).trans (List.Perm.flatMap_left _ fun _ _ => ih.map _)

/-- Loops that repeat nothing visit every tuple once. -/
theorem nodup_nest {ranges : List (List α)} (h : ∀ xs ∈ ranges, xs.Nodup) :
    (nest ranges).Nodup := by
  induction ranges with
  | nil => exact List.nodup_singleton _
  | cons xs ranges ih =>
    obtain ⟨hxs, hranges⟩ := List.forall_mem_cons.1 h
    refine List.nodup_flatMap.2
      ⟨fun x _ => (ih hranges).map List.cons_injective, hxs.imp fun hxy => ?_⟩
    intro p hp hp'
    obtain ⟨q, -, rfl⟩ := List.mem_map.1 hp
    obtain ⟨q', -, hq'⟩ := List.mem_map.1 hp'
    exact hxy (List.cons_eq_cons.1 hq').1.symm

/-- Turning the nest inside out visits the same tuples. -/
theorem map_reverse_nest_perm (ranges : List (List α)) :
    ((nest ranges.reverse).map List.reverse).Perm (nest ranges) := by
  induction ranges with
  | nil => simp [nest]
  | cons xs ranges ih =>
    have hlast : (nest (xs :: ranges).reverse).map List.reverse =
        (nest ranges.reverse).flatMap fun s => xs.map fun x => x :: List.reverse s := by
      simp [nest_append, nest, List.map_eq_flatMap, List.flatMap_assoc]
    rw [hlast, nest_cons]
    refine (map_swap_perm _ xs fun s x => x :: List.reverse s).trans ?_
    refine List.Perm.flatMap_left xs fun x _ => ?_
    have := ih.map (x :: ·)
    rwa [List.map_map] at this

/-- **Tiles.**  Loops over the tiles of each axis around loops inside the tile. -/
theorem nest_tiles_perm (tiles : α → List β) (tile : α → β → List γ) (axes : List α) :
    ((nest (axes.map tiles)).flatMap fun ts => nest (List.zipWith tile axes ts)).Perm
      (nest (axes.map fun a => (tiles a).flatMap (tile a))) := by
  induction axes with
  | nil => simp [nest]
  | cons a axes ih =>
    simp only [List.map_cons, nest_cons, List.flatMap_assoc, List.flatMap_map,
      List.zipWith_cons_cons]
    refine List.Perm.flatMap_left _ fun t _ => ?_
    -- the loop inside the tile of the first axis moves out of the loops over the other tiles
    refine (flatMap_swap_perm _ (tile a t) _).trans (List.Perm.flatMap_left _ fun x _ => ?_)
    rw [← List.map_flatMap]
    exact ih.map _

/-! ### Digits -/

/-- The digits of `t` to the bases `ns`, lowest first. -/
def digits : ℤ → List ℤ → List ℤ
  | _, [] => []
  | t, n :: ns => t % n :: digits (t / n) ns

theorem map_divMod_range {a b : ℤ} (ha : 0 ≤ a) (hb : 0 ≤ b) :
    (Int.range 0 (a * b)).map (fun t => (t / b, t % b)) = Int.range 0 a ×ˢ Int.range 0 b := by
  obtain ⟨a, rfl⟩ := Int.eq_ofNat_of_zero_le ha
  obtain ⟨b, rfl⟩ := Int.eq_ofNat_of_zero_le hb
  have h := Scan.map_product_range 0 0 a b
  simp only [Int.zero_add, Int.zero_mul, Int.add_zero] at h
  rw [← h, List.map_map]
  conv_rhs => rw [← List.map_id (_ ×ˢ _)]
  refine List.map_congr_left fun p hp => ?_
  obtain ⟨q, r⟩ := p
  have hr := Int.mem_range_iff.1 (List.mem_product.1 hp).2
  have hb : (b : ℤ) ≠ 0 := by omega
  have hdiv : (q * b + r) / b = q := by
    rw [Int.add_comm, Int.add_mul_ediv_right _ _ hb, Int.ediv_eq_zero_of_lt hr.1 hr.2,
      Int.zero_add]
  have hmod : (q * b + r) % b = r := by
    rw [Int.add_comm, Int.add_mul_emod_self_right, Int.emod_eq_of_lt hr.1 hr.2]
  simp only [Function.comp_apply, hdiv, hmod, id_eq]

/-- **Every tuple of digits is counted once.** -/
theorem map_digits_perm {ns : List ℤ} (hns : ∀ n ∈ ns, 0 ≤ n) :
    ((Int.range 0 ns.prod).map (digits · ns)).Perm (nest (ns.map (Int.range 0))) := by
  induction ns with
  | nil => simp [nest, digits, Int.range]
  | cons n ns ih =>
    obtain ⟨hn, hns⟩ := List.forall_mem_cons.1 hns
    have hprod : 0 ≤ ns.prod := List.prod_nonneg hns
    -- the lowest digit is the inner loop of the count and the outer loop of the nest
    have hsplit : (Int.range 0 (n :: ns).prod).map (digits · (n :: ns)) =
        (Int.range 0 ns.prod).flatMap fun q =>
          (Int.range 0 n).map fun r => r :: digits q ns := by
      rw [List.prod_cons, Int.mul_comm]
      have h := congrArg (List.map fun p : ℤ × ℤ => p.2 :: digits p.1 ns)
        (map_divMod_range hprod hn)
      rw [List.map_map] at h
      refine h.trans ?_
      show ((Int.range 0 ns.prod).flatMap fun q => (Int.range 0 n).map (Prod.mk q)).map _ = _
      rw [List.map_flatMap]
      simp only [List.map_map]
      rfl
    rw [hsplit, List.map_cons, nest_cons]
    refine (map_swap_perm _ _ fun q r => r :: digits q ns).trans ?_
    refine List.Perm.flatMap_left _ fun r _ => ?_
    have h := (ih hns).map (r :: ·)
    rwa [List.map_map] at h

/-! ### Sharing out -/

/-- The threads `ts` share out the indices `xs`: every index is in the work of one thread, once, and
there are no others. -/
structure SharedOut {τ : Type*} (ts : List τ) (work : τ → List α) (xs : List α) : Prop where
  one : ∀ x ∈ xs, ∃! t, t ∈ ts ∧ x ∈ work t
  nodup : ∀ t ∈ ts, (work t).Nodup
  mem : ∀ t ∈ ts, ∀ x ∈ work t, x ∈ xs

theorem sharedOut_of_perm {τ : Type*} {ts : List τ} {work : τ → List α} {xs : List α}
    (h : (ts.flatMap work).Perm xs) (hxs : xs.Nodup) : SharedOut ts work xs := by
  obtain ⟨hnodup, hdisjoint⟩ := List.nodup_flatMap.1 (h.nodup_iff.2 hxs)
  have : Std.Symm (Function.onFun List.Disjoint work) := ⟨fun _ _ hd _ hu ht => hd ht hu⟩
  refine ⟨fun x hx => ?_, hnodup, fun t ht x hx => h.mem_iff.1 (List.mem_flatMap.2 ⟨t, ht, hx⟩)⟩
  obtain ⟨t, ht, hxt⟩ := List.mem_flatMap.1 (h.mem_iff.2 hx)
  refine ⟨t, ⟨ht, hxt⟩, fun u hu => ?_⟩
  by_contra hne
  exact hdisjoint.forall hu.1 ht hne hu.2 hxt

end Tiling

end KokkosStencil
