import KokkosStencil.Run.Tiling

/-!
# Blocks of a flat memory

In a memory with a cell for every address, the cells from an address on are copied to those from
another on.

* `copyBlock_append` : copying one block and then the next copies both, if the whole source and the
  whole target have no cell in common;
* `foldl_copyBlock` : so does copying many blocks of one size.
-/

namespace KokkosStencil

namespace FlatMemory

variable {β : Type*}

/-- The memory after the `n` cells from `src` on have been copied to those from `dst` on. -/
def copyBlock (dst src n : ℤ) (m : ℤ → β) : ℤ → β :=
  fun a => if dst ≤ a ∧ a < dst + n then m (src + (a - dst)) else m a

/-- The `n` cells from `dst` on and the `n` cells from `src` on are different ones. -/
def Apart (dst src n : ℤ) : Prop := dst + n ≤ src ∨ src + n ≤ dst

instance (dst src n : ℤ) : Decidable (Apart dst src n) := inferInstanceAs (Decidable (_ ∨ _))

variable {dst src n : ℤ} {m : ℤ → β}

theorem Apart.mono {k l : ℤ} (h : Apart dst src n) (hk : 0 ≤ k) (hn : k + l ≤ n) :
    Apart (dst + k) (src + k) l := by
  unfold Apart at *
  omega

theorem copyBlock_of_mem {a : ℤ} (h : dst ≤ a ∧ a < dst + n) :
    copyBlock dst src n m a = m (src + (a - dst)) := if_pos h

theorem copyBlock_of_notMem {a : ℤ} (h : ¬ (dst ≤ a ∧ a < dst + n)) :
    copyBlock dst src n m a = m a := if_neg h

theorem copyBlock_of_nonpos (h : n ≤ 0) : copyBlock dst src n m = m := by
  funext a
  exact copyBlock_of_notMem (by omega)

theorem copyBlock_self (a n : ℤ) (m : ℤ → β) : copyBlock a a n m = m := by
  funext b
  by_cases h : a ≤ b ∧ b < a + n
  · rw [copyBlock_of_mem h, add_sub_cancel]
  · exact copyBlock_of_notMem h

theorem copyBlock_one (dst src : ℤ) (m : ℤ → β) :
    copyBlock dst src 1 m = Function.update m dst (m src) := by
  funext a
  by_cases h : a = dst
  · subst h
    rw [Function.update_self, copyBlock_of_mem (by omega), sub_self, add_zero]
  · rw [Function.update_of_ne h, copyBlock_of_notMem (by omega)]

/-- **One block and then the next.** -/
theorem copyBlock_append {k l : ℤ} (hk : 0 ≤ k) (hl : 0 ≤ l) (h : Apart dst src (k + l)) :
    copyBlock (dst + k) (src + k) l (copyBlock dst src k m) = copyBlock dst src (k + l) m := by
  unfold Apart at h
  funext a
  by_cases hnext : dst + k ≤ a ∧ a < dst + k + l
  · -- the source of the second block has not been overwritten
    rw [copyBlock_of_mem hnext, copyBlock_of_notMem (by omega), copyBlock_of_mem (by omega)]
    congr 1
    omega
  · rw [copyBlock_of_notMem hnext]
    by_cases hfirst : dst ≤ a ∧ a < dst + k
    · rw [copyBlock_of_mem hfirst, copyBlock_of_mem (by omega)]
    · rw [copyBlock_of_notMem hfirst, copyBlock_of_notMem (by omega)]

/-- One cell more. -/
theorem update_copyBlock {k : ℤ} (hk : 0 ≤ k) (h : Apart dst src (k + 1)) :
    Function.update (copyBlock dst src k m) (dst + k) (copyBlock dst src k m (src + k)) =
      copyBlock dst src (k + 1) m := by
  rw [← copyBlock_one, copyBlock_append hk Int.one_nonneg h]

/-- **Blocks of one size, one after the other.** -/
theorem foldl_copyBlock {w : ℤ} (hw : 0 ≤ w) (k : ℕ) (h : Apart dst src (k * w)) :
    (Int.range 0 k).foldl (fun m i => copyBlock (dst + i * w) (src + i * w) w m) m =
      copyBlock dst src (k * w) m := by
  induction k with
  | zero =>
    rw [Nat.cast_zero, zero_mul, copyBlock_of_nonpos le_rfl, Tiling.range_eq_nil le_rfl]
    rfl
  | succ k ih =>
    have hsize : ((k + 1 : ℕ) : ℤ) * w = k * w + w := by push_cast; ring
    have hkw : 0 ≤ (k : ℤ) * w := Int.mul_nonneg (Int.natCast_nonneg k) hw
    rw [hsize] at h ⊢
    have hk : Apart dst src (k * w) := by
      unfold Apart at *
      omega
    rw [Nat.cast_succ, Tiling.range_succ (Int.natCast_nonneg k), List.foldl_append, ih hk,
      List.foldl_cons, List.foldl_nil, copyBlock_append hkw hw h]

end FlatMemory

end KokkosStencil
