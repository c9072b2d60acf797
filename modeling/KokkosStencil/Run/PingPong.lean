import Mathlib.Logic.Function.Basic
import Mathlib.Data.List.Range
import Mathlib.Data.Int.Order.Basic

/-!
# Ping-pong between two buffers

A loop keeps two pointers into a heap, reads the buffer at `front`, writes the buffer at `back`
and exchanges the pointers, except in its last round.  `PingPong.loop_succ` says what such a loop
leaves: the buffer at `back` has been through all rounds, the one at `front` through all but the
last.  The invariant along the way is `PingPong.Holds`.
-/

namespace KokkosStencil

/-- Two pointers into a heap of buffers. -/
structure PingPong (κ α : Type*) where
  /-- The contents of the buffers. -/
  heap : κ → α
  /-- The buffer that is read. -/
  front : κ
  /-- The buffer that is written. -/
  back : κ

namespace PingPong

variable {κ α : Type*}

/-- Exchange the pointers. -/
def swap (s : PingPong κ α) : PingPong κ α := { s with front := s.back, back := s.front }

/-- What `x` becomes in the first `t` rounds. -/
def stages (f : ℕ → α → α) (x : α) : ℕ → α
  | 0 => x
  | t + 1 => f t (stages f x t)

/-- The pointers are different and the front buffer holds `a`. -/
def Holds (s : PingPong κ α) (a : α) : Prop := s.front ≠ s.back ∧ s.heap s.front = a

variable [DecidableEq κ]

/-- Write `f` of the front buffer to the back buffer. -/
def compute (f : α → α) (s : PingPong κ α) : PingPong κ α :=
  { s with heap := Function.update s.heap s.back (f (s.heap s.front)) }

/-- Round `i` of a loop of `n` rounds. -/
def round (n : ℕ) (f : ℕ → α → α) (i : ℕ) (s : PingPong κ α) : PingPong κ α :=
  let s := s.compute (f i)
  if (i : ℤ) < n - 1 then s.swap else s

/-- The loop. -/
def loop (n : ℕ) (f : ℕ → α → α) (s : PingPong κ α) : PingPong κ α :=
  (List.range n).foldl (fun s i => round n f i s) s

variable {f : ℕ → α → α} {s : PingPong κ α} {a : α}

theorem front_compute (g : α → α) (h : s.Holds a) : (s.compute g).heap s.front = a := by
  rw [← h.2]
  exact Function.update_of_ne h.1 _ _

theorem back_compute (g : α → α) (h : s.Holds a) : (s.compute g).heap s.back = g a := by
  rw [← h.2]
  exact Function.update_self _ _ _

theorem holds_compute (g : α → α) (h : s.Holds a) : (s.compute g).Holds a :=
  ⟨h.1, front_compute g h⟩

/-- A round before the last moves the pointers on to the new buffer. -/
theorem round_of_lt {n i : ℕ} (hi : i < n) (h : s.Holds a) :
    (round (n + 1) f i s).Holds (f i a) := by
  have hlt : (i : ℤ) < (n + 1 : ℕ) - 1 := by push_cast; omega
  rw [round, if_pos hlt]
  exact ⟨h.1.symm, back_compute (f i) h⟩

/-- The last round leaves the pointers where they are. -/
theorem round_last (n : ℕ) : round (n + 1) f n s = s.compute (f n) := by
  have hge : ¬ (n : ℤ) < (n + 1 : ℕ) - 1 := by push_cast; omega
  rw [round, if_neg hge]

/-- Before round `k` of a loop of `n + 1` rounds the front buffer has been through `k` rounds. -/
theorem holds_foldl {n k : ℕ} (hk : k ≤ n) (h : s.Holds a) :
    ((List.range k).foldl (fun s i => round (n + 1) f i s) s).Holds (stages f a k) := by
  induction k with
  | zero => exact h
  | succ k ih =>
    rw [List.range_succ, List.foldl_append]
    exact round_of_lt hk (ih (Nat.le_of_succ_le hk))

/-- **What the loop leaves**: the back buffer has been through all rounds, the front buffer through
all but the last. -/
theorem loop_succ (n : ℕ) (h : s.Holds a) :
    (loop (n + 1) f s).Holds (stages f a n) ∧
      (loop (n + 1) f s).heap (loop (n + 1) f s).back = stages f a (n + 1) := by
  -- all rounds but the last exchange the pointers
  have hn := holds_foldl (f := f) (le_refl n) h
  rw [loop, List.range_succ, List.foldl_append, List.foldl_cons, List.foldl_nil, round_last]
  exact ⟨holds_compute (f n) hn, back_compute (f n) hn⟩

end PingPong

end KokkosStencil
