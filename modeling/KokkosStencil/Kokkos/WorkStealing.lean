import KokkosStencil.Kokkos.HostThreadTeam
import Mathlib.Algebra.BigOperators.Fin
import Mathlib.Algebra.Group.Fin.Basic
import Mathlib.Algebra.Order.BigOperators.Group.Finset
import Mathlib.Data.Fin.SuccPred
import Mathlib.Data.List.FinRange

/-!
# `HostThreadTeamData::get_work_stealing`

`n + 1` threads take the chunks of the work from the ranges that `set_work_partition` gave them.
A thread takes chunks from the beginning of its own range and, when that is empty, from the ends
of the ranges of the other threads in turn.  A range is only ever changed by an atomic
compare-exchange of both its bounds, and the threads interleave between these in any way.

* `perm_of_exec` : in every state a run reaches, the chunks handed out and the chunks left are
  together the chunks of the work, each once;
* `perm_of_stop` : a thread that stops leaves no chunk behind, in any range;
* `length_le_of_exec` : a run of any kind has a bounded number of steps, failed exchanges
  included, so no schedule keeps the threads from stopping.
-/

namespace KokkosStencil

namespace Kokkos

namespace WorkStealing

variable {n : ℕ}

/-- Where a thread is. -/
inductive Pc where
  /-- `get_work_stealing` is called next. -/
  | call
  /-- In the first loop, before the exchange that expects `w`. -/
  | own (w : ℤ × ℤ)
  /-- In the second loop, before the exchange that expects `w`. -/
  | steal (w : ℤ × ℤ)
  /-- `get_work_stealing` has returned `-1`. -/
  | stop
  deriving DecidableEq

/-- The shared ranges and the state of every thread. -/
structure Pool (n : ℕ) where
  /-- `m_work_range` -/
  range : Fin (n + 1) → ℤ × ℤ
  /-- `m_steal_rank` -/
  stealRank : Fin (n + 1) → Fin (n + 1)
  /-- Where the thread is. -/
  pc : Fin (n + 1) → Pc
  /-- The chunks that the thread has been handed. -/
  claimed : Fin (n + 1) → List ℤ

/-- There are chunks in the range. -/
def Viable (w : ℤ × ℤ) : Prop := w.1 < w.2

instance : DecidablePred Viable := fun _ => inferInstanceAs (Decidable (_ < _))

/-- The next rank to steal from, round robin. -/
def nextRank (r : Fin (n + 1)) : Fin (n + 1) :=
  if h : r.val + 1 + 1 ≤ n + 1 then ⟨r.val + 1, by omega⟩ else 0

/-- What `atomic_compare_exchange` leaves in a cell.  It returns what was in the cell. -/
def compareExchange (cell expected new : ℤ × ℤ) : ℤ × ℤ := if cell = expected then new else cell

namespace Pool

/-- Thread `t` goes on at `pc`. -/
def goto (s : Pool n) (t : Fin (n + 1)) (pc : Pc) : Pool n :=
  { s with pc := Function.update s.pc t pc }

/-- `get_work_stealing` returns chunk `i` to thread `t`. -/
def claim (s : Pool n) (t : Fin (n + 1)) (i : ℤ) : Pool n :=
  { s with
    pc := Function.update s.pc t .call
    claimed := Function.update s.claimed t (s.claimed t ++ [i]) }

/-- The range of thread `v` is replaced. -/
def setRange (s : Pool n) (v : Fin (n + 1)) (w : ℤ × ℤ) : Pool n :=
  { s with range := Function.update s.range v w }

/-- The next rank to steal from is replaced. -/
def setStealRank (s : Pool n) (t r : Fin (n + 1)) : Pool n :=
  { s with stealRank := Function.update s.stealRank t r }

/-- Thread `t` goes on to steal, unless it has tried all other members. -/
def trySteal (s : Pool n) (t : Fin (n + 1)) : Pool n :=
  s.goto t (if s.stealRank t ≠ t then .steal (-1, -1) else .stop)

/-- One step of thread `t`. -/
def step (s : Pool n) (t : Fin (n + 1)) : Option (Pool n) :=
  match s.pc t with
  | .call => some (if Viable (s.range t) then s.goto t (.own (-1, -1)) else s.trySteal t)
  | .own expected =>
    let new := (expected.1 + 1, expected.2)
    let w := s.range t
    let s := s.setRange t (compareExchange w expected new)
    if Viable w then
      if new.1 = w.1 + 1 ∧ new.2 = w.2 then some (s.claim t w.1) else some (s.goto t (.own w))
    else some (s.trySteal t)
  | .steal expected =>
    let victim := s.stealRank t
    let new := (expected.1, expected.2 - 1)
    let w := s.range victim
    let s := s.setRange victim (compareExchange w expected new)
    if Viable w then
      if new.1 = w.1 ∧ new.2 = w.2 - 1 then some (s.claim t (w.2 - 1))
      else some (s.goto t (.steal w))
    else some ((s.setStealRank t (nextRank victim)).trySteal t)
  | .stop => none

/-- A run in which the threads take steps in the order of the list. -/
def exec : List (Fin (n + 1)) → Pool n → Option (Pool n)
  | [], s => some s
  | t :: ts, s => (s.step t).bind (exec ts)

/-- The pool after `set_work_partition` in every thread. -/
def start (n : ℕ) (length chunk : ℤ) : Pool n where
  range t := (HostThreadTeamData.worker (n + 1) length chunk t.val).workRange
  stealRank := nextRank
  pc _ := .call
  claimed _ := []

end Pool

/-- The rank to steal from that `set_work_partition` computes. -/
theorem stealRank_worker (length chunk : ℤ) (t : Fin (n + 1)) :
    (HostThreadTeamData.worker (n + 1) length chunk t.val).stealRank = ((nextRank t).val : ℤ) := by
  show (if (t.val : ℤ) + 1 + 1 ≤ n + 1 then (t.val : ℤ) + 1 else 0) = _
  unfold nextRank
  by_cases h : t.val + 1 + 1 ≤ n + 1
  · rw [dif_pos h, if_pos (by omega), Nat.cast_succ]
  · rw [dif_neg h, if_neg (by omega), Fin.val_zero, Nat.cast_zero]

theorem nextRank_eq (r : Fin (n + 1)) : nextRank r = r + 1 := by
  unfold nextRank
  split_ifs with h
  · ext
    rw [Fin.val_add_one_of_lt' (by omega)]
  · have hlast : r = Fin.last n := Fin.ext (by rw [Fin.val_last]; omega)
    rw [hlast, Fin.last_add_one]

/-! ### What a step does -/

namespace Pool

variable (s : Pool n) (t : Fin (n + 1))

@[simp] theorem goto_range (pc : Pc) : (s.goto t pc).range = s.range := rfl

@[simp] theorem goto_stealRank (pc : Pc) : (s.goto t pc).stealRank = s.stealRank := rfl

@[simp] theorem goto_claimed (pc : Pc) : (s.goto t pc).claimed = s.claimed := rfl

@[simp] theorem goto_pc (pc : Pc) : (s.goto t pc).pc = Function.update s.pc t pc := rfl

@[simp] theorem claim_range (i : ℤ) : (s.claim t i).range = s.range := rfl

@[simp] theorem claim_stealRank (i : ℤ) : (s.claim t i).stealRank = s.stealRank := rfl

@[simp] theorem claim_pc (i : ℤ) : (s.claim t i).pc = Function.update s.pc t .call := rfl

@[simp] theorem claim_claimed (i : ℤ) :
    (s.claim t i).claimed = Function.update s.claimed t (s.claimed t ++ [i]) := rfl

@[simp] theorem setRange_range (w : ℤ × ℤ) :
    (s.setRange t w).range = Function.update s.range t w := rfl

@[simp] theorem setRange_stealRank (w : ℤ × ℤ) : (s.setRange t w).stealRank = s.stealRank := rfl

@[simp] theorem setRange_pc (w : ℤ × ℤ) : (s.setRange t w).pc = s.pc := rfl

@[simp] theorem setRange_claimed (w : ℤ × ℤ) : (s.setRange t w).claimed = s.claimed := rfl

@[simp] theorem setStealRank_range (r : Fin (n + 1)) : (s.setStealRank t r).range = s.range := rfl

@[simp] theorem setStealRank_stealRank (r : Fin (n + 1)) :
    (s.setStealRank t r).stealRank = Function.update s.stealRank t r := rfl

@[simp] theorem setStealRank_pc (r : Fin (n + 1)) : (s.setStealRank t r).pc = s.pc := rfl

@[simp] theorem setStealRank_claimed (r : Fin (n + 1)) :
    (s.setStealRank t r).claimed = s.claimed := rfl

theorem setRange_self : s.setRange t (s.range t) = s := by
  simp only [setRange, Function.update_eq_self]

/-- The range that thread `t` steals from next. -/
abbrev victim : ℤ × ℤ := s.range (s.stealRank t)

end Pool

/-- The steps of thread `t`: an exchange that fails leaves its cell alone. -/
inductive Move (s : Pool n) (t : Fin (n + 1)) : Pool n → Prop
  | look : s.pc t = .call → Viable (s.range t) → Move s t (s.goto t (.own (-1, -1)))
  | retryOwn {w : ℤ × ℤ} : s.pc t = .own w → w ≠ s.range t → Viable (s.range t) →
      Move s t (s.goto t (.own (s.range t)))
  | claimOwn : s.pc t = .own (s.range t) → Viable (s.range t) →
      Move s t ((s.setRange t ((s.range t).1 + 1, (s.range t).2)).claim t (s.range t).1)
  | leaveOwn : (s.pc t = .call ∨ ∃ w, s.pc t = .own w) → ¬ Viable (s.range t) →
      Move s t (s.trySteal t)
  | retrySteal {w : ℤ × ℤ} : s.pc t = .steal w → w ≠ s.victim t → Viable (s.victim t) →
      Move s t (s.goto t (.steal (s.victim t)))
  | claimSteal : s.pc t = .steal (s.victim t) → Viable (s.victim t) →
      Move s t ((s.setRange (s.stealRank t) ((s.victim t).1, (s.victim t).2 - 1)).claim t
        ((s.victim t).2 - 1))
  | nextVictim {w : ℤ × ℤ} : s.pc t = .steal w → ¬ Viable (s.victim t) →
      Move s t ((s.setStealRank t (nextRank (s.stealRank t))).trySteal t)

/-- What a thread expects in a range: what it has seen there, or what is in no range. -/
def Expected (w : ℤ × ℤ) : Prop := w = (-1, -1) ∨ Viable w

/-- What holds of a thread: it steals only from others and when its own range is empty, and stops
only when it has tried all others. -/
def ThreadInv (s : Pool n) (t : Fin (n + 1)) : Prop :=
  match s.pc t with
  | .call => True
  | .own w => Expected w
  | .steal w => Expected w ∧ ¬ Viable (s.range t) ∧ s.stealRank t ≠ t
  | .stop => ¬ Viable (s.range t) ∧ s.stealRank t = t

/-- What holds along every run. -/
structure Inv (s : Pool n) : Prop where
  /-- Ranges hold numbers of chunks. -/
  bounds : ∀ t, 0 ≤ (s.range t).1 ∧ (s.range t).1 ≤ (s.range t).2
  thread : ∀ t, ThreadInv s t
  /-- The members that thread `t` has tried, those between it and its next victim, are empty. -/
  seen : ∀ t r : Fin (n + 1), t - s.stealRank t < t - r → ¬ Viable (s.range r)

/-- **Inversion.**  A step is one of the moves. -/
theorem move_of_step {s s' : Pool n} (hs : Inv s) {t : Fin (n + 1)} (h : s.step t = some s') :
    Move s t s' := by
  -- an exchange that expects an empty range expects `(-1, -1)`, which is in no range
  have hfail : ∀ w r, Expected w → ¬ Viable (s.range r) → s.range r ≠ w := by
    rintro w r (rfl | hw) hr heq
    · have := (hs.bounds r).1
      rw [heq] at this
      exact absurd this (by decide)
    · exact hr (heq ▸ hw)
  have hkeep : ∀ w new r, s.range r ≠ w →
      s.setRange r (compareExchange (s.range r) w new) = s := by
    intro w new r hne
    rw [compareExchange, if_neg hne, s.setRange_self]
  have ht := hs.thread t
  unfold Pool.step at h
  unfold ThreadInv at ht
  cases hpc : s.pc t with
  | call =>
    simp only [hpc, Option.some.injEq] at h
    subst h
    split_ifs with hv
    · exact .look hpc hv
    · exact .leaveOwn (Or.inl hpc) hv
  | own w =>
    simp only [hpc] at h ht
    by_cases hv : Viable (s.range t)
    · rw [if_pos hv] at h
      by_cases hw : s.range t = w
      · subst hw
        rw [if_pos ⟨rfl, rfl⟩, compareExchange, if_pos rfl] at h
        exact Option.some.inj h ▸ .claimOwn hpc hv
      · have hnew : ¬ (w.1 + 1 = (s.range t).1 + 1 ∧ w.2 = (s.range t).2) := by
          rintro ⟨h₁, h₂⟩
          exact hw (Prod.ext (by omega) h₂.symm)
        rw [if_neg hnew, hkeep w _ t hw] at h
        exact Option.some.inj h ▸ .retryOwn hpc (Ne.symm hw) hv
    · rw [if_neg hv, hkeep w _ t (hfail w t ht hv)] at h
      exact Option.some.inj h ▸ .leaveOwn (Or.inr ⟨w, hpc⟩) hv
  | steal w =>
    simp only [hpc] at h ht
    by_cases hv : Viable (s.victim t)
    · rw [if_pos hv] at h
      by_cases hw : s.victim t = w
      · subst hw
        rw [if_pos ⟨rfl, rfl⟩, compareExchange, if_pos rfl] at h
        exact Option.some.inj h ▸ .claimSteal hpc hv
      · have hnew : ¬ (w.1 = (s.victim t).1 ∧ w.2 - 1 = (s.victim t).2 - 1) := by
          rintro ⟨h₁, h₂⟩
          exact hw (Prod.ext h₁.symm (by omega))
        rw [if_neg hnew, hkeep w _ (s.stealRank t) hw] at h
        exact Option.some.inj h ▸ .retrySteal hpc (Ne.symm hw) hv
    · have hne := hfail w (s.stealRank t) ht.1 hv
      rw [if_neg hv, hkeep w _ (s.stealRank t) hne] at h
      exact Option.some.inj h ▸ .nextVictim hpc hv
  | stop => simp only [hpc, reduceCtorEq] at h

/-! ### The invariant -/

section

variable {s s' : Pool n} {t : Fin (n + 1)}

theorem Move.pc_of_ne (h : Move s t s') {u : Fin (n + 1)} (hu : u ≠ t) : s'.pc u = s.pc u := by
  cases h <;> exact Function.update_of_ne hu _ _

theorem Move.stealRank_of_ne (h : Move s t s') {u : Fin (n + 1)} (hu : u ≠ t) :
    s'.stealRank u = s.stealRank u := by
  cases h <;> first | rfl | exact Function.update_of_ne hu _ _

/-- A range that is replaced loses its first or its last chunk. -/
theorem Move.range_cases (h : Move s t s') (r : Fin (n + 1)) :
    s'.range r = s.range r ∨ Viable (s.range r) ∧
      (s'.range r = ((s.range r).1 + 1, (s.range r).2) ∨
        s'.range r = ((s.range r).1, (s.range r).2 - 1)) := by
  cases h with
  | claimOwn _ hv =>
    by_cases hr : r = t
    · subst hr
      exact Or.inr ⟨hv, Or.inl (Function.update_self _ _ _)⟩
    · exact Or.inl (Function.update_of_ne hr _ _)
  | claimSteal _ hv =>
    by_cases hr : r = s.stealRank t
    · subst hr
      exact Or.inr ⟨hv, Or.inr (Function.update_self _ _ _)⟩
    · exact Or.inl (Function.update_of_ne hr _ _)
  | _ => exact Or.inl rfl

/-- Empty ranges stay empty. -/
theorem Move.viable (h : Move s t s') {r : Fin (n + 1)} (hv : Viable (s'.range r)) :
    Viable (s.range r) := by
  rcases h.range_cases r with heq | ⟨hv, -⟩
  · rwa [heq] at hv
  · exact hv

theorem Move.bounds (h : Move s t s') (hs : Inv s) (r : Fin (n + 1)) :
    0 ≤ (s'.range r).1 ∧ (s'.range r).1 ≤ (s'.range r).2 := by
  have hr := hs.bounds r
  rcases h.range_cases r with heq | ⟨hv, heq | heq⟩
  · rwa [heq]
  all_goals
    unfold Viable at hv
    rw [heq]
    exact ⟨by omega, by omega⟩

theorem threadInv_trySteal (hv : ¬ Viable (s.range t)) : ThreadInv (s.trySteal t) t := by
  have hpc : (s.trySteal t).pc t = if s.stealRank t ≠ t then .steal (-1, -1) else .stop :=
    Function.update_self _ _ _
  unfold ThreadInv
  by_cases h : s.stealRank t = t
  · rw [hpc, if_neg (not_not.2 h)]
    exact ⟨hv, h⟩
  · rw [hpc, if_pos h]
    exact ⟨Or.inl rfl, hv, h⟩

/-- What holds of the thread that moves, afterwards. -/
theorem Move.threadInv_self (h : Move s t s') (ht : ThreadInv s t) : ThreadInv s' t := by
  have hgoto : ∀ pc, (s.goto t pc).pc t = pc := fun pc => Function.update_self _ _ _
  cases h with
  | look =>
    rw [ThreadInv, hgoto]
    exact Or.inl rfl
  | retryOwn _ _ hv =>
    rw [ThreadInv, hgoto]
    exact Or.inr hv
  | leaveOwn _ hv => exact threadInv_trySteal hv
  | retrySteal hpc _ hv =>
    rw [ThreadInv, hpc] at ht
    rw [ThreadInv, hgoto]
    exact ⟨Or.inr hv, ht.2⟩
  | nextVictim hpc _ =>
    rw [ThreadInv, hpc] at ht
    exact threadInv_trySteal ht.2.1
  | claimOwn | claimSteal =>
    unfold ThreadInv
    rw [Pool.claim_pc, Function.update_self]
    trivial

theorem Move.threadInv (h : Move s t s') (hs : Inv s) (u : Fin (n + 1)) : ThreadInv s' u := by
  by_cases hu : u = t
  · subst hu
    exact h.threadInv_self (hs.thread u)
  · have hthread := hs.thread u
    unfold ThreadInv at hthread ⊢
    rw [h.pc_of_ne hu, h.stealRank_of_ne hu]
    cases hpc : s.pc u <;> rw [hpc] at hthread
    case call => trivial
    case own => exact hthread
    case steal => exact ⟨hthread.1, mt h.viable hthread.2.1, hthread.2.2⟩
    case stop => exact ⟨mt h.viable hthread.1, hthread.2⟩

theorem sub_nextRank_lt_iff {t v r : Fin (n + 1)} (hv : v ≠ t) :
    t - nextRank v < t - r ↔ t - v ≤ t - r := by
  have hne : t - v ≠ 0 := sub_ne_zero.2 hv.symm
  have hpos : (t - v).val ≠ 0 := fun h => hne (Fin.ext h)
  rw [nextRank_eq, ← sub_sub, Fin.lt_def, Fin.le_def, Fin.val_sub_one_of_ne_zero hne]
  omega

theorem Move.seen (h : Move s t s') (hs : Inv s) (u r : Fin (n + 1))
    (hr : u - s'.stealRank u < u - r) : ¬ Viable (s'.range r) := by
  by_cases hu : u = t
  · subst hu
    refine mt h.viable ?_
    cases h with
    | @nextVictim w hpc hv =>
      have hthread := hs.thread u
      rw [ThreadInv, hpc] at hthread
      have hrank : (s.setStealRank u (nextRank (s.stealRank u))).stealRank u =
          nextRank (s.stealRank u) := Function.update_self _ _ _
      rw [Pool.trySteal, Pool.goto_stealRank, hrank, sub_nextRank_lt_iff hthread.2.2] at hr
      rcases hr.lt_or_eq with hlt | heq
      · exact hs.seen u r hlt
      · rwa [← sub_right_injective heq]
    | _ => exact hs.seen u r hr
  · rw [h.stealRank_of_ne hu] at hr
    exact mt h.viable (hs.seen u r hr)

/-- **The invariant is kept by every step.** -/
theorem Inv.step (hs : Inv s) (h : s.step t = some s') : Inv s' := by
  have hmove := move_of_step hs h
  exact ⟨hmove.bounds hs, hmove.threadInv hs, hmove.seen hs⟩

end

/-! ### Whole runs -/

section

variable {length chunk : ℤ}

theorem start_range (n : ℕ) (length chunk : ℤ) (t : Fin (n + 1)) :
    (Pool.start n length chunk).range t =
      (HostThreadTeamData.part (n + 1) length chunk * t.val,
        HostThreadTeamData.part (n + 1) length chunk * t.val +
          HostThreadTeamData.part (n + 1) length chunk) := rfl

/-- The first rank to steal from is the next one: no member has been tried. -/
theorem start_sub_stealRank (n : ℕ) (length chunk : ℤ) (t : Fin (n + 1)) :
    t - (Pool.start n length chunk).stealRank t = Fin.last n := by
  show t - nextRank t = _
  rw [nextRank_eq, ← sub_sub, sub_self, zero_sub]
  exact (eq_neg_of_add_eq_zero_left (Fin.last_add_one n)).symm

theorem inv_start (n : ℕ) (h : 0 ≤ length) (chunk : ℤ) : Inv (Pool.start n length chunk) := by
  have hpart : 0 ≤ HostThreadTeamData.part (n + 1) length chunk :=
    HostThreadTeamData.part_nonneg (by omega) h chunk
  refine ⟨fun t => ?_, fun _ => trivial, fun t r hr => ?_⟩
  · have hfirst : 0 ≤ HostThreadTeamData.part (n + 1) length chunk * (t.val : ℤ) :=
      Int.mul_nonneg hpart (Int.natCast_nonneg _)
    rw [start_range]
    exact ⟨hfirst, by omega⟩
  · rw [start_sub_stealRank] at hr
    exact absurd hr (Fin.le_last _).not_gt

variable {s s' : Pool n}

/-- What holds of all steps along a run holds of its end. -/
theorem exec_induction {P : Pool n → Prop} (hstep : ∀ s s' t, P s → s.step t = some s' → P s')
    {ts : List (Fin (n + 1))} (hs : P s) (h : s.exec ts = some s') : P s' := by
  induction ts generalizing s with
  | nil => exact Option.some.inj h ▸ hs
  | cons t ts ih =>
    obtain ⟨s₁, hs₁, h⟩ := Option.bind_eq_some_iff.1 h
    exact ih (hstep s s₁ t hs hs₁) h

theorem inv_exec {ts : List (Fin (n + 1))} (hlength : 0 ≤ length)
    (h : (Pool.start n length chunk).exec ts = some s) : Inv s :=
  exec_induction (fun _ _ _ => Inv.step) (inv_start n hlength chunk) h

/-! ### No chunk is lost or handed out twice -/

/-- The chunks in a range. -/
def chunksOf (w : ℤ × ℤ) : List ℤ := Int.range w.1 w.2

/-- The chunks that have been handed out. -/
def handed (s : Pool n) : List ℤ := (List.finRange (n + 1)).flatMap s.claimed

/-- The chunks that have not. -/
def left (s : Pool n) : List ℤ := (List.finRange (n + 1)).flatMap fun t => chunksOf (s.range t)

/-- The chunks of the work. -/
def allChunks (n : ℕ) (length chunk : ℤ) : List ℤ :=
  Int.range 0 (HostThreadTeamData.part (n + 1) length chunk * (n + 1))

theorem handed_claim (s : Pool n) (t : Fin (n + 1)) (i : ℤ) :
    (handed (s.claim t i)).Perm (i :: handed s) := by
  have hmem := List.mem_finRange t
  have hlast : ((s.claim t i).claimed t).Perm (i :: s.claimed t) := by
    rw [Pool.claim_claimed, Function.update_self]
    exact List.perm_append_singleton _ _
  have hperm := Tiling.flatMap_update_perm (List.nodup_finRange _) hmem hlast
  rwa [Pool.claim_claimed, Function.update_idem, Function.update_eq_self] at hperm

theorem left_setRange (s : Pool n) (t : Fin (n + 1)) {w : ℤ × ℤ} {i : ℤ}
    (h : (chunksOf (s.range t)).Perm (i :: chunksOf w)) :
    (left s).Perm (i :: left (s.setRange t w)) := by
  have hperm := Tiling.flatMap_update_perm (List.nodup_finRange _) (List.mem_finRange t)
    (f := fun t => chunksOf (s.range t)) h
  have hupdate : Function.update (fun t => chunksOf (s.range t)) t (chunksOf w) =
      fun r => chunksOf ((s.setRange t w).range r) := by
    funext r
    exact (Function.apply_update (fun _ => chunksOf) s.range t w r).symm
  rwa [hupdate] at hperm

open scoped List in
/-- A chunk that is claimed leaves its range. -/
theorem perm_claim {t v : Fin (n + 1)} {w : ℤ × ℤ} {i : ℤ}
    (h : (chunksOf (s.range v)).Perm (i :: chunksOf w)) :
    handed ((s.setRange v w).claim t i) ++ left ((s.setRange v w).claim t i) ~
      handed s ++ left s :=
  calc handed ((s.setRange v w).claim t i) ++ left ((s.setRange v w).claim t i)
    _ ~ (i :: handed s) ++ left (s.setRange v w) :=
      (handed_claim (s.setRange v w) t i).append_right _
    _ ~ handed s ++ i :: left (s.setRange v w) := List.perm_middle.symm
    _ ~ handed s ++ left s := (left_setRange s v h).symm.append_left _

theorem Move.perm {t : Fin (n + 1)} (h : Move s t s') :
    (handed s' ++ left s').Perm (handed s ++ left s) := by
  cases h with
  | claimOwn _ hv => exact perm_claim (List.Perm.of_eq (Tiling.range_eq_cons hv))
  | claimSteal _ hv =>
    refine perm_claim ?_
    rw [chunksOf, Tiling.range_eq_append hv]
    exact List.perm_append_singleton _ _
  | _ => exact List.Perm.refl _

theorem left_start (n : ℕ) (h : 0 ≤ length) (chunk : ℤ) :
    left (Pool.start n length chunk) = allChunks n length chunk := by
  have hpart : 0 ≤ HostThreadTeamData.part (n + 1) length chunk :=
    HostThreadTeamData.part_nonneg (by omega) h chunk
  have hmono : ∀ k l : ℤ, k ≤ l → HostThreadTeamData.part (n + 1) length chunk * k ≤
      HostThreadTeamData.part (n + 1) length chunk * l :=
    fun _ _ hkl => Int.mul_le_mul_of_nonneg_left hkl hpart
  have hblocks := Tiling.flatMap_range_blocks hmono (m := n + 1) (by omega)
  rw [← Nat.cast_succ, ← Tiling.map_finRange, List.flatMap_map, Int.mul_zero] at hblocks
  rw [left, allChunks, ← Nat.cast_succ, ← hblocks]
  refine List.flatMap_congr fun t _ => ?_
  rw [chunksOf, start_range, Int.mul_add, Int.mul_one, Nat.cast_succ]

/-- **No chunk is lost or handed out twice**: in every state of every run the chunks handed out
and the chunks still in a range are those of the work, each once. -/
theorem perm_of_exec {ts : List (Fin (n + 1))} (hlength : 0 ≤ length)
    (h : (Pool.start n length chunk).exec ts = some s) :
    (handed s ++ left s).Perm (allChunks n length chunk) := by
  have hall := exec_induction
    (P := fun s => Inv s ∧ (handed s ++ left s).Perm (allChunks n length chunk))
    (fun s s' t hs hst => ⟨hs.1.step hst, (move_of_step hs.1 hst).perm.trans hs.2⟩)
    ⟨inv_start n hlength chunk, List.Perm.of_eq ?_⟩ h
  · exact hall.2
  · rw [left_start n hlength]
    simp [handed, Pool.start]

/-- **A thread stops only when every chunk has been handed out.** -/
theorem perm_of_stop {ts : List (Fin (n + 1))} (hlength : 0 ≤ length)
    (h : (Pool.start n length chunk).exec ts = some s) {t : Fin (n + 1)} (ht : s.pc t = .stop) :
    (handed s).Perm (allChunks n length chunk) := by
  have hs := inv_exec hlength h
  have hthread := hs.thread t
  rw [ThreadInv, ht] at hthread
  have hempty : ∀ r, ¬ Viable (s.range r) := by
    intro r
    by_cases hr : r = t
    · exact hr ▸ hthread.1
    · refine hs.seen t r ?_
      rw [hthread.2, sub_self]
      exact Fin.pos_iff_ne_zero.2 (sub_ne_zero.2 (Ne.symm hr))
  have hleft : left s = [] := List.flatMap_eq_nil_iff.2 fun r _ =>
    Tiling.range_eq_nil (not_lt.1 (hempty r))
  have hperm := perm_of_exec hlength h
  rwa [hleft, List.append_nil] at hperm

/-- **Work stealing is safe**, in every state of every run: a chunk of the work is either in the
hands of one thread or left in a range, no thread holds a chunk twice or one that is not of the
work, and once a thread has stopped nothing is left. -/
theorem stealing_safe {ts : List (Fin (n + 1))} (hlength : 0 ≤ length)
    (h : (Pool.start n length chunk).exec ts = some s) :
    (∀ i ∈ allChunks n length chunk, Xor (∃! t, i ∈ s.claimed t) (i ∈ left s)) ∧
      (∀ t, (s.claimed t).Nodup ∧ ∀ i ∈ s.claimed t, i ∈ allChunks n length chunk) ∧
      ∀ t, s.pc t = .stop → left s = [] := by
  have hperm := perm_of_exec hlength h
  have hnodup : (allChunks n length chunk).Nodup :=
    (Scan.pairwise_range _ _).imp fun hlt => hlt.ne
  obtain ⟨hhanded, -, hdisjoint⟩ := List.nodup_append'.1 (hperm.nodup_iff.2 hnodup)
  have hshared := Tiling.sharedOut_of_perm (List.Perm.refl (handed s)) hhanded
  refine ⟨fun i hi => ?_, fun t => ⟨hshared.nodup t (List.mem_finRange t), fun i hit => ?_⟩,
    fun t ht => ?_⟩
  · rcases List.mem_append.1 (hperm.mem_iff.2 hi) with hin | hleft
    · obtain ⟨t, ⟨-, hit⟩, hunique⟩ := hshared.one i hin
      exact Or.inl ⟨⟨t, hit, fun u hiu => hunique u ⟨List.mem_finRange u, hiu⟩⟩,
        fun hleft => hdisjoint hin hleft⟩
    · refine Or.inr ⟨hleft, fun ⟨t, hit, _⟩ => hdisjoint ?_ hleft⟩
      exact List.mem_flatMap.2 ⟨t, List.mem_finRange t, hit⟩
  · exact hperm.mem_iff.1
      (List.mem_append_left _ (List.mem_flatMap.2 ⟨t, List.mem_finRange t, hit⟩))
  · have hall := (perm_of_stop hlength h ht).length_eq
    have hsum := hperm.length_eq
    rw [List.length_append] at hsum
    exact List.eq_nil_of_length_eq_zero (by omega)

/-- A run of two threads on ten indices in chunks of four: thread `0` takes chunk `0`, thread `1`
takes its own chunks `2` and `3`, steals chunk `1` and stops. -/
def twoThreads : List (Fin 2) := [0, 0, 0, 1, 1, 1, 1, 1, 1, 1, 1, 1, 1, 1]

theorem exists_exec_twoThreads : ∃ s, (Pool.start 1 10 4).exec twoThreads = some s ∧
    s.claimed 0 = [0] ∧ s.claimed 1 = [2, 3, 1] ∧ s.pc 1 = .stop := by
  have hrun : ((Pool.start 1 10 4).exec twoThreads).map
      (fun s => (s.claimed 0, s.claimed 1, s.pc 1)) = some ([0], [2, 3, 1], .stop) := by decide
  obtain ⟨s, h, hs⟩ := Option.map_eq_some_iff.1 hrun
  simp only [Prod.mk.injEq] at hs
  exact ⟨s, h, hs⟩

theorem stealing_safe_two : ∃ s, (Pool.start 1 10 4).exec twoThreads = some s ∧
    (s.claimed 0 = [0] ∧ s.claimed 1 = [2, 3, 1] ∧ s.pc 1 = .stop) ∧
    (∀ i ∈ allChunks 1 10 4, Xor (∃! t, i ∈ s.claimed t) (i ∈ left s)) ∧
      (∀ t, (s.claimed t).Nodup ∧ ∀ i ∈ s.claimed t, i ∈ allChunks 1 10 4) ∧
      ∀ t, s.pc t = .stop → left s = [] := by
  obtain ⟨s, h, hs⟩ := exists_exec_twoThreads
  exact ⟨s, h, hs, stealing_safe (by decide) h⟩

/-! ### Runs are finite -/

/-- What an exchange that expects `w` still costs: one step if it will succeed, else a second. -/
def attempts (w r : ℤ × ℤ) : ℕ := if w = r then 1 else 2

theorem attempts_bounds (w r : ℤ × ℤ) : 1 ≤ attempts w r ∧ attempts w r ≤ 2 := by
  unfold attempts
  split_ifs <;> simp

theorem attempts_self (w : ℤ × ℤ) : attempts w w = 1 := if_pos rfl

theorem attempts_of_ne {w r : ℤ × ℤ} (h : w ≠ r) : attempts w r = 2 := if_neg h

/-- The number of members that thread `t` has not tried. -/
def untried (s : Pool n) (t : Fin (n + 1)) : ℕ := (t - s.stealRank t).val

/-- The steps that thread `t` can take until it stops, if no range changes meanwhile. -/
def budget (s : Pool n) (t : Fin (n + 1)) : ℕ :=
  match s.pc t with
  | .call => 2 * untried s t + 5
  | .own w => 2 * untried s t + 2 + attempts w (s.range t)
  | .steal w => 2 * untried s t + attempts w (s.victim t)
  | .stop => 0

theorem budget_call {s : Pool n} {t : Fin (n + 1)} (h : s.pc t = .call) :
    budget s t = 2 * untried s t + 5 := by
  rw [budget, h]

theorem budget_own {s : Pool n} {t : Fin (n + 1)} {w : ℤ × ℤ} (h : s.pc t = .own w) :
    budget s t = 2 * untried s t + 2 + attempts w (s.range t) := by
  rw [budget, h]

theorem budget_steal {s : Pool n} {t : Fin (n + 1)} {w : ℤ × ℤ} (h : s.pc t = .steal w) :
    budget s t = 2 * untried s t + attempts w (s.victim t) := by
  rw [budget, h]

theorem budget_stop {s : Pool n} {t : Fin (n + 1)} (h : s.pc t = .stop) : budget s t = 0 := by
  rw [budget, h]

/-- A bound on the steps that all threads together can still take.  A chunk that is claimed lets
the claiming thread call again and spoils what the others expect. -/
def potential (s : Pool n) : ℕ := (n + 5) * (left s).length + ∑ t, budget s t

theorem budget_trySteal_le (s : Pool n) (t : Fin (n + 1)) :
    budget (s.trySteal t) t ≤ 2 * untried s t + 2 := by
  have hpc : (s.trySteal t).pc t = if s.stealRank t ≠ t then .steal (-1, -1) else .stop :=
    Function.update_self _ _ _
  have huntried : untried (s.trySteal t) t = untried s t := rfl
  by_cases h : s.stealRank t = t
  · rw [if_neg (not_not.2 h)] at hpc
    rw [budget_stop hpc]
    exact Nat.zero_le _
  · rw [if_pos h] at hpc
    rw [budget_steal hpc, huntried]
    exact Nat.add_le_add_left (attempts_bounds _ _).2 _

theorem untried_nextRank {s : Pool n} {t : Fin (n + 1)} (h : s.stealRank t ≠ t) :
    untried (s.setStealRank t (nextRank (s.stealRank t))) t + 1 = untried s t := by
  have hne : t - s.stealRank t ≠ 0 := sub_ne_zero.2 h.symm
  have hpos : (t - s.stealRank t).val ≠ 0 := fun h => hne (Fin.ext h)
  simp only [untried, Pool.setStealRank_stealRank, Function.update_self]
  rw [nextRank_eq, ← sub_sub, Fin.val_sub_one_of_ne_zero hne]
  omega

theorem Move.budget_of_ne {t : Fin (n + 1)} (h : Move s t s') (hrange : s'.range = s.range)
    {u : Fin (n + 1)} (hu : u ≠ t) : budget s' u = budget s u := by
  unfold budget untried Pool.victim
  rw [h.pc_of_ne hu, h.stealRank_of_ne hu, hrange]

/-- A move that leaves the ranges alone lowers the potential. -/
theorem Move.potential_lt_of_budget {t : Fin (n + 1)} (h : Move s t s')
    (hrange : s'.range = s.range) (hlt : budget s' t < budget s t) :
    potential s' < potential s := by
  have hleft : left s' = left s := by rw [left, hrange, left]
  have hsum : ∑ u, budget s' u < ∑ u, budget s u := by
    refine Finset.sum_lt_sum (fun u _ => ?_) ⟨t, Finset.mem_univ t, hlt⟩
    by_cases hu : u = t
    · exact hu ▸ hlt.le
    · exact (h.budget_of_ne hrange hu).le
  rw [potential, potential, hleft]
  exact Nat.add_lt_add_left hsum _

/-- A claimed chunk pays for what its claim costs. -/
theorem potential_claim {t v : Fin (n + 1)} {w : ℤ × ℤ} {i : ℤ}
    (h : (chunksOf (s.range v)).Perm (i :: chunksOf w))
    (ht : 2 * untried s t + 1 ≤ budget s t) :
    potential ((s.setRange v w).claim t i) < potential s := by
  have hleft : (left ((s.setRange v w).claim t i)).length + 1 = (left s).length :=
    (left_setRange s v h).length_eq.symm
  have huntried : ∀ u, untried ((s.setRange v w).claim t i) u = untried s u := fun _ => rfl
  have hbudget : ∀ u, budget ((s.setRange v w).claim t i) u ≤
      budget s u + (1 + if u = t then 3 else 0) := by
    intro u
    by_cases hu : u = t
    · subst hu
      rw [budget_call (s := (s.setRange v w).claim u i) (Function.update_self _ _ _), huntried,
        if_pos rfl]
      omega
    · have hpc : ((s.setRange v w).claim t i).pc u = s.pc u := Function.update_of_ne hu _ _
      rw [if_neg hu, Nat.add_zero]
      cases hu' : s.pc u with
      | call =>
        rw [budget_call hu', budget_call (hpc.trans hu'), huntried]
        exact Nat.le_succ _
      | own e =>
        have h₁ := (attempts_bounds e (s.range u)).1
        have h₂ := (attempts_bounds e (((s.setRange v w).claim t i).range u)).2
        rw [budget_own hu', budget_own (hpc.trans hu'), huntried]
        omega
      | steal e =>
        have h₁ := (attempts_bounds e (s.victim u)).1
        have h₂ := (attempts_bounds e (((s.setRange v w).claim t i).victim u)).2
        rw [budget_steal hu', budget_steal (hpc.trans hu'), huntried]
        omega
      | stop =>
        rw [budget_stop (hpc.trans hu')]
        exact Nat.zero_le _
  have hsum : ∑ u, budget ((s.setRange v w).claim t i) u ≤ ∑ u, budget s u + (n + 1 + 3) :=
    calc ∑ u, budget ((s.setRange v w).claim t i) u
        ≤ ∑ u, (budget s u + (1 + if u = t then 3 else 0)) :=
          Finset.sum_le_sum fun u _ => hbudget u
      _ = ∑ u, budget s u + (n + 1 + 3) := by
          simp [Finset.sum_add_distrib, Finset.sum_ite_eq']
  have hmul : (n + 5) * (left s).length =
      (n + 5) * (left ((s.setRange v w).claim t i)).length + (n + 5) := by
    rw [← hleft, Nat.mul_succ]
  rw [potential, potential, hmul]
  omega

/-- **Every step lowers the potential.** -/
theorem Move.potential_lt {t : Fin (n + 1)} (h : Move s t s') (hs : Inv s) :
    potential s' < potential s := by
  have hgoto : ∀ pc, (s.goto t pc).pc t = pc := fun pc => Function.update_self _ _ _
  have huntried : ∀ pc, untried (s.goto t pc) t = untried s t := fun pc => rfl
  cases h with
  | look hpc hv =>
    refine Move.potential_lt_of_budget (.look hpc hv) rfl ?_
    have hle := (attempts_bounds (-1, -1) (s.range t)).2
    rw [budget_call hpc, budget_own (hgoto _), huntried, Pool.goto_range]
    omega
  | retryOwn hpc hne hv =>
    refine Move.potential_lt_of_budget (.retryOwn hpc hne hv) rfl ?_
    rw [budget_own hpc, budget_own (hgoto _), huntried, Pool.goto_range, attempts_self,
      attempts_of_ne hne]
    omega
  | claimOwn hpc hv =>
    refine potential_claim (List.Perm.of_eq (Tiling.range_eq_cons hv)) ?_
    rw [budget_own hpc]
    omega
  | leaveOwn hpc hv =>
    refine Move.potential_lt_of_budget (.leaveOwn hpc hv) rfl ?_
    have hle := budget_trySteal_le s t
    rcases hpc with hpc | ⟨w, hpc⟩
    · rw [budget_call hpc]
      omega
    · have hge := (attempts_bounds w (s.range t)).1
      rw [budget_own hpc]
      omega
  | retrySteal hpc hne hv =>
    refine Move.potential_lt_of_budget (.retrySteal hpc hne hv) rfl ?_
    rw [budget_steal hpc, budget_steal (hgoto _), huntried, attempts_of_ne hne]
    show 2 * untried s t + attempts (s.victim t) (s.victim t) < _
    rw [attempts_self]
    omega
  | claimSteal hpc hv =>
    refine potential_claim ?_ ?_
    · rw [chunksOf, Tiling.range_eq_append hv]
      exact List.perm_append_singleton _ _
    · rw [budget_steal hpc, attempts_self]
  | @nextVictim w hpc hv =>
    refine Move.potential_lt_of_budget (.nextVictim hpc hv) rfl ?_
    have hthread := hs.thread t
    rw [ThreadInv, hpc] at hthread
    -- one member fewer is left to try
    have huntried' := untried_nextRank hthread.2.2
    have hle := budget_trySteal_le (s.setStealRank t (nextRank (s.stealRank t))) t
    have hge := (attempts_bounds w (s.victim t)).1
    rw [budget_steal hpc]
    omega

/-- What all threads together can still do when the work has been set. -/
theorem potential_start (n : ℕ) (h : 0 ≤ length) (chunk : ℤ) :
    potential (Pool.start n length chunk) =
      (n + 5) * (allChunks n length chunk).length + (n + 1) * (2 * n + 5) := by
  have hbudget : ∀ t, budget (Pool.start n length chunk) t = 2 * n + 5 := by
    intro t
    have huntried : untried (Pool.start n length chunk) t = n := by
      rw [untried, start_sub_stealRank, Fin.val_last]
    rw [budget_call rfl, huntried]
  rw [potential, left_start n h]
  simp only [hbudget, Finset.sum_const, Finset.card_univ, Fintype.card_fin, smul_eq_mul]

theorem length_add_potential_le {ts : List (Fin (n + 1))} (hs : Inv s)
    (h : s.exec ts = some s') : ts.length + potential s' ≤ potential s := by
  induction ts generalizing s with
  | nil =>
    rw [Option.some.inj h]
    simp
  | cons t ts ih =>
    obtain ⟨s₁, hs₁, h⟩ := Option.bind_eq_some_iff.1 h
    have hlt := (move_of_step hs hs₁).potential_lt hs
    have hle := ih (hs.step hs₁) h
    rw [List.length_cons]
    omega

/-- **No schedule runs forever**: the steps of a run, failed exchanges included, are bounded by
the number of threads and of chunks. -/
theorem length_le_of_exec {ts : List (Fin (n + 1))} (hlength : 0 ≤ length)
    (h : (Pool.start n length chunk).exec ts = some s) :
    ts.length ≤ (n + 5) * (allChunks n length chunk).length + (n + 1) * (2 * n + 5) := by
  have hle := length_add_potential_le (inv_start n hlength chunk) h
  rw [potential_start n hlength] at hle
  omega

theorem length_le_of_exec_two : ∃ s, (Pool.start 1 10 4).exec twoThreads = some s ∧
    twoThreads.length ≤ (1 + 5) * (allChunks 1 10 4).length + (1 + 1) * (2 * 1 + 5) := by
  obtain ⟨s, h, -⟩ := exists_exec_twoThreads
  exact ⟨s, h, length_le_of_exec (by decide) h⟩

theorem step_eq_none_iff {t : Fin (n + 1)} : s.step t = none ↔ s.pc t = .stop := by
  unfold Pool.step
  cases s.pc t with
  | call => simp
  | stop => simp
  | own w | steal w => simp only [reduceCtorEq, iff_false]; split_ifs <;> simp

/-- From every state the threads can all come to a stop. -/
theorem exists_exec_stop (hs : Inv s) :
    ∃ ts s', s.exec ts = some s' ∧ ∀ t, s'.pc t = .stop := by
  induction hk : potential s using Nat.strong_induction_on generalizing s with
  | _ k ih =>
    by_cases hall : ∀ t, s.pc t = .stop
    · exact ⟨[], s, rfl, hall⟩
    · push Not at hall
      obtain ⟨t, ht⟩ := hall
      obtain ⟨s₁, hs₁⟩ := Option.ne_none_iff_exists'.1 (mt step_eq_none_iff.1 ht)
      have hlt := (move_of_step hs hs₁).potential_lt hs
      obtain ⟨ts, s', h, hstop⟩ := ih _ (hk ▸ hlt) (hs.step hs₁) rfl
      exact ⟨t :: ts, s', by rw [Pool.exec, hs₁]; exact h, hstop⟩

end

end WorkStealing

end Kokkos

end KokkosStencil
