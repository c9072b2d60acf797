import Mathlib.Data.List.Basic
import Mathlib.Logic.Function.Conjugate

/-!
# Threads that take turns

A trace lists the actions that threads perform on a shared state, each with its thread, in the
order in which they happen.  Each thread performs its own actions in its program order.

* `run_eq_of_own_eq` : if actions of different threads commute, every two traces in which every
  thread performs the same actions end in the same state;
* `Interleaves.run_eq` : so every interleaving of some programs ends where the threads end that
  run one after the other.
-/

namespace KokkosStencil

namespace Interleave

variable {τ α σ : Type*}

/-- Perform the actions of a trace. -/
def run (act : τ → α → σ → σ) (trace : List (τ × α)) (s : σ) : σ :=
  trace.foldl (fun s x => act x.1 x.2 s) s

theorem run_append (act : τ → α → σ → σ) (tr tr' : List (τ × α)) (s : σ) :
    run act (tr ++ tr') s = run act tr' (run act tr s) := List.foldl_append

theorem run_cons (act : τ → α → σ → σ) (x : τ × α) (tr : List (τ × α)) (s : σ) :
    run act (x :: tr) s = run act tr (act x.1 x.2 s) := rfl

/-- An action that commutes with a whole trace may be performed before it. -/
theorem run_act_of_commute {act : τ → α → σ → σ} {x : τ × α} {tr : List (τ × α)}
    (h : ∀ y ∈ tr, Function.Commute (act x.1 x.2) (act y.1 y.2)) (s : σ) :
    act x.1 x.2 (run act tr s) = run act tr (act x.1 x.2 s) := by
  induction tr generalizing s with
  | nil => rfl
  | cons y tr ih =>
    obtain ⟨hy, htr⟩ := List.forall_mem_cons.1 h
    rw [run_cons, run_cons, ih htr, hy.eq]

variable [DecidableEq τ]

/-- The actions of thread `t`, in its program order. -/
def own (t : τ) (trace : List (τ × α)) : List α := (trace.filter (·.1 = t)).map (·.2)

@[simp] theorem own_nil (t : τ) : own t ([] : List (τ × α)) = [] := rfl

theorem own_append (t : τ) (tr tr' : List (τ × α)) :
    own t (tr ++ tr') = own t tr ++ own t tr' := by
  rw [own, List.filter_append, List.map_append]
  rfl

theorem own_cons_self (t : τ) (a : α) (tr : List (τ × α)) :
    own t ((t, a) :: tr) = a :: own t tr := by
  simp [own]

theorem own_cons_of_ne {t u : τ} (h : u ≠ t) (a : α) (tr : List (τ × α)) :
    own t ((u, a) :: tr) = own t tr := by
  simp [own, h]

theorem mem_own {t : τ} {a : α} {tr : List (τ × α)} : a ∈ own t tr ↔ (t, a) ∈ tr := by
  simp only [own, List.mem_map, List.mem_filter, decide_eq_true_eq, Prod.exists]
  constructor
  · rintro ⟨u, b, ⟨hmem, rfl⟩, rfl⟩
    exact hmem
  · exact fun h => ⟨t, a, ⟨h, rfl⟩, rfl⟩

/-- The first action of a thread can be found behind actions of other threads. -/
theorem exists_split_of_own_eq_cons {t : τ} {a : α} {as : List α} {tr : List (τ × α)}
    (h : own t tr = a :: as) :
    ∃ pre post, tr = pre ++ (t, a) :: post ∧ (∀ x ∈ pre, x.1 ≠ t) ∧ own t post = as := by
  induction tr with
  | nil => cases h
  | cons x tr ih =>
    obtain ⟨u, b⟩ := x
    by_cases hu : u = t
    · subst hu
      rw [own_cons_self, List.cons.injEq] at h
      obtain ⟨rfl, rfl⟩ := h
      exact ⟨[], tr, rfl, by simp, rfl⟩
    · rw [own_cons_of_ne hu] at h
      obtain ⟨pre, post, rfl, hpre, hpost⟩ := ih h
      refine ⟨(u, b) :: pre, post, rfl, ?_, hpost⟩
      rintro y (_ | ⟨_, hy⟩)
      · exact hu
      · exact hpre y hy

/-- **Interleavings of commuting threads agree.** -/
theorem run_eq_of_own_eq {act : τ → α → σ → σ} {tr tr' : List (τ × α)}
    (hcomm : ∀ x ∈ tr, ∀ y ∈ tr, x.1 ≠ y.1 → Function.Commute (act x.1 x.2) (act y.1 y.2))
    (h : ∀ t, own t tr = own t tr') (s : σ) : run act tr s = run act tr' s := by
  induction tr' generalizing tr s with
  | nil =>
    cases tr with
    | nil => rfl
    | cons x tr =>
      obtain ⟨t, a⟩ := x
      have ht := h t
      rw [own_cons_self] at ht
      cases ht
  | cons x tr' ih =>
    obtain ⟨t, a⟩ := x
    have ht := h t
    rw [own_cons_self] at ht
    obtain ⟨pre, post, rfl, hpre, hpost⟩ := exists_split_of_own_eq_cons ht
    -- the first action of the other trace moves to the front of this one
    have hfront : run act (pre ++ (t, a) :: post) s = run act (pre ++ post) (act t a s) := by
      rw [run_append, run_cons, run_append]
      refine congrArg (run act post) (run_act_of_commute (x := (t, a)) (fun y hy => ?_) s)
      exact hcomm _ (by simp) y (List.mem_append_left _ hy) (hpre y hy).symm
    rw [hfront, run_cons]
    refine ih (fun x hx y hy => hcomm x ?_ y ?_) (fun u => ?_) _
    · simp only [List.mem_append, List.mem_cons] at hx ⊢; tauto
    · simp only [List.mem_append, List.mem_cons] at hy ⊢; tauto
    · by_cases hu : t = u
      · subst hu
        have hnil : own t pre = [] := List.eq_nil_iff_forall_not_mem.2 fun b hb =>
          hpre _ (mem_own.1 hb) rfl
        rw [own_append, hnil, List.nil_append, hpost]
      · have := h u
        rwa [own_append, own_cons_of_ne hu, own_cons_of_ne hu, ← own_append] at this

/-- The trace in which the threads of a list perform their programs one after the other. -/
def sequential (threads : List τ) (program : τ → List α) : List (τ × α) :=
  threads.flatMap fun t => (program t).map (t, ·)

theorem own_map_mk (t u : τ) (as : List α) :
    own u (as.map (t, ·)) = if t = u then as else [] := by
  induction as with
  | nil => split_ifs <;> rfl
  | cons a as ih =>
    rw [List.map_cons]
    by_cases h : t = u
    · subst h; rw [own_cons_self, ih, if_pos rfl, if_pos rfl]
    · rw [own_cons_of_ne h, ih, if_neg h, if_neg h]

theorem own_sequential {threads : List τ} (hnodup : threads.Nodup) (program : τ → List α) (u : τ) :
    own u (sequential threads program) = if u ∈ threads then program u else [] := by
  induction threads with
  | nil => rfl
  | cons t threads ih =>
    obtain ⟨ht, hnodup⟩ := List.nodup_cons.1 hnodup
    have hcons : sequential (t :: threads) program =
        (program t).map (t, ·) ++ sequential threads program := rfl
    rw [hcons, own_append, own_map_mk, ih hnodup]
    by_cases h : t = u
    · subst h; simp [ht]
    · simp [h, Ne.symm h]

/-- A trace in which every thread of the list performs its program and no other thread acts. -/
def Interleaves (threads : List τ) (program : τ → List α) (trace : List (τ × α)) : Prop :=
  ∀ t, own t trace = if t ∈ threads then program t else []

/-- Such a trace ends where the threads end that run one after the other. -/
theorem Interleaves.run_eq {act : τ → α → σ → σ} {threads : List τ} {program : τ → List α}
    {trace : List (τ × α)} (h : Interleaves threads program trace) (hnodup : threads.Nodup)
    (hcomm : ∀ t ∈ threads, ∀ u ∈ threads, t ≠ u → ∀ a ∈ program t, ∀ b ∈ program u,
      Function.Commute (act t a) (act u b)) (s : σ) :
    run act trace s = run act (sequential threads program) s := by
  have hmem : ∀ x ∈ trace, x.1 ∈ threads ∧ x.2 ∈ program x.1 := by
    intro x hx
    have hown : x.2 ∈ own x.1 trace := mem_own.2 hx
    rw [h x.1] at hown
    split_ifs at hown with ht
    · exact ⟨ht, hown⟩
    · cases hown
  refine run_eq_of_own_eq (fun x hx y hy hne => ?_) (fun t => ?_) s
  · exact hcomm _ (hmem x hx).1 _ (hmem y hy).1 hne _ (hmem x hx).2 _ (hmem y hy).2
  · rw [h t, own_sequential hnodup]

end Interleave

end KokkosStencil
