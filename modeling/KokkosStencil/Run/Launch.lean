import Mathlib.Data.List.Perm.Basic
import Mathlib.Logic.Function.Iterate
import KokkosStencil.Memory.Region
import KokkosStencil.Run.Scan

/-!
# Launches and runs

`mdRange2` and `mdRange3` list the indices of a multidimensional range policy.
`launch order body` runs a body once for every index of a policy, in the order `order`, each body
an atomic step on the state.  A `LaunchOrder policy` is any rearrangement of the policy, so that
a statement for every `LaunchOrder` covers every schedule of the bodies.

A launch whose bodies only scatter values that do not depend on the block they write gives the
same block for every order (`read_launch`).

`Steps step t s s'` says that `t` steps may lead from `s` to `s'`; if every step has one result,
so has a run (`steps_iff`), and a `whileLoop` ends where its states first leave its condition
(`exists_whileLoop_iff`).  `forall_le_iff_forall_lt` is the rule for runs: when a step takes a
state where `P` holds to one where `P` holds exactly under `Q`, `P` holds along a whole run iff `Q`
holds before every step.
`iterate_fixed_of_rank` bounds the number of steps until a run comes to rest.
-/

namespace KokkosStencil

variable {ι κ σ β : Type*}

/-- Indices of `MDRangePolicy<Rank<2>>(lo, hi)`. -/
def mdRange2 (lo hi : ℤ × ℤ) : List (ℤ × ℤ) := Int.range lo.1 hi.1 ×ˢ Int.range lo.2 hi.2

/-- Indices of `MDRangePolicy<Rank<3>>(lo, hi)`. -/
def mdRange3 (lo hi : ℤ × ℤ × ℤ) : List (ℤ × ℤ × ℤ) :=
  Int.range lo.1 hi.1 ×ˢ mdRange2 lo.2 hi.2

theorem mem_mdRange2 {lo hi p : ℤ × ℤ} :
    p ∈ mdRange2 lo hi ↔ (lo.1 ≤ p.1 ∧ p.1 < hi.1) ∧ lo.2 ≤ p.2 ∧ p.2 < hi.2 := by
  obtain ⟨i, j⟩ := p
  simp only [mdRange2, List.mem_product, Int.mem_range_iff]

theorem mem_mdRange3 {lo hi x : ℤ × ℤ × ℤ} :
    x ∈ mdRange3 lo hi ↔ (lo.1 ≤ x.1 ∧ x.1 < hi.1) ∧ (lo.2.1 ≤ x.2.1 ∧ x.2.1 < hi.2.1) ∧
      lo.2.2 ≤ x.2.2 ∧ x.2.2 < hi.2.2 := by
  obtain ⟨i, p⟩ := x
  simp only [mdRange3, List.mem_product, Int.mem_range_iff, mem_mdRange2]

theorem nodup_mdRange2 (lo hi : ℤ × ℤ) : (mdRange2 lo hi).Nodup :=
  Sweep.nodup_of_pairwise Scan.Before.asymm
    (Scan.pairwise_product (Scan.pairwise_range _ _) (Scan.pairwise_range _ _))

theorem nodup_range (a b : ℤ) : (Int.range a b).Nodup :=
  Sweep.nodup_of_pairwise Scan.lt_asymm_int (Scan.pairwise_range a b)

theorem nodup_mdRange3 (lo hi : ℤ × ℤ × ℤ) : (mdRange3 lo hi).Nodup :=
  (nodup_range _ _).product (nodup_mdRange2 _ _)

/-- An order in which a launch executes the indices of `policy`. -/
def LaunchOrder (policy : List κ) := {order : List κ // order.Perm policy}

namespace LaunchOrder

variable {policy : List κ}

/-- The order in which the policy lists its indices. -/
def inOrder (policy : List κ) : LaunchOrder policy := ⟨policy, List.Perm.refl _⟩

theorem mem_iff (o : LaunchOrder policy) {x : κ} : x ∈ o.1 ↔ x ∈ policy := o.2.mem_iff

end LaunchOrder

/-- Run `body` once for every index of the policy, in the order `o`. -/
def launch {policy : List κ} (o : LaunchOrder policy) (body : κ → σ → σ) (s : σ) : σ :=
  o.1.foldl (fun s x => body x s) s

/-- Bodies that read the second component of a pair and change the first. -/
theorem launch_fst {τ : Type*} {policy : List κ} (o : LaunchOrder policy) (body : τ → κ → σ → σ)
    (s : σ) (t : τ) :
    launch o (fun x (p : σ × τ) => (body p.2 x p.1, p.2)) (s, t) = (launch o (body t) s, t) :=
  List.foldl_hom (·, t) fun _ _ => rfl

/-- Bodies that read the first component of a pair and change the second. -/
theorem launch_snd {τ : Type*} {policy : List κ} (o : LaunchOrder policy) (body : σ → κ → τ → τ)
    (s : σ) (t : τ) :
    launch o (fun x (p : σ × τ) => (p.1, body p.1 x p.2)) (s, t) = (s, launch o (body s) t) :=
  List.foldl_hom (s, ·) fun _ _ => rfl

section Scatter

variable [DecidableEq ι] {P : ι → Prop} [DecidablePred P] {policy : List κ}
variable {I : σ → Prop} (field : σ → Region P β) {v : ι → β} {cells : κ → List ι}
variable {body : κ → σ → σ}

/-- A loop each of whose bodies keeps `I` and, under `I`, scatters `v` over its own addresses of a
field of the state keeps `I` and scatters `v` over all of them. -/
theorem foldl_scatter_field (hI : ∀ x s, I s → I (body x s)) {xs : List κ}
    (hbody : ∀ x ∈ xs, ∀ s, I s → field (body x s) = Region.scatter v (cells x) (field s)) {s : σ}
    (hs : I s) : I (xs.foldl (fun s x => body x s) s) ∧
      field (xs.foldl (fun s x => body x s) s) =
        Region.scatter v (xs.flatMap cells) (field s) := by
  induction xs generalizing s with
  | nil => exact ⟨hs, rfl⟩
  | cons x xs ih =>
    obtain ⟨hx, hxs⟩ := List.forall_mem_cons.1 hbody
    obtain ⟨hI', hfield⟩ := ih hxs (hI x s hs)
    refine ⟨hI', ?_⟩
    rw [List.foldl_cons, hfield, hx s hs, List.flatMap_cons, Region.scatter_append]

/-- So does a launch of such bodies. -/
theorem launch_scatter (o : LaunchOrder policy) (hI : ∀ x s, I s → I (body x s))
    (hbody : ∀ x ∈ policy, ∀ s, I s →
      field (body x s) = Region.scatter v (cells x) (field s)) {s : σ} (hs : I s) :
    I (launch o body s) ∧
      field (launch o body s) = Region.scatter v (o.1.flatMap cells) (field s) :=
  foldl_scatter_field field hI (fun x hx => hbody x (o.mem_iff.1 hx)) hs

/-- **Order independence.**  After such a launch the addresses of all bodies hold `v` and the
others what they held, whatever the order. -/
theorem read_launch (o : LaunchOrder policy) (hI : ∀ x s, I s → I (body x s))
    (hbody : ∀ x ∈ policy, ∀ s, I s →
      field (body x s) = Region.scatter v (cells x) (field s))
    (hv : ∀ x ∈ policy, ∀ y ∈ cells x, P y) {s : σ} (hs : I s) (oob : ι → β) (y : ι) :
    (field (launch o body s)).read oob y =
      if ∃ x ∈ policy, y ∈ cells x then v y else (field s).read oob y := by
  have hcells : ∀ z ∈ o.1.flatMap cells, P z := by
    intro z hz
    obtain ⟨x, hx, hzx⟩ := List.mem_flatMap.1 hz
    exact hv x (o.mem_iff.1 hx) z hzx
  rw [(launch_scatter field o hI hbody hs).2, Region.read_scatter hcells]
  simp only [List.mem_flatMap, o.mem_iff]

end Scatter

/-! ### Runs -/

/-- `t` steps of a system whose step may depend on its number. -/
inductive Steps (step : ℕ → σ → σ → Prop) : ℕ → σ → σ → Prop
  | zero (s : σ) : Steps step 0 s s
  | succ {t : ℕ} {s s' s'' : σ} : Steps step t s s' → step t s' s'' → Steps step (t + 1) s s''

/-- **If every step has one result, so has every run**: the steps of `step` on the images of `f` do
what `loop` does. -/
theorem steps_map_iff {τ : Type*} {step : ℕ → τ → τ → Prop} (f : σ → τ) (loop g : ℕ → σ → σ)
    (hstep : ∀ t s m, step t (f s) m ↔ m = f (g t s)) (h₀ : ∀ s, loop 0 s = s)
    (hsucc : ∀ t s, loop (t + 1) s = g t (loop t s)) {t : ℕ} {s : σ} {m : τ} :
    Steps step t (f s) m ↔ m = f (loop t s) := by
  induction t generalizing m with
  | zero =>
    rw [h₀]
    constructor
    · rintro ⟨⟩
      rfl
    · rintro rfl
      exact Steps.zero _
  | succ t ih =>
    rw [hsucc, ← hstep]
    constructor
    · rintro (_ | ⟨hrun, hlast⟩)
      rwa [ih.1 hrun] at hlast
    · exact (ih.2 rfl).succ

theorem steps_iff {step : ℕ → σ → σ → Prop} (loop f : ℕ → σ → σ)
    (hstep : ∀ t s s', step t s s' ↔ s' = f t s) (h₀ : ∀ s, loop 0 s = s)
    (hsucc : ∀ t s, loop (t + 1) s = f t (loop t s)) {t : ℕ} {s s' : σ} :
    Steps step t s s' ↔ s' = loop t s := steps_map_iff id loop f hstep h₀ hsucc

/-- The steps `r x` for the elements `x` of a list, one after the other. -/
def Chain (r : κ → σ → σ → Prop) : List κ → σ → σ → Prop
  | [], s, s' => s' = s
  | x :: xs, s, s'' => ∃ s', r x s s' ∧ Chain r xs s' s''

theorem chain_map_iff {τ : Type*} {r : κ → τ → τ → Prop} (f : σ → τ) {g : κ → σ → σ} {xs : List κ}
    (hr : ∀ x ∈ xs, ∀ s m, r x (f s) m ↔ m = f (g x s)) {s : σ} {m : τ} :
    Chain r xs (f s) m ↔ m = f (xs.foldl (fun s x => g x s) s) := by
  induction xs generalizing s with
  | nil => exact Iff.rfl
  | cons x xs ih =>
    obtain ⟨hx, hxs⟩ := List.forall_mem_cons.1 hr
    simp only [Chain, hx, exists_eq_left, ih hxs, List.foldl_cons]

theorem chain_iff {r : κ → σ → σ → Prop} {f : κ → σ → σ} {xs : List κ}
    (hr : ∀ x ∈ xs, ∀ s s', r x s s' ↔ s' = f x s) {s s' : σ} :
    Chain r xs s s' ↔ s' = xs.foldl (fun s x => f x s) s := chain_map_iff id hr

/-- `while (cond) body`, unless it takes more than `fuel` rounds. -/
def whileLoop (cond : σ → Bool) (body : σ → σ) : ℕ → σ → Option σ
  | 0, s => if cond s then none else some s
  | fuel + 1, s => if cond s then whileLoop cond body fuel (body s) else some s

/-- **A loop that goes through `states` and stops at the `n`-th** ends there. -/
theorem exists_whileLoop_iff {cond : σ → Bool} {body : σ → σ} (states : ℕ → σ) {n : ℕ}
    (hcond : ∀ k < n, cond (states k) = true) (hbody : ∀ k < n, body (states k) = states (k + 1))
    (hend : cond (states n) = false) {s' : σ} :
    (∃ fuel, whileLoop cond body fuel (states 0) = some s') ↔ s' = states n := by
  -- `m` rounds before the end, `m` is fuel enough and less is not
  have hrun : ∀ m k fuel, k + m = n → whileLoop cond body fuel (states k) =
      if m ≤ fuel then some (states n) else none := by
    intro m
    induction m with
    | zero =>
      intro k fuel hk
      rw [Nat.add_zero] at hk
      subst hk
      cases fuel <;> simp [whileLoop, hend]
    | succ m ih =>
      intro k fuel hk
      have hlt : k < n := by omega
      cases fuel with
      | zero => simp [whileLoop, hcond k hlt]
      | succ fuel => simp [whileLoop, hcond k hlt, hbody k hlt, ih (k + 1) fuel (by omega)]
  constructor
  · rintro ⟨fuel, hfuel⟩
    rw [hrun n 0 fuel (Nat.zero_add n)] at hfuel
    split_ifs at hfuel
    exact (Option.some.inj hfuel).symm
  · rintro rfl
    exact ⟨n, by rw [hrun n 0 n (Nat.zero_add n), if_pos le_rfl]⟩

/-- If `P` passes from each step to the next exactly under `Q`, then `P` holds up to `t` iff `Q`
holds before `t`. -/
theorem forall_le_iff_forall_lt {P Q : ℕ → Prop} (h₀ : P 0)
    (hstep : ∀ s, P s → (P (s + 1) ↔ Q s)) (t : ℕ) :
    (∀ s ≤ t, P s) ↔ ∀ s < t, Q s := by
  constructor
  · exact fun h s hs => (hstep s (h s (Nat.le_of_lt hs))).1 (h (s + 1) hs)
  · intro h s
    induction s with
    | zero => exact fun _ => h₀
    | succ s ih => exact fun hs => (hstep s (ih (by omega))).2 (h s hs)

/-- The same rule, for a run that is looked at after each of its steps. -/
theorem forall_lt_succ_iff_forall_lt {P Q : ℕ → Prop} (h₀ : P 0)
    (hstep : ∀ s, P s → (P (s + 1) ↔ Q s)) (t : ℕ) :
    (∀ s < t, P (s + 1)) ↔ ∀ s < t, Q s := by
  rw [← forall_le_iff_forall_lt h₀ hstep]
  constructor
  · intro h s hs
    cases s with
    | zero => exact h₀
    | succ s => exact h s hs
  · exact fun h s hs => h (s + 1) hs

/-- Two systems started together agree along a run iff they take the same step everywhere. -/
theorem iterate_agree_iff {f g : σ → σ} (x : σ) (t : ℕ) :
    (∀ s ≤ t, f^[s] x = g^[s] x) ↔ ∀ s < t, f (f^[s] x) = g (f^[s] x) := by
  have h₀ : f^[0] x = g^[0] x := rfl
  refine forall_le_iff_forall_lt h₀ (fun s (hs : f^[s] x = g^[s] x) => ?_) t
  rw [Function.iterate_succ_apply', Function.iterate_succ_apply', ← hs]

/-- **A run comes to rest** after as many steps as the rank of its first state, if every step that
changes a state satisfying the invariant `I` lowers its rank. -/
theorem iterate_fixed_of_rank {f : σ → σ} {I : σ → Prop} {rank : σ → ℕ}
    (hI : ∀ x, I x → I (f x)) (hrank : ∀ x, I x → f x ≠ x → rank (f x) < rank x) {t : ℕ} {x : σ}
    (hx : I x) (ht : rank x ≤ t) : f (f^[t] x) = f^[t] x := by
  induction t generalizing x with
  | zero =>
    by_contra hne
    have hlt := hrank x hx hne
    omega
  | succ t ih =>
    by_cases hfix : f x = x
    · rw [Function.iterate_fixed hfix, hfix]
    · -- the first step lowers the rank, so the rest of the run has a step less to make
      have hlt := hrank x hx hfix
      rw [Function.iterate_succ_apply]
      exact ih (hI x hx) (by omega)

end KokkosStencil
