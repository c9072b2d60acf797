import Mathlib.Logic.Function.Basic
import Mathlib.Data.List.Induction
import Mathlib.Data.List.Nodup
import Mathlib.Data.List.Pairwise

/-!
# In-place and simultaneous sweeps

A *sweep* recomputes the values of some sites of a memory `ι → β` by a rule
`f : (ι → β) → ι → β`, which may read every site.

* `Sweep.inPlace f ps m` visits the sites `ps` one after the other; each visit reads the memory
  the earlier visits left behind.
* `Sweep.simultaneous S f m` recomputes all sites of `S` from the old memory.
* `Sweep.overlay S new old` is the memory in between: `new` on `S`, `old` elsewhere.

`Sweep.inPlace_eq_iff` characterises the result of an in-place sweep by equations, one for each
site, that mention no intermediate memory; `Sweep.inPlace_eq_simultaneous_iff` says exactly when
visiting the sites in order gives what recomputing them all at once does.
`Sweep.inPlace_comp` is the part of an in-place sweep seen along a map of sites;
`Sweep.simultaneous_rel` and `Sweep.inPlace_rel` carry a relation between the values of two
memories through a sweep of both.
-/

namespace KokkosStencil

namespace Sweep

variable {ι β : Type*}

/-- `new` on the sites of `S`, `old` elsewhere. -/
def overlay (S : ι → Prop) [DecidablePred S] (new old : ι → β) : ι → β :=
  fun p => if S p then new p else old p

/-- Recompute all sites of `S` at once, each from the old memory. -/
def simultaneous (S : ι → Prop) [DecidablePred S] (f : (ι → β) → ι → β) (m : ι → β) : ι → β :=
  overlay S (f m) m

theorem overlay_of_mem {S : ι → Prop} [DecidablePred S] {new old : ι → β} {p : ι} (h : S p) :
    overlay S new old p = new p := if_pos h

theorem overlay_of_notMem {S : ι → Prop} [DecidablePred S] {new old : ι → β} {p : ι}
    (h : ¬ S p) : overlay S new old p = old p := if_neg h

/-- Overlaying sites that already have the new values changes nothing. -/
theorem overlay_eq_old {S : ι → Prop} [DecidablePred S] {new old : ι → β}
    (h : ∀ p, S p → new p = old p) : overlay S new old = old := by
  funext p
  by_cases hp : S p
  · rw [overlay_of_mem hp, h p hp]
  · rw [overlay_of_notMem hp]

theorem simultaneous_of_mem {S : ι → Prop} [DecidablePred S] {f : (ι → β) → ι → β} {m : ι → β}
    {p : ι} (h : S p) : simultaneous S f m p = f m p := if_pos h

theorem simultaneous_of_notMem {S : ι → Prop} [DecidablePred S] {f : (ι → β) → ι → β}
    {m : ι → β} {p : ι} (h : ¬ S p) : simultaneous S f m p = m p := if_neg h

theorem overlay_congr {S T : ι → Prop} [DecidablePred S] [DecidablePred T] (h : ∀ p, S p ↔ T p)
    (new old : ι → β) : overlay S new old = overlay T new old := by
  funext p
  simp only [overlay, h p]

/-- Overlaying a part of a sweep with the sweep itself. -/
theorem overlay_simultaneous {S T : ι → Prop} [DecidablePred S] [DecidablePred T]
    (h : ∀ p, T p → S p) (f : (ι → β) → ι → β) (m : ι → β) :
    overlay T (simultaneous S f m) m = simultaneous T f m := by
  funext p
  by_cases hp : T p
  · rw [overlay_of_mem hp, simultaneous_of_mem hp, simultaneous_of_mem (h p hp)]
  · rw [overlay_of_notMem hp, simultaneous_of_notMem hp]

variable [DecidableEq ι]

/-- Visit site `p`: overwrite it with the value `f` computes from the current memory. -/
def visit (f : (ι → β) → ι → β) (m : ι → β) (p : ι) : ι → β := Function.update m p (f m p)

/-- Visit the sites `ps` in order. -/
def inPlace (f : (ι → β) → ι → β) (ps : List ι) (m : ι → β) : ι → β := ps.foldl (visit f) m

variable {f : (ι → β) → ι → β} {m g : ι → β} {ps : List ι}

@[simp] theorem inPlace_nil : inPlace f [] m = m := rfl

@[simp] theorem inPlace_cons {p : ι} : inPlace f (p :: ps) m = inPlace f ps (visit f m p) := rfl

theorem inPlace_append {qs : List ι} :
    inPlace f (ps ++ qs) m = inPlace f qs (inPlace f ps m) := List.foldl_append

/-- Sites that are not visited keep their value. -/
theorem inPlace_of_notMem {q : ι} (hq : q ∉ ps) : inPlace f ps m q = m q := by
  induction ps generalizing m with
  | nil => rfl
  | cons p ps ih =>
    rw [List.mem_cons, not_or] at hq
    rw [inPlace_cons, ih hq.2, visit, Function.update_of_ne hq.1]

/-- A site is given the value computed from what the visits before it left behind. -/
theorem inPlace_split {pre post : List ι} {p : ι} (hp : p ∉ post) :
    inPlace f (pre ++ p :: post) m p = f (inPlace f pre m) p := by
  rw [inPlace_append, inPlace_cons, inPlace_of_notMem hp, visit, Function.update_self]

/-- Half-way through a sweep, the visited sites already hold their final values. -/
theorem overlay_inPlace {pre rest : List ι} (h : (pre ++ rest).Nodup) :
    overlay (· ∈ pre) (inPlace f (pre ++ rest) m) m = inPlace f pre m := by
  funext q
  by_cases hq : q ∈ pre
  · have hq' : q ∉ rest := fun hr => (List.nodup_append.1 h).2.2 q hq q hr rfl
    rw [overlay_of_mem hq, inPlace_append, inPlace_of_notMem hq']
  · rw [overlay_of_notMem hq, inPlace_of_notMem hq]

/-- **The equations of an in-place sweep.**  The result is the only memory that agrees with the
old one off the visited sites and gives every visited site the value computed from the final
values of the sites before it and the old values of the others. -/
theorem inPlace_eq_iff (hnd : ps.Nodup) :
    inPlace f ps m = g ↔ (∀ q, q ∉ ps → g q = m q) ∧
      ∀ pre p post, ps = pre ++ p :: post → g p = f (overlay (· ∈ pre) g m) p := by
  constructor
  · rintro rfl
    refine ⟨fun q hq => inPlace_of_notMem hq, ?_⟩
    rintro pre p post rfl
    have hp : p ∉ post := by
      have := (List.nodup_append.1 hnd).2.1
      exact (List.nodup_cons.1 this).1
    rw [inPlace_split hp, overlay_inPlace hnd]
  · rintro ⟨hoff, hon⟩
    -- half-way through the sweep the memory is the overlay of the result on what was visited
    have key : ∀ pre rest, ps = pre ++ rest → inPlace f pre m = overlay (· ∈ pre) g m := by
      intro pre
      induction pre using List.reverseRecOn with
      | nil => intro _ _; funext q; simp [overlay]
      | append_singleton pre p ih =>
        intro rest hps
        rw [List.append_assoc, List.singleton_append] at hps
        rw [inPlace_append, ih _ hps, inPlace_cons, inPlace_nil, visit, ← hon _ _ _ hps]
        funext q
        by_cases hq : q = p
        · subst hq; simp [overlay]
        · simp [overlay, hq]
    rw [key ps [] (List.append_nil ps).symm]
    funext q
    by_cases hq : q ∈ ps
    · exact overlay_of_mem hq
    · rw [overlay_of_notMem hq, hoff q hq]

/-! ### Sweeps along an order -/

variable {r : ι → ι → Prop}

omit [DecidableEq ι] in
/-- In a list that ascends along `r`, the entries before `p` are those below `p`. -/
theorem mem_prefix_iff (hr : ∀ a b, r a b → ¬ r b a) {pre post : List ι} {p : ι}
    (hs : (pre ++ p :: post).Pairwise r) (q : ι) :
    q ∈ pre ↔ q ∈ pre ++ p :: post ∧ r q p := by
  obtain ⟨-, hpost, hpre⟩ := List.pairwise_append.1 hs
  constructor
  · exact fun hq => ⟨List.mem_append_left _ hq, hpre q hq p List.mem_cons_self⟩
  · -- `p` itself and the entries after it are not below `p`
    rintro ⟨hq, hqp⟩
    rcases List.mem_append.1 hq with hq | hq
    · exact hq
    · exfalso
      rcases List.mem_cons.1 hq with rfl | hq
      · exact hr _ _ hqp hqp
      · exact hr _ _ hqp ((List.pairwise_cons.1 hpost).1 q hq)

omit [DecidableEq ι] in
theorem nodup_of_pairwise (hr : ∀ a b, r a b → ¬ r b a) (hs : ps.Pairwise r) : ps.Nodup :=
  hs.imp fun {a b} (hab : r a b) (h : a = b) => by subst h; exact hr a a hab hab

variable {S : ι → Prop} {T : ι → ι → Prop} [∀ p, DecidablePred (T p)]

/-- `inPlace_eq_iff` for a sweep of `S` that ascends along `r`: the sites `T p` visited before
`p` are the sites of `S` below `p`. -/
theorem inPlace_eq_iff_of_pairwise (hr : ∀ a b, r a b → ¬ r b a) (hs : ps.Pairwise r)
    (hS : ∀ q, q ∈ ps ↔ S q) (hT : ∀ p q, T p q ↔ S q ∧ r q p) :
    inPlace f ps m = g ↔ (∀ q, ¬ S q → g q = m q) ∧ ∀ p, S p → g p = f (overlay (T p) g m) p := by
  have hoff : (∀ q, q ∉ ps → g q = m q) ↔ ∀ q, ¬ S q → g q = m q :=
    forall_congr' fun q => by rw [hS]
  have hpre : ∀ pre p post, ps = pre ++ p :: post → ∀ q, q ∈ pre ↔ T p q := by
    rintro pre p post rfl q
    rw [mem_prefix_iff hr hs, hS, hT]
  rw [inPlace_eq_iff (nodup_of_pairwise hr hs), hoff]
  refine and_congr_right fun _ => ⟨fun h p hp => ?_, fun h pre p post hps => ?_⟩
  · obtain ⟨pre, post, hps⟩ := List.append_of_mem ((hS p).2 hp)
    rw [h pre p post hps, overlay_congr (hpre pre p post hps)]
  · have hp : S p := (hS p).1 (by simp [hps])
    rw [h p hp, overlay_congr (hpre pre p post hps)]

/-- **When order does not show.**  Visiting the sites of `S` in order gives what recomputing
them all at once gives iff, at every site, recomputing only the sites before it leaves the value
`f` computes there as it was. -/
theorem inPlace_eq_simultaneous_iff [DecidablePred S] (hr : ∀ a b, r a b → ¬ r b a)
    (hs : ps.Pairwise r) (hS : ∀ q, q ∈ ps ↔ S q) (hT : ∀ p q, T p q ↔ S q ∧ r q p) :
    inPlace f ps m = simultaneous S f m ↔
      ∀ p, S p → f (simultaneous (T p) f m) p = f m p := by
  have hsub : ∀ p q, T p q → S q := fun p q h => ((hT p q).1 h).1
  rw [inPlace_eq_iff_of_pairwise hr hs hS hT]
  constructor
  · rintro ⟨-, h⟩ p hp
    have := h p hp
    rw [simultaneous_of_mem hp, overlay_simultaneous (hsub p)] at this
    exact this.symm
  · intro h
    refine ⟨fun q hq => simultaneous_of_notMem hq, fun p hp => ?_⟩
    rw [simultaneous_of_mem hp, overlay_simultaneous (hsub p)]
    exact (h p hp).symm

/-! ### Sweeps as visits to their own result -/

omit [∀ p, DecidablePred (T p)] in
/-- The equations of a sweep of `S`, one for every site: a visited site holds the value computed
from the result below it and the old memory elsewhere. -/
theorem inPlace_eq_iff_visit [DecidablePred S] [DecidableRel r] (hr : ∀ a b, r a b → ¬ r b a)
    (hs : ps.Pairwise r) (hS : ∀ q, q ∈ ps ↔ S q) :
    inPlace f ps m = g ↔
      ∀ p, g p = if S p then f (overlay (fun q => r q p) g m) p else m p := by
  -- off the visited sites the result is the old memory, so they may stay in the overlay
  have hbelow : (∀ q, ¬ S q → g q = m q) → ∀ p,
      overlay (fun q => S q ∧ r q p) g m = overlay (fun q => r q p) g m := by
    intro hoff p
    funext q
    by_cases hq : S q
    · simp only [overlay, hq, true_and]
    · simp only [overlay, hq, false_and, hoff q hq, ite_self]
  rw [inPlace_eq_iff_of_pairwise hr hs hS (fun _ _ => Iff.rfl)]
  constructor
  · rintro ⟨hoff, hon⟩ p
    by_cases hp : S p
    · rw [if_pos hp, ← hbelow hoff]; exact hon p hp
    · rw [if_neg hp]; exact hoff p hp
  · intro h
    have hoff : ∀ q, ¬ S q → g q = m q := fun q hq => by rw [h q, if_neg hq]
    refine ⟨hoff, fun p hp => ?_⟩
    rw [hbelow hoff, h p, if_pos hp]

omit [∀ p, DecidablePred (T p)] in
/-- **When two sweeps agree.**  A sweep of `S` by `f` and one of `S'` by `f'` have the same result
iff, at every site, both give the same value on the second sweep's own way to the site. -/
theorem inPlace_eq_inPlace_iff [DecidablePred S] {S' : ι → Prop} [DecidablePred S']
    [DecidableRel r] {f' : (ι → β) → ι → β} {ps' : List ι} (hr : ∀ a b, r a b → ¬ r b a)
    (hs : ps.Pairwise r) (hs' : ps'.Pairwise r) (hS : ∀ q, q ∈ ps ↔ S q)
    (hS' : ∀ q, q ∈ ps' ↔ S' q) (hg : inPlace f' ps' m = g) :
    inPlace f ps m = g ↔ ∀ p,
      (if S p then f (overlay (fun q => r q p) g m) p else m p) =
        if S' p then f' (overlay (fun q => r q p) g m) p else m p := by
  rw [inPlace_eq_iff_visit hr hs hS]
  refine forall_congr' fun p => ?_
  rw [← (inPlace_eq_iff_visit hr hs' hS').1 hg p, eq_comm]

omit [∀ p, DecidablePred (T p)] in
/-- **Part of a sweep.**  If a map `e` of sites reflects membership and order, and the rule at `e q`
reads through `e` only, then the sweep is along `e` a sweep of its own. -/
theorem inPlace_comp [DecidablePred S] [DecidableRel r] {κ : Type*} [DecidableEq κ]
    {S' : κ → Prop} [DecidablePred S'] {r' : κ → κ → Prop} [DecidableRel r']
    {f' : (κ → β) → κ → β} {qs : List κ} (e : κ → ι) (hr : ∀ a b, r a b → ¬ r b a)
    (hs : ps.Pairwise r) (hS : ∀ p, p ∈ ps ↔ S p) (hr' : ∀ a b, r' a b → ¬ r' b a)
    (hs' : qs.Pairwise r') (hS' : ∀ q, q ∈ qs ↔ S' q) (hmem : ∀ q, S (e q) ↔ S' q)
    (hrel : ∀ a b, r (e a) (e b) ↔ r' a b) (hf : ∀ g q, S' q → f g (e q) = f' (g ∘ e) q) :
    inPlace f ps m ∘ e = inPlace f' qs (m ∘ e) := by
  refine ((inPlace_eq_iff_visit hr' hs' hS').2 fun q => ?_).symm
  have hsite := (inPlace_eq_iff_visit (f := f) (m := m) hr hs hS).1 rfl (e q)
  rw [Function.comp_apply, hsite]
  by_cases hq : S' q
  · -- what is below `e q` is, along `e`, what is below `q`
    have hbelow : overlay (fun p => r p (e q)) (inPlace f ps m) m ∘ e =
        overlay (fun a => r' a q) (inPlace f ps m ∘ e) (m ∘ e) := by
      funext a
      simp only [Function.comp_apply, overlay, hrel]
    rw [if_pos ((hmem q).2 hq), if_pos hq, hf _ q hq, hbelow]
  · rw [if_neg fun h => hq ((hmem q).1 h), if_neg hq, Function.comp_apply]

/-! ### Two sweeps side by side -/

section Relation

variable {γ : Type*} {ρ : β → γ → Prop} {f' : (ι → γ) → ι → γ} {m' : ι → γ}

omit [DecidableEq ι] in
/-- If the rules keep the values of two memories related, so do their simultaneous sweeps. -/
theorem simultaneous_rel {S : ι → Prop} [DecidablePred S]
    (hf : ∀ g g', (∀ p, ρ (g p) (g' p)) → ∀ p, S p → ρ (f g p) (f' g' p))
    (h : ∀ p, ρ (m p) (m' p)) (p : ι) : ρ (simultaneous S f m p) (simultaneous S f' m' p) := by
  by_cases hp : S p
  · rw [simultaneous_of_mem hp, simultaneous_of_mem hp]
    exact hf m m' h p hp
  · rw [simultaneous_of_notMem hp, simultaneous_of_notMem hp]
    exact h p

/-- So do their in-place sweeps, where every site inherits the values before it. -/
theorem inPlace_rel (hf : ∀ g g', (∀ p, ρ (g p) (g' p)) → ∀ p ∈ ps, ρ (f g p) (f' g' p))
    (h : ∀ p, ρ (m p) (m' p)) (p : ι) : ρ (inPlace f ps m p) (inPlace f' ps m' p) := by
  induction ps generalizing m m' with
  | nil => exact h p
  | cons q qs ih =>
    have hvisit : ∀ p, ρ (visit f m q p) (visit f' m' q p) := by
      intro p
      by_cases hp : p = q
      · subst hp
        rw [visit, visit, Function.update_self, Function.update_self]
        exact hf m m' h p List.mem_cons_self
      · rw [visit, visit, Function.update_of_ne hp, Function.update_of_ne hp]
        exact h p
    rw [inPlace_cons, inPlace_cons]
    exact ih (fun g g' hg p hp => hf g g' hg p (List.mem_cons_of_mem q hp)) hvisit

end Relation

end Sweep

end KokkosStencil
