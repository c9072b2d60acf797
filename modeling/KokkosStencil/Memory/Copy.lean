import KokkosStencil.Memory.Region

/-!
# Copies between two blocks of memory

A copy loop performs a list of single copies: for every pair of addresses, what the source holds at
the second is written to the target at the first.

* `Region.read_copy_of_mem` : if no address is written twice, every written address ends up with
  what was read for it;
* `Region.copy_swap_copy` : a loop that writes every address of its target once and reads every
  address of its source once (`Region.Exchange`) is undone by the loop over the same pairs in the
  other direction.
-/

namespace KokkosStencil

namespace Region

variable {ι κ β : Type*} {P : ι → Prop} {Q : κ → Prop} [DecidablePred P] [DecidablePred Q]
  [DecidableEq ι]

/-- Write what `src` holds at `c.2` to address `c.1`, for the pairs `c` of `cs` in order. -/
def copy (src : Region Q β) (oob : κ → β) (cs : List (ι × κ)) (dst : Region P β) : Region P β :=
  cs.foldl (fun dst c => dst.write c.1 (src.read oob c.2)) dst

variable {src : Region Q β} {dst : Region P β} {oob : κ → β} {cs : List (ι × κ)}

theorem copy_append {cs' : List (ι × κ)} :
    copy src oob (cs ++ cs') dst = copy src oob cs' (copy src oob cs dst) := List.foldl_append

/-- A loop each of whose rounds performs some copies performs them all. -/
theorem foldl_copy {τ : Type*} (pairs : τ → List (ι × κ)) (ks : List τ) :
    ks.foldl (fun dst k => copy src oob (pairs k) dst) dst =
      copy src oob (ks.flatMap pairs) dst := by
  induction ks generalizing dst with
  | nil => rfl
  | cons k ks ih => rw [List.foldl_cons, ih, List.flatMap_cons, copy_append]

theorem read_copy_of_notMem {t : ι} (hval : ∀ c ∈ cs, P c.1) (ht : t ∉ cs.map Prod.fst)
    (oob' : ι → β) : (copy src oob cs dst).read oob' t = dst.read oob' t := by
  induction cs generalizing dst with
  | nil => rfl
  | cons c cs ih =>
    obtain ⟨hc, hcs⟩ := List.forall_mem_cons.1 hval
    rw [List.map_cons, List.mem_cons, not_or] at ht
    show (copy src oob cs (dst.write c.1 (src.read oob c.2))).read oob' t = _
    rw [ih hcs ht.2, read_write hc, Function.update_of_ne ht.1]

/-- **What a copy leaves**, if no address is written twice. -/
theorem read_copy_of_mem (hval : ∀ c ∈ cs, P c.1) (hnd : (cs.map Prod.fst).Nodup) {c : ι × κ}
    (hc : c ∈ cs) (oob' : ι → β) :
    (copy src oob cs dst).read oob' c.1 = src.read oob c.2 := by
  induction cs generalizing dst with
  | nil => exact absurd hc List.not_mem_nil
  | cons d cs ih =>
    obtain ⟨hd, hcs⟩ := List.forall_mem_cons.1 hval
    rw [List.map_cons, List.nodup_cons] at hnd
    show (copy src oob cs (dst.write d.1 (src.read oob d.2))).read oob' c.1 = _
    rcases List.mem_cons.1 hc with rfl | hc
    · -- the later copies leave the address alone
      rw [read_copy_of_notMem hcs hnd.1, read_write hd, Function.update_self]
    · exact ih hcs hnd.2 hc

/-- Every address of the target stands first, and every address of the source second, in exactly
one pair. -/
structure Exchange (P : ι → Prop) (Q : κ → Prop) (cs : List (ι × κ)) : Prop where
  nodup_targets : (cs.map Prod.fst).Nodup
  mem_targets : ∀ t, t ∈ cs.map Prod.fst ↔ P t
  nodup_sources : (cs.map Prod.snd).Nodup
  mem_sources : ∀ s, s ∈ cs.map Prod.snd ↔ Q s

namespace Exchange

omit [DecidablePred P] [DecidablePred Q] [DecidableEq ι] in
theorem swap (h : Exchange P Q cs) : Exchange Q P (cs.map Prod.swap) := by
  have hfst : (cs.map Prod.swap).map Prod.fst = cs.map Prod.snd := List.map_map
  have hsnd : (cs.map Prod.swap).map Prod.snd = cs.map Prod.fst := List.map_map
  constructor
  · rw [hfst]; exact h.nodup_sources
  · rw [hfst]; exact h.mem_sources
  · rw [hsnd]; exact h.nodup_targets
  · rw [hsnd]; exact h.mem_targets

omit [DecidablePred P] [DecidablePred Q] [DecidableEq ι] in
theorem target_valid (h : Exchange P Q cs) : ∀ c ∈ cs, P c.1 :=
  fun _ hc => (h.mem_targets _).1 (List.mem_map_of_mem hc)

omit [DecidablePred P] [DecidablePred Q] [DecidableEq ι] in
theorem source_valid (h : Exchange P Q cs) : ∀ c ∈ cs, Q c.2 :=
  fun _ hc => (h.mem_sources _).1 (List.mem_map_of_mem hc)

end Exchange

/-- **The other direction undoes a copy**, whatever it finds in its target. -/
theorem copy_swap_copy [DecidableEq κ] (h : Exchange P Q cs) (oob' : ι → β) (src' : Region Q β) :
    copy (copy src oob cs dst) oob' (cs.map Prod.swap) src' = src := by
  refine ext_read oob fun s hs => ?_
  obtain ⟨c, hc, rfl⟩ := List.mem_map.1 ((h.mem_sources s).2 hs)
  have hback : (copy (copy src oob cs dst) oob' (cs.map Prod.swap) src').read oob c.swap.1 =
      (copy src oob cs dst).read oob' c.swap.2 :=
    read_copy_of_mem h.swap.target_valid h.swap.nodup_targets (List.mem_map_of_mem hc) oob
  exact hback.trans (read_copy_of_mem h.target_valid h.nodup_targets hc oob')

end Region

end KokkosStencil
