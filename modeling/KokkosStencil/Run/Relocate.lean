import KokkosStencil.Run.Threads

/-!
# Kernels on relocated cells

A kernel that works on the cells of a memory may be run on cells at other addresses, in a memory
that holds other things too.

* `Embeds` : the memory there is a function of the memory here, and what a load returns and a store
  changes is the same at both places, for the cells that are loaded and those that are stored to;
* `Embeds.raceFree_relocate` : a kernel that has no races here has none there;
* `Embeds.launch` : a launch there does what the launch does here, and leaves everything else alone.
-/

namespace KokkosStencil

namespace Threads

variable {κ ι ι' β σ : Type*}

/-- The block at other addresses. -/
def CodeBlock.relocate (addr : ι → ι') (b : CodeBlock ι β) : CodeBlock ι' β :=
  ⟨b.loads.map addr, b.stores.map fun s => (addr s.1, s.2)⟩

/-- The kernel at other addresses. -/
def Kernel.relocate (addr : ι → ι') (K : Kernel κ ι β) : Kernel κ ι' β :=
  fun x => (K x).map (CodeBlock.relocate addr)

/-- The bodies of the policy load cells that are `Loaded` and store to cells that are `Stored`. -/
def Kernel.Within (K : Kernel κ ι β) (Loaded Stored : ι → Prop) (policy : List κ) : Prop :=
  ∀ x ∈ policy, (∀ a ∈ K.loads x, Loaded a) ∧ ∀ a ∈ K.stores x, Stored a

/-- The cells of `M` are at the addresses `addr` of a larger memory: `place s` is that memory when
the smaller one is in state `s`. -/
structure Embeds [DecidableEq ι'] (M : Storage σ κ ι β) (addr : ι → ι') (place : σ → ι' → β)
    (Loaded Stored : ι → Prop) : Prop where
  /-- A cell that is stored to has its address for itself. -/
  own : ∀ {a b}, Stored a → Loaded b ∨ Stored b → addr a = addr b → a = b
  get : ∀ x s {a}, Loaded a → place s (addr a) = M.get x s a
  set : ∀ s {a} v, Stored a → place (M.set s a v) = Function.update (place s) (addr a) v

variable {addr : ι → ι'} {K : Kernel κ ι β} {Loaded Stored : ι → Prop} {policy : List κ}

theorem Kernel.loads_relocate (x : κ) : (K.relocate addr).loads x = (K.loads x).map addr := by
  rw [loads, relocate, List.flatMap_map, loads, List.map_flatMap]
  rfl

theorem Kernel.stores_relocate (x : κ) : (K.relocate addr).stores x = (K.stores x).map addr := by
  rw [stores, relocate, List.flatMap_map, stores, List.map_flatMap]
  simp only [CodeBlock.relocate, List.map_map, Function.comp_def]

theorem disjoint_map_of_own {as bs : List ι}
    (hown : ∀ a ∈ as, ∀ b ∈ bs, addr a = addr b → a = b) (h : as.Disjoint bs) :
    (as.map addr).Disjoint (bs.map addr) := by
  intro c hca hcb
  obtain ⟨a, ha, rfl⟩ := List.mem_map.1 hca
  obtain ⟨b, hb, hab⟩ := List.mem_map.1 hcb
  exact h ha (hown a ha b hb hab.symm ▸ hb)

namespace Embeds

variable [DecidableEq ι'] {M : Storage σ κ ι β} {place : σ → ι' → β}

/-- **Without races here, without races there.** -/
theorem raceFree_relocate (e : Embeds M addr place Loaded Stored) (h : K.RaceFree policy)
    (hin : K.Within Loaded Stored policy) : (K.relocate addr).RaceFree policy := by
  intro x hx y hy hxy
  obtain ⟨hstores, hloads⟩ := h x hx y hy hxy
  rw [Kernel.stores_relocate, Kernel.stores_relocate, Kernel.loads_relocate]
  constructor
  · refine disjoint_map_of_own (fun a ha b hb => ?_) hstores
    exact e.own ((hin x hx).2 a ha) (Or.inr ((hin y hy).2 b hb))
  · refine disjoint_map_of_own (fun a ha b hb => ?_) hloads
    exact e.own ((hin x hx).2 a ha) (Or.inl ((hin y hy).1 b hb))

theorem perform (e : Embeds M addr place Loaded Stored) {b : CodeBlock ι β} (x : κ) (s : σ)
    (hloads : ∀ a ∈ b.loads, Loaded a) (hstores : ∀ p ∈ b.stores, Stored p.1) :
    (b.relocate addr).perform Storage.ofFun x (place s) = place (b.perform M x s) := by
  have hvalues : (b.relocate addr).loads.map (Storage.ofFun.get x (place s)) =
      b.loads.map (M.get x s) := by
    rw [CodeBlock.relocate, List.map_map]
    exact List.map_congr_left fun a ha => e.get x s (hloads a ha)
  rw [CodeBlock.perform, CodeBlock.perform, hvalues]
  clear hvalues
  generalize b.loads.map (M.get x s) = values
  rw [CodeBlock.relocate]
  simp only [List.foldl_map]
  generalize b.stores = ps at *
  induction ps generalizing s with
  | nil => rfl
  | cons p ps ih =>
    obtain ⟨hp, hps⟩ := List.forall_mem_cons.1 hstores
    rw [List.foldl_cons, List.foldl_cons, ← ih _ hps, e.set s _ hp]
    rfl

theorem body (e : Embeds M addr place Loaded Stored) (hin : K.Within Loaded Stored policy) {x : κ}
    (hx : x ∈ policy) (s : σ) :
    (K.relocate addr).body Storage.ofFun x (place s) = place (K.body M x s) := by
  obtain ⟨hloads, hstores⟩ := hin x hx
  unfold Kernel.loads at hloads
  unfold Kernel.stores at hstores
  rw [Kernel.body, Kernel.body, Kernel.relocate, List.foldl_map]
  generalize K x = bs at *
  induction bs generalizing s with
  | nil => rfl
  | cons b bs ih =>
    simp only [List.flatMap_cons, List.forall_mem_append] at hloads hstores
    have hb := e.perform x s hloads.1 fun p hp => hstores.1 p.1 (List.mem_map_of_mem hp)
    rw [List.foldl_cons, List.foldl_cons, hb, ih _ hloads.2 hstores.2]

/-- **A launch at the other addresses** does there what the launch does. -/
theorem launch (e : Embeds M addr place Loaded Stored) (hin : K.Within Loaded Stored policy)
    (o : LaunchOrder policy) (s : σ) :
    KokkosStencil.launch o ((K.relocate addr).body Storage.ofFun) (place s) =
      place (KokkosStencil.launch o (K.body M) s) := by
  have hmem : ∀ x ∈ o.1, x ∈ policy := fun x hx => o.mem_iff.1 hx
  unfold KokkosStencil.launch
  generalize o.1 = xs at *
  induction xs generalizing s with
  | nil => rfl
  | cons x xs ih =>
    obtain ⟨hx, hxs⟩ := List.forall_mem_cons.1 hmem
    rw [List.foldl_cons, List.foldl_cons, e.body hin hx, ih _ hxs]

end Embeds

end Threads

end KokkosStencil
