import KokkosStencil.Memory.Sweep

/-!
# Bounded memories

`Region P β` is a block of memory whose valid addresses are those satisfying `P`; a value of the
type has no contents at any other address.  Unchecked accesses are modelled as they behave:

* `Region.read m oob x` gives the contents at a valid address and `oob x` at any other one, so
  that a statement for every `oob` holds whatever stray reads return;
* `Region.write m x b` changes a valid address; writes elsewhere leave the block alone.

`Region.scatter` performs a list of writes whose values do not depend on the block, and
`Region.inPlace` a list of visits that read the block they change.  Their results are described
through `read`, the second as the sweep `Sweep.inPlace` of the whole address space.
-/

namespace KokkosStencil

/-- A block of memory with one `β` at every address satisfying `P`. -/
abbrev Region {ι : Type*} (P : ι → Prop) (β : Type*) := {x : ι // P x} → β

namespace Region

variable {ι β : Type*} {P : ι → Prop} [DecidablePred P]

/-- Read address `x`; outside the block the answer is `oob x`. -/
def read (m : Region P β) (oob : ι → β) (x : ι) : β := if h : P x then m ⟨x, h⟩ else oob x

variable {m m' : Region P β} {oob : ι → β}

@[simp] theorem read_of_valid {x : ι} (h : P x) : m.read oob x = m ⟨x, h⟩ := dif_pos h

@[simp] theorem read_of_invalid {x : ι} (h : ¬ P x) : m.read oob x = oob x := dif_neg h

/-- What a read at a valid address returns does not depend on what stray reads return. -/
theorem read_congr_oob {x : ι} (h : P x) (oob' : ι → β) : m.read oob x = m.read oob' x := by
  rw [read_of_valid h, read_of_valid h]

/-- Blocks are equal when their valid addresses read the same. -/
theorem ext_read (oob : ι → β) (h : ∀ x, P x → m.read oob x = m'.read oob x) : m = m' := by
  funext ⟨x, hx⟩
  simpa [hx] using h x hx

theorem read_inj (oob : ι → β) : m.read oob = m'.read oob ↔ m = m' :=
  ⟨fun h => ext_read oob fun x _ => congrFun h x, fun h => h ▸ rfl⟩

variable [DecidableEq ι]

/-- Write `b` at address `x`; outside the block nothing happens to it. -/
def write (m : Region P β) (x : ι) (b : β) : Region P β :=
  if h : P x then Function.update m ⟨x, h⟩ b else m

theorem read_write {x : ι} (h : P x) (b : β) :
    (m.write x b).read oob = Function.update (m.read oob) x b := by
  funext y
  by_cases hy : P y
  · by_cases hyx : y = x
    · subst hyx; simp [write, h]
    · simp [write, h, hy, hyx]
  · have hyx : y ≠ x := fun e => hy (e ▸ h)
    simp [hy, hyx]

/-- A write is not seen at other addresses, and not at all if it is outside the block. -/
theorem read_write_of_ne {x y : ι} (h : x ≠ y) (b : β) :
    (m.write x b).read oob y = m.read oob y := by
  by_cases hx : P x
  · rw [read_write hx, Function.update_of_ne h.symm]
  · rw [write, dif_neg hx]

/-- Writes at different addresses commute. -/
theorem write_comm {x y : ι} (h : x ≠ y) (b c : β) :
    (m.write x b).write y c = (m.write y c).write x b := by
  by_cases hx : P x
  · by_cases hy : P y
    · refine ext_read (fun _ => b) fun z _ => ?_
      rw [read_write hy, read_write hx, read_write hx, read_write hy,
        Function.update_comm h.symm]
    · simp only [write, dif_neg hy]
  · simp only [write, dif_neg hx]

/-! ### Writes that do not read the block -/

/-- Write `v x` at every address `x` of `xs`, in order. -/
def scatter (v : ι → β) (xs : List ι) (m : Region P β) : Region P β :=
  xs.foldl (fun m x => m.write x (v x)) m

theorem read_scatter {v : ι → β} {xs : List ι} (h : ∀ x ∈ xs, P x) (y : ι) :
    (scatter v xs m).read oob y = if y ∈ xs then v y else m.read oob y := by
  induction xs generalizing m with
  | nil => rfl
  | cons x xs ih =>
    show (scatter v xs (m.write x (v x))).read oob y = _
    rw [ih fun z hz => h z (List.mem_cons_of_mem _ hz), read_write (h x List.mem_cons_self)]
    by_cases hyx : y = x
    · subst hyx; simp
    · simp [hyx]

theorem read_scatter_of_mem {v : ι → β} {xs : List ι} (h : ∀ x ∈ xs, P x) {y : ι}
    (hy : y ∈ xs) : (scatter v xs m).read oob y = v y := by
  rw [read_scatter h, if_pos hy]

/-- Only the values at the addresses of the list matter. -/
theorem scatter_congr_values {v v' : ι → β} {xs : List ι} (hv : ∀ x ∈ xs, v x = v' x) :
    scatter v xs m = scatter v' xs m :=
  List.foldl_ext _ _ _ fun m x hx => by rw [hv x hx]

/-- Only the set of written addresses and the values written there matter. -/
theorem scatter_congr {v v' : ι → β} {xs ys : List ι} (h : ∀ x ∈ xs, P x)
    (hxy : ∀ x, x ∈ xs ↔ x ∈ ys) (hv : ∀ x ∈ xs, v x = v' x) :
    scatter v xs m = scatter v' ys m := by
  refine ext_read v fun y _ => ?_
  rw [read_scatter h, read_scatter fun x hx => h x ((hxy x).2 hx)]
  by_cases hy : y ∈ xs
  · rw [if_pos hy, if_pos ((hxy y).1 hy), hv y hy]
  · rw [if_neg hy, if_neg fun hy' => hy ((hxy y).2 hy')]

theorem scatter_append {v : ι → β} {xs ys : List ι} :
    scatter v (xs ++ ys) m = scatter v ys (scatter v xs m) := List.foldl_append

/-- A loop each of whose rounds performs some writes performs them all. -/
theorem foldl_scatter {κ : Type*} {v : ι → β} (cells : κ → List ι) (ks : List κ) :
    ks.foldl (fun m k => scatter v (cells k) m) m = scatter v (ks.flatMap cells) m := by
  induction ks generalizing m with
  | nil => rfl
  | cons k ks ih => rw [List.foldl_cons, ih, List.flatMap_cons, scatter_append]

/-! ### Loops whose rounds only read what they write -/

section Own

variable {κ : Type*} {v : κ → (ι → β) → ι → β} {cells : κ → List ι}

/-- A loop leaves alone what none of its rounds writes. -/
theorem read_foldl_of_notMem {xs : List κ} (h : ∀ x ∈ xs, ∀ z ∈ cells x, P z) {z : ι}
    (hz : ∀ x ∈ xs, z ∉ cells x) :
    (xs.foldl (fun m x => scatter (v x (m.read oob)) (cells x) m) m).read oob z =
      m.read oob z := by
  induction xs generalizing m with
  | nil => rfl
  | cons x xs ih =>
    obtain ⟨hx, hxs⟩ := List.forall_mem_cons.1 h
    obtain ⟨hzx, hzxs⟩ := List.forall_mem_cons.1 hz
    rw [List.foldl_cons, ih hxs hzxs, read_scatter hx, if_neg hzx]

/-- **Every round sees the block as it was before the loop**, when the rounds write addresses of
their own and read no others. -/
theorem read_foldl_own {xs : List κ} (h : ∀ x ∈ xs, ∀ z ∈ cells x, P z)
    (hcells : xs.Pairwise fun x y => (cells x).Disjoint (cells y))
    (hv : ∀ x ∈ xs, ∀ g g' : ι → β, (∀ z ∈ cells x, g z = g' z) → ∀ z ∈ cells x, v x g z = v x g' z)
    {x : κ} (hx : x ∈ xs) {z : ι} (hz : z ∈ cells x) :
    (xs.foldl (fun m x => scatter (v x (m.read oob)) (cells x) m) m).read oob z =
      v x (m.read oob) z := by
  induction xs generalizing m with
  | nil => cases hx
  | cons y ys ih =>
    obtain ⟨hy, hys⟩ := List.forall_mem_cons.1 h
    obtain ⟨hfirst, hcells⟩ := List.pairwise_cons.1 hcells
    obtain ⟨hvy, hvys⟩ := List.forall_mem_cons.1 hv
    rw [List.foldl_cons]
    rcases List.mem_cons.1 hx with rfl | hx
    · -- the later rounds do not write the addresses of the first one
      rw [read_foldl_of_notMem hys fun w hw => hfirst w hw hz, read_scatter_of_mem hy hz]
    · rw [ih hys hcells hvys hx]
      refine hvys x hx _ _ (fun w hw => ?_) z hz
      rw [read_scatter hy, if_neg fun hwy => hfirst x hx hwy hw]

end Own

/-! ### Visits that read the block they change -/

/-- Visit the addresses `xs` in order; each visit reads the block as it is then. -/
def inPlace (f : (ι → β) → ι → β) (oob : ι → β) (xs : List ι) (m : Region P β) : Region P β :=
  xs.foldl (fun m x => m.write x (f (m.read oob) x)) m

/-- **An in-place loop over valid addresses is the sweep of the address space.** -/
theorem read_inPlace {f : (ι → β) → ι → β} {xs : List ι} (h : ∀ x ∈ xs, P x) :
    (inPlace f oob xs m).read oob = Sweep.inPlace f xs (m.read oob) := by
  induction xs generalizing m with
  | nil => rfl
  | cons x xs ih =>
    show (inPlace f oob xs (m.write x (f (m.read oob) x))).read oob = _
    rw [ih fun z hz => h z (List.mem_cons_of_mem _ hz), read_write (h x List.mem_cons_self)]
    rfl

theorem inPlace_append {f : (ι → β) → ι → β} {xs ys : List ι} :
    inPlace f oob (xs ++ ys) m = inPlace f oob ys (inPlace f oob xs m) := List.foldl_append

theorem foldl_inPlace {κ : Type*} {f : (ι → β) → ι → β} (cells : κ → List ι) (ks : List κ) :
    ks.foldl (fun m k => inPlace f oob (cells k) m) m = inPlace f oob (ks.flatMap cells) m := by
  induction ks generalizing m with
  | nil => rfl
  | cons k ks ih => rw [List.foldl_cons, ih, List.flatMap_cons, inPlace_append]

/-- Visits that do not read each other's addresses are writes of values computed beforehand. -/
theorem scatter_eq_inPlace {f : (ι → β) → ι → β} {xs : List ι} (h : ∀ x ∈ xs, P x)
    (hf : xs.Pairwise fun y x => ∀ g b, f (Function.update g y b) x = f g x) :
    scatter (f (m.read oob)) xs m = inPlace f oob xs m := by
  induction xs generalizing m with
  | nil => rfl
  | cons x xs ih =>
    obtain ⟨hx, hf⟩ := List.pairwise_cons.1 hf
    have hxs : ∀ z ∈ xs, P z := fun z hz => h z (List.mem_cons_of_mem _ hz)
    -- the first visit does not show in the values of the later ones
    show scatter _ xs (m.write x (f (m.read oob) x)) =
      inPlace f oob xs (m.write x (f (m.read oob) x))
    rw [← ih hxs hf]
    refine scatter_congr hxs (fun _ => Iff.rfl) fun z hz => ?_
    rw [read_write (h x List.mem_cons_self), hx z hz]

end Region

end KokkosStencil
