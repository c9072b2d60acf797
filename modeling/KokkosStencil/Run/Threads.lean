import KokkosStencil.Run.Interleave
import KokkosStencil.Run.Launch

/-!
# Kernels run by threads

The bodies of a kernel are lists of blocks.  A block loads some cells, one at a time, and then
stores values that it computes from what it has loaded to some cells; every load and every store is
an atomic step of the thread, and the steps of the threads interleave in any way.

* `Instr.Independent`, `commute_step` : instructions of different threads commute when neither
  stores to a cell that the other accesses;
* `Kernel.RaceFree` : no body stores to a cell that another body loads or stores to;
* `run_eq_launch` : threads that share out the indices of a policy among them, and run race-free
  bodies, leave the memory that a launch of the bodies leaves, one body after the other;
* `launch_eq_launch` : in whatever order;
* `RunsTo.eq_launch` : so there is only one memory that the threads can leave (`RunsTo`).
-/

namespace KokkosStencil

namespace Threads

open Interleave

variable {τ κ ι β σ : Type*}

/-- A memory of cells that do not overlap.  What a load returns may depend on the body that
performs it, as it does for a load outside the memory. -/
structure Storage (σ κ ι β : Type*) where
  /-- What body `x` loads from a cell. -/
  get : κ → σ → ι → β
  /-- A store to a cell. -/
  set : σ → ι → β → σ
  get_set_of_ne : ∀ x m {a b : ι} v, a ≠ b → get x (set m a v) b = get x m b
  set_comm : ∀ m {a b : ι} v w, a ≠ b → set (set m a v) b w = set (set m b w) a v

/-- Named blocks of memory in a state. -/
structure Fields (σ ν : Type*) {ι : Type*} (P : ι → Prop) (β : Type*) where
  /-- The block of a name. -/
  field : σ → ν → Region P β
  /-- Change the block of a name. -/
  setField : σ → ν → Region P β → σ
  field_setField : ∀ s n m, field (setField s n m) n = m
  field_setField_of_ne : ∀ s {n n'} m, n ≠ n' → field (setField s n m) n' = field s n'
  setField_setField : ∀ s n m m', setField (setField s n m) n m' = setField s n m'
  setField_comm : ∀ s {n n'} m m', n ≠ n' →
    setField (setField s n m) n' m' = setField (setField s n' m') n m

/-- The cells of named blocks; `oob x` is what loads of body `x` outside a block return. -/
def Fields.storage {ν : Type*} {P : ι → Prop} [DecidablePred P] [DecidableEq ι] [DecidableEq ν]
    (F : Fields σ ν P β) (oob : κ → ι → β) : Storage σ κ (ν × ι) β where
  get x s a := (F.field s a.1).read (oob x) a.2
  set s a b := F.setField s a.1 ((F.field s a.1).write a.2 b)
  get_set_of_ne x s a b v h := by
    obtain ⟨n, i⟩ := a
    obtain ⟨n', j⟩ := b
    by_cases hn : n = n'
    · subst hn
      have hij : i ≠ j := fun e => h (by rw [e])
      simp only [F.field_setField, Region.read_write_of_ne hij]
    · simp only [F.field_setField_of_ne s _ hn]
  set_comm s a b v w h := by
    obtain ⟨n, i⟩ := a
    obtain ⟨n', j⟩ := b
    by_cases hn : n = n'
    · subst hn
      have hij : i ≠ j := fun e => h (by rw [e])
      simp only [F.field_setField, F.setField_setField, Region.write_comm hij]
    · simp only [F.field_setField_of_ne s _ hn, F.field_setField_of_ne s _ (Ne.symm hn),
        F.setField_comm s _ _ hn]

/-- The cells of one block whose contents are converted by loads and stores. -/
def Storage.ofRegion {P : ι → Prop} [DecidablePred P] [DecidableEq ι] {β' : Type*}
    (oob : κ → ι → β') (load : β' → β) (store : β → β') : Storage (Region P β') κ ι β where
  get x m a := load (m.read (oob x) a)
  set m a b := m.write a (store b)
  get_set_of_ne x m a b v h := by rw [Region.read_write_of_ne h]
  set_comm m a b v w h := Region.write_comm h _ _

/-- A memory with a cell for every address. -/
def Storage.ofFun [DecidableEq ι] : Storage (ι → β) κ ι β where
  get _ m a := m a
  set := Function.update
  get_set_of_ne _ m _ _ v h := Function.update_of_ne h.symm v m
  set_comm m _ _ v w h := Function.update_comm h v w m

/-- Two memories side by side. -/
def Storage.prod {σ' ι' : Type*} (M : Storage σ κ ι β) (M' : Storage σ' κ ι' β) :
    Storage (σ × σ') κ (ι ⊕ ι') β where
  get x m := Sum.elim (M.get x m.1) (M'.get x m.2)
  set m a b := a.elim (fun a => (M.set m.1 a b, m.2)) fun a => (m.1, M'.set m.2 a b)
  get_set_of_ne x m a b v h := by
    cases a with
    | inl a =>
      cases b with
      | inl b => exact M.get_set_of_ne x m.1 v fun e => h (congrArg Sum.inl e)
      | inr b => rfl
    | inr a =>
      cases b with
      | inl b => rfl
      | inr b => exact M'.get_set_of_ne x m.2 v fun e => h (congrArg Sum.inr e)
  set_comm m a b v w h := by
    cases a with
    | inl a =>
      cases b with
      | inl b => exact congrArg (·, m.2) (M.set_comm m.1 v w fun e => h (congrArg Sum.inl e))
      | inr b => rfl
    | inr a =>
      cases b with
      | inl b => rfl
      | inr b => exact congrArg (m.1, ·) (M'.set_comm m.2 v w fun e => h (congrArg Sum.inr e))

/-- The instructions of a body. -/
inductive Instr (ι β : Type*) where
  /-- Forget what was loaded: a new block starts. -/
  | clear
  /-- Load a cell. -/
  | load (a : ι)
  /-- Store what `value` computes from the loaded values, in the order of the loads. -/
  | store (a : ι) (value : List β → β)

/-- Neither instruction stores to a cell that the other accesses. -/
def Instr.Independent : Instr ι β → Instr ι β → Prop
  | .store a _, .store b _ => a ≠ b
  | .store a _, .load b => a ≠ b
  | .load a, .store b _ => a ≠ b
  | _, _ => True

/-- An instruction of body `x`, on the memory and the values that the body has loaded. -/
def Instr.exec (M : Storage σ κ ι β) (x : κ) : Instr ι β → σ × List β → σ × List β
  | .clear, (m, _) => (m, [])
  | .load a, (m, vs) => (m, vs ++ [M.get x m a])
  | .store a value, (m, vs) => (M.set m a (value vs), vs)

/-- An instruction of a body that thread `t` runs. -/
def step [DecidableEq τ] (M : Storage σ κ ι β) (t : τ) (a : κ × Instr ι β) (s : σ × (τ → List β)) :
    σ × (τ → List β) :=
  let r := a.2.exec M a.1 (s.1, s.2 t)
  (r.1, Function.update s.2 t r.2)

/-- **Independent instructions of different threads commute.** -/
theorem commute_step [DecidableEq τ] (M : Storage σ κ ι β) {t u : τ} (htu : t ≠ u)
    {a b : κ × Instr ι β} (h : a.2.Independent b.2) :
    Function.Commute (step M t a) (step M u b) := by
  rintro ⟨m, regs⟩
  obtain ⟨x, i⟩ := a
  obtain ⟨y, j⟩ := b
  have hut := htu.symm
  have hregs : ∀ vs ws : List β, Function.update (Function.update regs u ws) t vs =
      Function.update (Function.update regs t vs) u ws :=
    fun vs ws => Function.update_comm hut ws vs regs
  cases i <;> cases j <;>
    simp only [Instr.Independent] at h <;>
    simp only [step, Instr.exec, Function.update_of_ne htu, Function.update_of_ne hut, hregs]
  case load.store => rw [M.get_set_of_ne _ _ _ h.symm]
  case store.load => rw [M.get_set_of_ne _ _ _ h]
  case store.store => rw [M.set_comm _ _ _ h]

/-! ### Kernels -/

/-- Some loads, and then some stores of what they give. -/
structure CodeBlock (ι β : Type*) where
  /-- The cells that are loaded, in this order. -/
  loads : List ι
  /-- The cells that are stored to, in this order, each with its value of the loaded values. -/
  stores : List (ι × (List β → β))

namespace CodeBlock

/-- The instructions of a block. -/
def instrs (b : CodeBlock ι β) : List (Instr ι β) :=
  .clear :: (b.loads.map .load ++ b.stores.map fun s => .store s.1 s.2)

/-- A block of body `x` in one go. -/
def perform (M : Storage σ κ ι β) (x : κ) (m : σ) (b : CodeBlock ι β) : σ :=
  let values := b.loads.map (M.get x m)
  b.stores.foldl (fun m s => M.set m s.1 (s.2 values)) m

end CodeBlock

/-- A kernel gives for every index the blocks of its body. -/
abbrev Kernel (κ ι β : Type*) := κ → List (CodeBlock ι β)

/-- The body at an index, in one go. -/
def Kernel.body (K : Kernel κ ι β) (M : Storage σ κ ι β) (x : κ) (m : σ) : σ :=
  (K x).foldl (CodeBlock.perform M x) m

/-- The instructions of the bodies of some indices. -/
def Kernel.program (K : Kernel κ ι β) (work : List κ) : List (κ × Instr ι β) :=
  work.flatMap fun x => (K x).flatMap fun b => b.instrs.map (x, ·)

/-- The cells that the body at an index loads. -/
def Kernel.loads (K : Kernel κ ι β) (x : κ) : List ι := (K x).flatMap (·.loads)

/-- The cells that the body at an index stores to. -/
def Kernel.stores (K : Kernel κ ι β) (x : κ) : List ι := (K x).flatMap fun b => b.stores.map (·.1)

/-- No body stores to a cell that the body of another index loads or stores to. -/
def Kernel.RaceFree (K : Kernel κ ι β) (policy : List κ) : Prop :=
  ∀ x ∈ policy, ∀ y ∈ policy, x ≠ y →
    (K.stores x).Disjoint (K.stores y) ∧ (K.stores x).Disjoint (K.loads y)

theorem Kernel.mem_program {K : Kernel κ ι β} {work : List κ} {p : κ × Instr ι β}
    (h : p ∈ K.program work) : p.1 ∈ work ∧ (p.2 = .clear ∨
      (∃ a ∈ K.loads p.1, p.2 = .load a) ∨ ∃ a ∈ K.stores p.1, ∃ value, p.2 = .store a value) := by
  simp only [program, List.mem_flatMap, List.mem_map] at h
  obtain ⟨x, hx, b, hb, i, hi, rfl⟩ := h
  refine ⟨hx, ?_⟩
  simp only [CodeBlock.instrs, List.mem_cons, List.mem_append, List.mem_map] at hi
  rcases hi with rfl | ⟨a, ha, rfl⟩ | ⟨s, hs, rfl⟩
  · exact Or.inl rfl
  · exact Or.inr (Or.inl ⟨a, List.mem_flatMap.2 ⟨b, hb, ha⟩, rfl⟩)
  · exact Or.inr (Or.inr ⟨s.1, List.mem_flatMap.2 ⟨b, hb, List.mem_map_of_mem hs⟩, s.2, rfl⟩)

/-- Race-free bodies of different indices have independent instructions. -/
theorem Kernel.RaceFree.independent {K : Kernel κ ι β} {policy : List κ} (h : K.RaceFree policy)
    {work work' : List κ} (hwork : ∀ x ∈ work, x ∈ policy) (hwork' : ∀ x ∈ work', x ∈ policy)
    {p q : κ × Instr ι β} (hp : p ∈ K.program work) (hq : q ∈ K.program work') (hne : p.1 ≠ q.1) :
    p.2.Independent q.2 := by
  obtain ⟨x, i⟩ := p
  obtain ⟨y, j⟩ := q
  obtain ⟨hx, hi⟩ := mem_program hp
  obtain ⟨hy, hj⟩ := mem_program hq
  obtain ⟨hstores, hloads⟩ := h x (hwork x hx) y (hwork' y hy) hne
  obtain ⟨-, hloads'⟩ := h y (hwork' y hy) x (hwork x hx) hne.symm
  simp only at hi hj
  rcases hi with rfl | ⟨a, ha, rfl⟩ | ⟨a, ha, value, rfl⟩ <;>
    rcases hj with rfl | ⟨b, hb, rfl⟩ | ⟨b, hb, value', rfl⟩
  case inr.inl.inr.inr => exact fun e => hloads' hb (e ▸ ha)
  case inr.inr.inr.inl => exact fun e => hloads ha (e ▸ hb)
  case inr.inr.inr.inr => exact fun e => hstores ha (e ▸ hb)
  all_goals trivial

/-- **Bodies do not race** if every cell that they store to has an owner, the only body that does,
and none of them is loaded. -/
theorem raceFree_of_owner {K : Kernel κ ι β} {policy : List κ} (owner : ι → κ) (Target : ι → Prop)
    (hloads : ∀ x ∈ policy, ∀ a ∈ K.loads x, ¬ Target a)
    (hstores : ∀ x ∈ policy, ∀ a ∈ K.stores x, Target a ∧ owner a = x) : K.RaceFree policy := by
  intro x hx y hy hxy
  refine ⟨fun a ha hb => hxy ?_, fun a ha hb => hloads y hy a hb (hstores x hx a ha).1⟩
  rw [← (hstores x hx a ha).2, ← (hstores y hy a hb).2]

/-- **Bodies do not race** if they load from one block and store to others, each to cells of its
own. -/
theorem raceFree_of_cells {ν : Type*} {K : Kernel κ (ν × ι) β} {policy : List κ} (source : ν)
    (targets : List ν) (hsource : source ∉ targets) (cells : κ → List ι)
    (hloads : ∀ x, ∃ as : List ι, K.loads x = as.map (source, ·))
    (hstores : ∀ x, K.stores x = targets.flatMap fun n => (cells x).map (n, ·))
    (hcells : ∀ x ∈ policy, ∀ y ∈ policy, x ≠ y → (cells x).Disjoint (cells y)) :
    K.RaceFree policy := by
  have hstore : ∀ {x a}, a ∈ K.stores x → a.1 ∈ targets ∧ a.2 ∈ cells x := by
    intro x a ha
    rw [hstores, List.mem_flatMap] at ha
    obtain ⟨n, hn, ha⟩ := ha
    obtain ⟨i, hi, rfl⟩ := List.mem_map.1 ha
    exact ⟨hn, hi⟩
  intro x hx y hy hxy
  refine ⟨fun a ha hb => hcells x hx y hy hxy (hstore ha).2 (hstore hb).2, fun a ha hb => ?_⟩
  obtain ⟨as, has⟩ := hloads y
  rw [has] at hb
  obtain ⟨i, -, rfl⟩ := List.mem_map.1 hb
  exact hsource (hstore ha).1

section

variable (M : Storage σ κ ι β) (x : κ)

theorem foldl_load (m : σ) (vs : List β) (loads : List ι) :
    (loads.map Instr.load).foldl (fun s i => i.exec M x s) (m, vs) =
      (m, vs ++ loads.map (M.get x m)) := by
  induction loads generalizing vs with
  | nil => rw [List.map_nil, List.map_nil, List.append_nil]; rfl
  | cons a loads ih =>
    rw [List.map_cons, List.foldl_cons, Instr.exec, ih, List.map_cons, List.append_assoc]
    rfl

theorem foldl_store (m : σ) (vs : List β) (stores : List (ι × (List β → β))) :
    (stores.map fun s => Instr.store s.1 s.2).foldl (fun s i => i.exec M x s) (m, vs) =
      (stores.foldl (fun m s => M.set m s.1 (s.2 vs)) m, vs) := by
  induction stores generalizing m with
  | nil => rfl
  | cons s stores ih => rw [List.map_cons, List.foldl_cons, Instr.exec, ih, List.foldl_cons]

/-- The instructions of a block perform it. -/
theorem foldl_instrs (b : CodeBlock ι β) (m : σ) (vs : List β) :
    (b.instrs.foldl (fun s i => i.exec M x s) (m, vs)).1 = b.perform M x m := by
  rw [CodeBlock.instrs, List.foldl_cons, List.foldl_append, Instr.exec, foldl_load, List.nil_append,
    foldl_store]
  rfl

end

/-! ### Threads -/

section

variable [DecidableEq τ] {M : Storage σ κ ι β} {K : Kernel κ ι β}

theorem run_map_mk (t : τ) (x : κ) (is : List (Instr ι β)) (m : σ) (regs : τ → List β) :
    run (step M) (is.map fun i => (t, x, i)) (m, regs) =
      ((is.foldl (fun s i => i.exec M x s) (m, regs t)).1,
        Function.update regs t (is.foldl (fun s i => i.exec M x s) (m, regs t)).2) := by
  induction is generalizing m regs with
  | nil => simp [run]
  | cons i is ih =>
    rw [List.map_cons, run_cons, step, ih, List.foldl_cons, Function.update_self,
      Function.update_idem]

/-- A thread that runs alone performs block after block. -/
theorem run_blocks (t : τ) (x : κ) (bs : List (CodeBlock ι β)) (m : σ) (regs : τ → List β) :
    (run (step M) ((bs.flatMap fun b => b.instrs.map (x, ·)).map (t, ·)) (m, regs)).1 =
      bs.foldl (CodeBlock.perform M x) m := by
  induction bs generalizing m regs with
  | nil => rfl
  | cons b bs ih =>
    rcases hrun : run (step M) ((b.instrs.map (x, ·)).map (t, ·)) (m, regs) with ⟨m', regs'⟩
    have hm' : m' = b.perform M x m := by
      have h := run_map_mk (M := M) t x b.instrs m regs
      rw [List.map_map] at hrun
      rw [← foldl_instrs M x b m (regs t)]
      exact congrArg Prod.fst (hrun.symm.trans h)
    rw [List.flatMap_cons, List.map_append, run_append, hrun, ih, List.foldl_cons, hm']

/-- A thread that runs alone performs body after body. -/
theorem run_program (t : τ) (work : List κ) (m : σ) (regs : τ → List β) :
    (run (step M) ((K.program work).map (t, ·)) (m, regs)).1 =
      work.foldl (fun m x => K.body M x m) m := by
  induction work generalizing m regs with
  | nil => rfl
  | cons x work ih =>
    rcases hrun : run (step M) (((K x).flatMap fun b => b.instrs.map (x, ·)).map (t, ·))
      (m, regs) with ⟨m', regs'⟩
    have hm' : m' = K.body M x m := by
      rw [Kernel.body, ← run_blocks t x (K x) m regs, hrun]
    rw [Kernel.program, List.flatMap_cons, List.map_append, run_append, hrun, List.foldl_cons,
      ← hm']
    exact ih m' regs'

theorem run_sequential (threads : List τ) (work : τ → List κ) (m : σ) (regs : τ → List β) :
    (run (step M) (sequential threads fun t => K.program (work t)) (m, regs)).1 =
      (threads.flatMap work).foldl (fun m x => K.body M x m) m := by
  induction threads generalizing m regs with
  | nil => rfl
  | cons t threads ih =>
    have hcons : sequential (t :: threads) (fun t => K.program (work t)) =
        (K.program (work t)).map (t, ·) ++ sequential threads fun t => K.program (work t) := rfl
    rcases hrun : run (step M) ((K.program (work t)).map (t, ·)) (m, regs) with ⟨m', regs'⟩
    have hm' : m' = (work t).foldl (fun m x => K.body M x m) m := by
      rw [← run_program t (work t) m regs, hrun]
    rw [hcons, run_append, hrun, ih, List.flatMap_cons, List.foldl_append, hm']

variable {policy : List κ} {threads : List τ} {work : τ → List κ}

omit [DecidableEq τ] in
/-- No index is given to two threads. -/
theorem ne_of_mem_work (hnodup : policy.Nodup) (hperm : (threads.flatMap work).Perm policy)
    {t u : τ} (ht : t ∈ threads) (hu : u ∈ threads) (htu : t ≠ u) {x y : κ} (hx : x ∈ work t)
    (hy : y ∈ work u) : x ≠ y := by
  rintro rfl
  have hflat := (List.nodup_flatMap.1 (hperm.nodup_iff.2 hnodup)).2
  have : Std.Symm (Function.onFun List.Disjoint work) := ⟨fun _ _ h _ hy hx => h hx hy⟩
  exact List.disjoint_left.1 (hflat.forall ht hu htu) hx hy

/-- **Threads that run race-free bodies leave what a launch leaves**, in whatever way their loads
and stores interleave. -/
theorem run_eq_launch (hrace : K.RaceFree policy) (hnodup : policy.Nodup)
    (hthreads : threads.Nodup) (hperm : (threads.flatMap work).Perm policy)
    {trace : List (τ × κ × Instr ι β)}
    (h : Interleaves threads (fun t => K.program (work t)) trace) (m : σ) (regs : τ → List β) :
    (run (step M) trace (m, regs)).1 = launch ⟨_, hperm⟩ (K.body M) m := by
  have hmem : ∀ t ∈ threads, ∀ x ∈ work t, x ∈ policy := fun t ht x hx =>
    hperm.mem_iff.1 (List.mem_flatMap.2 ⟨t, ht, hx⟩)
  have hcomm : ∀ t ∈ threads, ∀ u ∈ threads, t ≠ u → ∀ p ∈ K.program (work t),
      ∀ q ∈ K.program (work u), Function.Commute (step M t p) (step M u q) := by
    intro t ht u hu htu p hp q hq
    have hxy := ne_of_mem_work hnodup hperm ht hu htu (Kernel.mem_program hp).1
      (Kernel.mem_program hq).1
    exact commute_step M htu (hrace.independent (hmem t ht) (hmem u hu) hp hq hxy)
  rw [h.run_eq hthreads hcomm]
  exact run_sequential threads work m regs

omit [DecidableEq τ] in
/-- **Race-free bodies may run in any order**: each body could have a thread to itself. -/
theorem launch_eq_launch (hrace : K.RaceFree policy) (hnodup : policy.Nodup)
    (o o' : LaunchOrder policy) (m : σ) : launch o (K.body M) m = launch o' (K.body M) m := by
  classical
  have hall : ∀ o : LaunchOrder policy, launch o (K.body M) m =
      launch (LaunchOrder.inOrder policy) (K.body M) m := by
    intro o
    have hflat : ∀ xs : List κ, (xs.flatMap fun x => [x]) = xs := List.flatMap_singleton'
    have htrace : Interleaves policy (fun x => K.program [x])
        (sequential o.1 fun x => K.program [x]) := by
      intro x
      rw [own_sequential (o.2.nodup_iff.2 hnodup)]
      simp only [o.mem_iff]
    have hrun := run_eq_launch (M := M) hrace hnodup hnodup (List.Perm.of_eq (hflat policy)) htrace
      m (fun _ => [])
    rw [run_sequential, hflat] at hrun
    refine hrun.trans ?_
    show (policy.flatMap fun x => [x]).foldl (fun m x => K.body M x m) m =
      policy.foldl (fun m x => K.body M x m) m
    rw [hflat]
  rw [hall o, hall o']

/-- Threads that run the bodies of the indices `work` may turn the memory `m` into `m'`. -/
def RunsTo (M : Storage σ κ ι β) (K : Kernel κ ι β) (threads : List τ) (work : τ → List κ)
    (m m' : σ) : Prop :=
  ∃ trace regs, Interleaves threads (fun t => K.program (work t)) trace ∧
    (run (step M) trace (m, regs)).1 = m'

/-- Some interleaving exists. -/
theorem exists_runsTo (hthreads : threads.Nodup) (work : τ → List κ) (m : σ) :
    ∃ m', RunsTo M K threads work m m' :=
  ⟨_, sequential threads fun t => K.program (work t), fun _ => [], own_sequential hthreads _, rfl⟩

/-- Without threads nothing happens. -/
theorem RunsTo.eq_of_nil {work : τ → List κ} {m m' : σ} (h : RunsTo M K [] work m m') :
    m' = m := by
  obtain ⟨trace, regs, htrace, rfl⟩ := h
  have hnil : trace = [] := by
    refine List.eq_nil_iff_forall_not_mem.2 fun p hp => ?_
    have hown := mem_own.2 hp
    rw [htrace p.1] at hown
    exact List.not_mem_nil hown
  rw [hnil]
  rfl

/-- **Threads that share out a policy of race-free bodies** leave what a launch leaves, in any
order. -/
theorem RunsTo.eq_launch (hrace : K.RaceFree policy) (hnodup : policy.Nodup)
    (hthreads : threads.Nodup) (hperm : (threads.flatMap work).Perm policy) {m m' : σ}
    (h : RunsTo M K threads work m m') (o : LaunchOrder policy) : m' = launch o (K.body M) m := by
  obtain ⟨trace, regs, htrace, rfl⟩ := h
  have hrun := run_eq_launch (M := M) hrace hnodup hthreads hperm htrace m regs
  exact hrun.trans (launch_eq_launch hrace hnodup _ o m)

end

end Threads

end KokkosStencil
