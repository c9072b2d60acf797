import KokkosStencil.Flat.Bounds

/-!
# Colour channels of `iterative_gauss_seidel.cpp`

The body of the sweep computes three means from fifteen bytes at fifteen written-out offsets.

* `channel_sweep` : in each channel the sweep is an in-place sweep of that channel alone, along
  the pixel numbers of the window; no offset of the body leads into another channel;
* `channel_recolour` : exchanging channels of a buffer exchanges them and does nothing else;
* `channels_apart` : buffers that agree in a channel are swept alike in it, and the sweep commutes
  with every exchange of two channels, so a grey buffer stays grey.
-/

namespace KokkosStencil

variable {n : ℕ}

/-- The neighbours of a pixel number in rows of `cols` pixels. -/
def pixelCross (cols : ℕ) : Cross ℤ where
  up q := q - cols
  down q := q + cols
  left q := q - 1
  right q := q + 1

/-- The offset of channel `c` of pixel number `q`. -/
def channelOffset (c : Fin 3) (q : ℤ) : ℤ := 3 * q + (c : ℕ)

/-- The channel of an offset. -/
def channelAt (o : ℤ) : Fin 3 := ⟨(o % cn).toNat, by simp only [cn]; omega⟩

/-- Channel `c` of a buffer by pixel numbers; pixels outside the buffer are black. -/
def channel (b : Buffer (n * 3)) (c : Fin 3) : ℤ → UInt8 :=
  b.read (fun _ => 0) ∘ channelOffset c

/-- The buffer whose channel `c` is channel `σ c` of `b`. -/
def recolour (σ : Fin 3 → Fin 3) (b : Buffer (n * 3)) : Buffer (n * 3) :=
  fun o => channel b (σ (channelAt o)) (o / cn)

/-- Two buffers agree at the offsets congruent to `c` modulo `3`. -/
def SameChannel (c : Fin 3) (b b' : Buffer (n * 3)) : Prop :=
  ∀ o : {o // InBuffer (n * 3) o}, o.1 % cn = (c : ℕ) → b o = b' o

/-- All three channels are the same. -/
def IsGrey (b : Buffer (n * 3)) : Prop := ∀ c d : Fin 3, channel b c = channel b d

/-! ### A buffer is its channels -/

theorem inBuffer_channelOffset_iff {c : Fin 3} {q : ℤ} :
    InBuffer (n * 3) (channelOffset c q) ↔ 0 ≤ q ∧ q < n := by
  have hc := c.isLt
  simp only [InBuffer, channelOffset]
  push_cast
  omega

theorem channelOffset_channelAt (o : ℤ) : channelOffset (channelAt o) (o / cn) = o := by
  simp only [channelOffset, channelAt, cn]
  omega

theorem channelAt_channelOffset (c : Fin 3) (q : ℤ) : channelAt (channelOffset c q) = c := by
  have hc := c.isLt
  simp only [channelOffset, channelAt, cn, Fin.ext_iff]
  omega

theorem channelOffset_div (c : Fin 3) (q : ℤ) : channelOffset c q / cn = q := by
  have hc := c.isLt
  simp only [channelOffset, cn]
  omega

theorem channelOffset_mod (c : Fin 3) (q : ℤ) : channelOffset c q % cn = (c : ℕ) := by
  have hc := c.isLt
  simp only [channelOffset, cn]
  omega

theorem apply_eq_channel (b : Buffer (n * 3)) (o : {o // InBuffer (n * 3) o}) :
    b o = channel b (channelAt o) (o / cn) := by
  rw [channel, Function.comp_apply, channelOffset_channelAt, Region.read_of_valid o.2]

theorem ext_channel {b b' : Buffer (n * 3)} (h : ∀ c, channel b c = channel b' c) : b = b' := by
  funext o
  rw [apply_eq_channel b, apply_eq_channel b', h]

theorem sameChannel_iff {c : Fin 3} {b b' : Buffer (n * 3)} :
    SameChannel c b b' ↔ channel b c = channel b' c := by
  constructor
  · intro h
    funext q
    by_cases hq : InBuffer (n * 3) (channelOffset c q)
    · rw [channel, channel, Function.comp_apply, Function.comp_apply, Region.read_of_valid hq,
        Region.read_of_valid hq]
      exact h ⟨_, hq⟩ (channelOffset_mod c q)
    · rw [channel, channel, Function.comp_apply, Function.comp_apply, Region.read_of_invalid hq,
        Region.read_of_invalid hq]
  · intro h o ho
    have hc : channelAt o = c := Fin.ext (by simp only [channelAt, ho, Int.toNat_natCast])
    rw [apply_eq_channel b, apply_eq_channel b', hc, h]

/-- **Exchanging channels exchanges channels.** -/
theorem channel_recolour (σ : Fin 3 → Fin 3) (b : Buffer (n * 3)) (c : Fin 3) :
    channel (recolour σ b) c = channel b (σ c) := by
  funext q
  rw [channel, Function.comp_apply]
  by_cases hq : InBuffer (n * 3) (channelOffset c q)
  · rw [Region.read_of_valid hq, recolour]
    simp only [channelAt_channelOffset, channelOffset_div]
  · -- pixels outside the buffer are black in every channel
    have hσ : ¬ InBuffer (n * 3) (channelOffset (σ c) q) := fun h =>
      hq (inBuffer_channelOffset_iff.2 (inBuffer_channelOffset_iff.1 h))
    rw [Region.read_of_invalid hq, channel, Function.comp_apply, Region.read_of_invalid hσ]

/-! ### The sweep of a channel -/

namespace IterativeGaussSeidel

variable {R C : ℕ}

/-- The neighbours of a byte are bytes of the same channel. -/
theorem mean_channelOffset (m : ℤ → UInt8) (cols : ℕ) (c : Fin 3) (q : ℤ) :
    (flatCross cols).mean m (channelOffset c q) =
      (pixelCross cols).mean (m ∘ channelOffset c) q := by
  apply Cross.mean_comp <;> simp only [flatCross, pixelCross, channelOffset] <;> ring

theorem inWindow_channelOffset_iff {c : Fin 3} {q : ℤ} :
    InWindow R C (channelOffset c q) ↔ (C : ℤ) + 1 ≤ q ∧ q < (R + 1) * C + 1 := by
  have hc := c.isLt
  simp only [InWindow, channelOffset]
  omega

theorem channelOffset_lt_iff {c : Fin 3} {q q' : ℤ} :
    channelOffset c q < channelOffset c q' ↔ q < q' := by
  simp only [channelOffset]
  omega

/-- **The sweep, channel by channel**: it visits the pixels of the window in ascending order and
replaces each by the mean with the pixels `1` and `C` before and after it. -/
theorem channel_sweep (oob : ℤ → UInt8) (b : Buffer ((R + 2) * (C + 2) * 3)) (c : Fin 3) :
    channel (sweep oob b) c =
      Sweep.inPlace (pixelCross C).mean (Int.range (C + 1) ((R + 1) * C + 1)) (channel b c) := by
  rw [sweep_congr_oob oob (fun _ => 0), channel, read_sweep]
  exact Sweep.inPlace_comp (channelOffset c) Scan.lt_asymm_int pairwise_window
    (fun _ => mem_window) Scan.lt_asymm_int (Scan.pairwise_range _ _) (fun _ => Int.mem_range_iff)
    (fun _ => inWindow_channelOffset_iff) (fun _ _ => channelOffset_lt_iff)
    fun m q _ => mean_channelOffset m C c q

/-- Channels that are equal before the sweep are equal after it. -/
theorem channel_sweep_congr (oob oob' : ℤ → UInt8) {b b' : Buffer ((R + 2) * (C + 2) * 3)}
    {c d : Fin 3} (h : channel b c = channel b' d) :
    channel (sweep oob b) c = channel (sweep oob' b') d := by
  rw [channel_sweep, channel_sweep, h]

theorem sweep_recolour (oob oob' : ℤ → UInt8) (σ : Fin 3 → Fin 3)
    (b : Buffer ((R + 2) * (C + 2) * 3)) :
    sweep oob (recolour σ b) = recolour σ (sweep oob' b) := by
  refine ext_channel fun c => ?_
  rw [channel_recolour]
  exact channel_sweep_congr oob oob' (channel_recolour σ b c)

/-- **The sweep keeps the colour channels apart.**  Buffers that agree at the offsets congruent to
`c` modulo `3` agree there after the sweep; exchanging two channels before the sweep exchanges
them after it; and a grey buffer stays grey. -/
theorem channels_apart (oob oob' : ℤ → UInt8) (R C : ℕ) :
    (∀ c (b b' : Buffer ((R + 2) * (C + 2) * 3)), SameChannel c b b' →
        SameChannel c (sweep oob b) (sweep oob' b')) ∧
      (∀ c d (b : Buffer ((R + 2) * (C + 2) * 3)),
        sweep oob (recolour (Equiv.swap c d) b) = recolour (Equiv.swap c d) (sweep oob' b)) ∧
      ∀ b : Buffer ((R + 2) * (C + 2) * 3), IsGrey b → IsGrey (sweep oob b) := by
  refine ⟨fun c b b' h => ?_, fun c d b => ?_, fun b h c d => ?_⟩
  · rw [sameChannel_iff] at h ⊢
    exact channel_sweep_congr oob oob' h
  · exact sweep_recolour oob oob' _ b
  · exact channel_sweep_congr oob oob (h c d)

end IterativeGaussSeidel

end KokkosStencil
