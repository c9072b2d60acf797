import KokkosStencil.Noise.Basic

/-!
# Padding and noise before the filter

Four programs pad the picture and then disturb it (`padThenNoise`), two disturb it and then pad it
(`noiseThenPad`).  All of them filter the picture at `front` and save the one at `back`.

* `filteredIsSaved_iff` : the filtered picture is the saved one, with all rounds of noise, exactly
  when the last round does not show at any byte;
* `preparations_agree_iff` : both orders hand the filter the same picture, with black padding,
  exactly when the noise drains every byte of the padding before the last round.
-/

namespace KokkosStencil

variable {R C rows cols : ℕ}

/-- What the preparation leaves. -/
structure Prepared (R C rows cols : ℕ) where
  /-- `image_pad`, whose bytes the filter reads through `pixelPtr`. -/
  imagePad : Image (R + 2) (C + 2)
  /-- The picture that is saved as the noisy one. -/
  mColorNoise : Image rows cols

/-- The pictures that are written to files. -/
structure Saved (R C rows cols : ℕ) where
  /-- The filtered picture, without its padding. -/
  imageNoPad : Image R C
  /-- The picture with noise. -/
  mColorNoise : Image rows cols

/-- `iterative_jacobi`, `iterative_gauss_seidel`, `cpu_parallel_jacobi` and `parallel_jacobi`:
the noise loop works on the padded picture. -/
def padThenNoise (noiseIter : ℕ) (noise : ℕ → NoiseField (R + 2) (C + 2))
    (fresh : Image (R + 2) (C + 2)) (img : Image R C) : Prepared R C (R + 2) (C + 2) :=
  let s := noiseLoop noiseIter noise (Mats.start (copyMakeBorder img) fresh)
  ⟨s.heap s.front, s.heap s.back⟩

/-- `parallel_gauss_seidel` and `parallel_wave_gauss_seidel`: the noise loop works on the picture,
and what it leaves at `img.data` is padded. -/
def noiseThenPad (noiseIter : ℕ) (noise : ℕ → NoiseField R C) (fresh img : Image R C) :
    Prepared R C R C :=
  let s := noiseLoop noiseIter noise (Mats.start img fresh)
  ⟨copyMakeBorder (s.heap s.front), s.heap s.back⟩

theorem padThenNoise_eq (n : ℕ) (noise : ℕ → NoiseField (R + 2) (C + 2))
    (fresh : Image (R + 2) (C + 2)) (img : Image R C) : padThenNoise (n + 1) noise fresh img =
      ⟨rounds noise (copyMakeBorder img) n, rounds noise (copyMakeBorder img) (n + 1)⟩ := by
  obtain ⟨hfront, hback⟩ := noiseLoop_succ noise n (copyMakeBorder img) fresh
  rw [padThenNoise, hfront, hback]

theorem noiseThenPad_eq (n : ℕ) (noise : ℕ → NoiseField R C) (fresh img : Image R C) :
    noiseThenPad (n + 1) noise fresh img =
      ⟨copyMakeBorder (rounds noise img n), rounds noise img (n + 1)⟩ := by
  obtain ⟨hfront, hback⟩ := noiseLoop_succ noise n img fresh
  rw [noiseThenPad, hfront, hback]

/-! ### The filtered and the saved picture -/

/-- The filter reads the picture with all rounds of noise, and it is the one that is saved; `pad`
is what is done to the saved picture on the way to the filter. -/
def FilteredIsSaved (pad : Image rows cols → Image (R + 2) (C + 2)) (p : Prepared R C rows cols)
    (allRounds : Image rows cols) : Prop :=
  p.imagePad = pad allRounds ∧ p.imagePad = pad p.mColorNoise

/-- At every byte the last of `n + 1` rounds adds nothing, or pushes into the end of the range that
the rounds before it have brought the byte to. -/
def LastRoundHidden (n : ℕ) (noise : ℕ → NoiseField rows cols) (img : Image rows cols) : Prop :=
  ∀ x : {x : Ix // InExtents rows cols x}, pushes noise x n = 0 ∨
    (0 ≤ pushes noise x n ∧ ClampedWalk.Filled 255 (img x).toNat (pushes noise x) n) ∨
    (pushes noise x n ≤ 0 ∧ ClampedWalk.Drained 255 (img x).toNat (pushes noise x) n)

theorem toNat_mem (b : UInt8) : (0 : ℤ) ≤ b.toNat ∧ (b.toNat : ℤ) ≤ 255 := by
  have := b.toNat_lt
  omega

theorem rounds_succ_eq_iff (n : ℕ) (noise : ℕ → NoiseField rows cols) (img : Image rows cols) :
    rounds noise img n = rounds noise img (n + 1) ↔ LastRoundHidden n noise img := by
  have hbyte : ∀ x, rounds noise img n x = rounds noise img (n + 1) x ↔
      ClampedWalk.walk 255 (img x).toNat (pushes noise x) (n + 1) =
        ClampedWalk.walk 255 (img x).toNat (pushes noise x) n := by
    intro x
    rw [← UInt8.toNat_inj, ← toNat_rounds, ← toNat_rounds]
    omega
  rw [funext_iff]
  refine forall_congr' fun x => ?_
  rw [hbyte, ClampedWalk.walk_succ_eq_self_iff (by decide) (toNat_mem _)]

theorem copyMakeBorder_inj {v w : Image R C} : copyMakeBorder v = copyMakeBorder w ↔ v = w := by
  constructor
  · intro h
    rw [← crop_copyMakeBorder v, h, crop_copyMakeBorder]
  · rintro rfl
    rfl

/-- **When the filtered picture is the saved one**, in either order of padding and noise, for
`NOISE_ITER = n + 1`. -/
theorem filteredIsSaved_iff (n : ℕ) (noise : ℕ → NoiseField (R + 2) (C + 2))
    (noise' : ℕ → NoiseField R C) (fresh : Image (R + 2) (C + 2)) (fresh' img : Image R C) :
    (FilteredIsSaved id (padThenNoise (n + 1) noise fresh img)
        (rounds noise (copyMakeBorder img) (n + 1)) ↔
      LastRoundHidden n noise (copyMakeBorder img)) ∧
    (FilteredIsSaved copyMakeBorder (noiseThenPad (n + 1) noise' fresh' img)
        (rounds noise' img (n + 1)) ↔
      LastRoundHidden n noise' img) := by
  rw [FilteredIsSaved, FilteredIsSaved, padThenNoise_eq, noiseThenPad_eq]
  simp only [id_eq, copyMakeBorder_inj, and_self, rounds_succ_eq_iff]

/-- Every byte is pushed up by one in every round. -/
def ones (rows cols : ℕ) : ℕ → NoiseField rows cols := fun _ _ => 1

/-- The black picture. -/
def black (rows cols : ℕ) : Image rows cols := fun _ => 0

/-- Under these pushes a black byte is at level `t` after `t` rounds, as long as there is room. -/
theorem toNat_rounds_ones {img : Image rows cols} {x : {x : Ix // InExtents rows cols x}}
    (hx : img x = 0) {t : ℕ} (ht : t ≤ 255) : (rounds (ones rows cols) img t x).toNat = t := by
  have hwalk : ClampedWalk.walk 255 0 (pushes (ones rows cols) x) t = t := by
    induction t with
    | zero => rfl
    | succ t ih =>
      have hone : pushes (ones rows cols) x t = 1 := rfl
      rw [ClampedWalk.walk, ih (by omega), hone, ClampedWalk.clamp]
      omega
  have hlevel := toNat_rounds (ones rows cols) img x t
  rw [hx] at hlevel
  exact_mod_cast hlevel.trans hwalk

theorem rounds_ones_ne {img : Image rows cols} {x : {x : Ix // InExtents rows cols x}}
    (hx : img x = 0) : rounds (ones rows cols) img 14 ≠ rounds (ones rows cols) img 15 := by
  intro h
  have h₁₄ := toNat_rounds_ones hx (t := 14) (by decide)
  have h₁₅ := toNat_rounds_ones hx (t := 15) (by decide)
  rw [h, h₁₅] at h₁₄
  omega

/-- With the `15` rounds of the source, the black `1 × 1` picture is filtered at level `14` and
saved at level `15`, in either order. -/
theorem not_filteredIsSaved :
    ¬ FilteredIsSaved id (padThenNoise 15 (ones 3 3) (black 3 3) (black 1 1))
        (rounds (ones 3 3) (copyMakeBorder (black 1 1)) 15) ∧
    ¬ FilteredIsSaved copyMakeBorder (noiseThenPad 15 (ones 1 1) (black 1 1) (black 1 1))
        (rounds (ones 1 1) (black 1 1) 15) := by
  have hcorner : InExtents 3 3 (0, 0, 0) := by decide
  have hpixel : InExtents 1 1 (0, 0, 0) := by decide
  have hborder : Grid.Border 1 1 (0, 0) := by decide
  constructor
  · rintro ⟨hall, -⟩
    rw [padThenNoise_eq 14] at hall
    have hzero : copyMakeBorder (black 1 1) ⟨(0, 0, 0), hcorner⟩ = 0 :=
      copyMakeBorder_of_border (black 1 1) hborder
    exact rounds_ones_ne hzero hall
  · rintro ⟨hall, -⟩
    rw [noiseThenPad_eq 14] at hall
    have hzero : black 1 1 ⟨(0, 0, 0), hpixel⟩ = 0 := rfl
    exact rounds_ones_ne hzero (copyMakeBorder_inj.1 hall)

/-! ### The two preparations -/

/-- The part of a field that falls on the picture inside the padding. -/
def interiorField (noise : NoiseField (R + 2) (C + 2)) : NoiseField R C :=
  fun x => noise.read (fun _ => 0) (x.1.1 + 1, x.1.2.1 + 1, x.1.2.2)

/-- Cropping commutes with a round of noise. -/
theorem crop_addNoise (noise : NoiseField (R + 2) (C + 2)) (v : Image (R + 2) (C + 2)) :
    crop (addNoise noise v) = addNoise (interiorField noise) (crop v) := by
  funext ⟨⟨i, j, k⟩, hx⟩
  have hin : InExtents (R + 2) (C + 2) (i + 1, j + 1, k) := by
    simp only [InExtents, cn] at hx ⊢
    omega
  simp only [crop, addNoise, interiorField]
  rw [Region.read_of_valid hin, Region.read_of_valid hin, Region.read_of_valid hin]
  rfl

theorem crop_rounds (noise : ℕ → NoiseField (R + 2) (C + 2)) (img : Image R C) (t : ℕ) :
    crop (rounds noise (copyMakeBorder img) t) =
      rounds (fun s => interiorField (noise s)) img t := by
  induction t with
  | zero => exact crop_copyMakeBorder img
  | succ t ih =>
    show crop (addNoise (noise t) (rounds noise (copyMakeBorder img) t)) = _
    rw [crop_addNoise, ih]
    rfl

/-- Under the noise, a byte of the padding walks from the lower wall. -/
theorem toNat_rounds_border (noise : ℕ → NoiseField (R + 2) (C + 2)) (img : Image R C) (t : ℕ)
    {x : {x // InExtents (R + 2) (C + 2) x}} (hb : Grid.Border R C (x.1.1, x.1.2.1)) :
    ((rounds noise (copyMakeBorder img) t x).toNat : ℤ) =
      ClampedWalk.walk 255 0 (pushes noise x) t := by
  rw [toNat_rounds, copyMakeBorder_of_border img hb]
  rfl

/-- Both orders hand the filter the same picture, and its padding is black. -/
def PreparationsAgree (p : Prepared R C (R + 2) (C + 2)) (q : Prepared R C R C) : Prop :=
  p.imagePad = q.imagePad ∧
    ∀ x : {x // InExtents (R + 2) (C + 2) x}, Grid.Border R C (x.1.1, x.1.2.1) → p.imagePad x = 0

/-- **When the order of padding and noise does not show**, for `NOISE_ITER = n + 1`: iff the first
`n` rounds drain every byte of the padding. -/
theorem preparations_agree_iff (n : ℕ) (noise : ℕ → NoiseField (R + 2) (C + 2))
    (fresh : Image (R + 2) (C + 2)) (fresh' img : Image R C) :
    PreparationsAgree (padThenNoise (n + 1) noise fresh img)
        (noiseThenPad (n + 1) (fun s => interiorField (noise s)) fresh' img) ↔
      ∀ x : {x // InExtents (R + 2) (C + 2) x}, Grid.Border R C (x.1.1, x.1.2.1) →
        ClampedWalk.Drained 255 0 (pushes noise x) n := by
  have hwalk : ∀ x : {x // InExtents (R + 2) (C + 2) x}, Grid.Border R C (x.1.1, x.1.2.1) →
      (rounds noise (copyMakeBorder img) n x = 0 ↔
        ClampedWalk.Drained 255 0 (pushes noise x) n) := by
    intro x hb
    have hzero : (0 : UInt8).toNat = 0 := rfl
    rw [← ClampedWalk.walk_eq_zero_iff (by decide) (by decide),
      ← toNat_rounds_border noise img n hb, ← UInt8.toNat_inj, hzero]
    omega
  rw [PreparationsAgree, padThenNoise_eq, noiseThenPad_eq]
  dsimp only
  -- inside the padding the orders agree, so the pictures agree iff the padding is black
  rw [← crop_rounds, eq_copyMakeBorder_crop_iff, and_self]
  exact forall₂_congr hwalk

/-- With the `15` rounds of the source, the noise that pushes every byte up by one leaves the
padding of the black `1 × 1` picture at level `14`. -/
theorem not_preparationsAgree :
    ¬ PreparationsAgree (padThenNoise 15 (ones 3 3) (black 3 3) (black 1 1))
      (noiseThenPad 15 (fun s => interiorField (R := 1) (C := 1) (ones 3 3 s)) (black 1 1)
        (black 1 1)) := by
  rintro ⟨-, hborder⟩
  have hcorner : InExtents 3 3 (0, 0, 0) := by decide
  have hb : Grid.Border 1 1 (0, 0) := by decide
  have hlevel := toNat_rounds_ones (x := ⟨(0, 0, 0), hcorner⟩)
    (copyMakeBorder_of_border (black 1 1) hb) (t := 14) (by decide)
  have hzero := hborder ⟨(0, 0, 0), hcorner⟩ hb
  rw [padThenNoise_eq 14] at hzero
  dsimp only at hzero
  rw [hzero] at hlevel
  exact absurd hlevel (by decide)

end KokkosStencil
