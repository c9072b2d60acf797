import KokkosStencil.Flat.Bounds
import KokkosStencil.Flat.Grey
import KokkosStencil.Flat.HostRun
import KokkosStencil.Mean.Settling
import KokkosStencil.Noise.Pipelines

/-!
# The whole of the flat programs

From the picture that is read to the pictures that are written, for the programs that address the
padded picture with the row length of the picture without padding.  Their loops end before the end
of the buffer, so the last pixels of the pictures they save have noise on them and are not filtered.

* `IterativeJacobi.main_settles` : from some number of iterations on, further ones change nothing,
  and every byte that the loop visits is its own mean;
* `IterativeJacobi.main_unfiltered` : the pixels that no iteration reaches;
* `IterativeGaussSeidel.gaussSeidelMain_spec` : the same for the other program, which does not read
  the bytes around its buffer either;
* `CpuParallelJacobi.cpuMain_iff` : what all runs of the threads of the host save.
-/

namespace KokkosStencil

variable {R C : ℕ}

/-! ### The flat geometry -/

theorem mutual_flatCross (cols : ℕ) : (flatCross cols).Mutual where
  right_eq_iff x y := by simp only [flatCross]; omega
  down_eq_iff x y := by simp only [flatCross]; omega

/-- Two buffers that hold the same byte. -/
theorem ofData_eq_ofData {rows cols : ℕ} {b b' : Buffer (rows * cols * 3)}
    {x : {x : Ix // InExtents rows cols x}} (oob : ℤ → UInt8)
    (h : b.read oob (pix cols x.1) = b'.read oob (pix cols x.1)) :
    Image.ofData b x = Image.ofData b' x := by
  have hx := inBuffer_pix x.2
  rwa [Region.read_of_valid hx, Region.read_of_valid hx] at h

/-- The number of a pixel of the picture in the padded picture. -/
def paddedPosition (C : ℕ) (x : Ix) : ℤ := position (C + 2) (x.1 + 1, x.2.1 + 1)

/-- Where the crop finds a byte. -/
theorem crop_eq_crop {b b' : Buffer ((R + 2) * (C + 2) * 3)} {x : {x : Ix // InExtents R C x}}
    (oob : ℤ → UInt8) (h : b.read oob (3 * paddedPosition C x.1 + x.1.2.2) =
      b'.read oob (3 * paddedPosition C x.1 + x.1.2.2)) :
    crop (Image.ofData b) x = crop (Image.ofData b') x := by
  have hx : InExtents (R + 2) (C + 2) (x.1.1 + 1, x.1.2.1 + 1, x.1.2.2) := by
    obtain ⟨hi, hj, hk⟩ := x.2
    refine ⟨?_, ?_, hk⟩ <;> push_cast <;> omega
  have hpix : pix (C + 2) (x.1.1 + 1, x.1.2.1 + 1, x.1.2.2) =
      3 * paddedPosition C x.1 + x.1.2.2 := by
    rw [pix_eq]
    rfl
  have hbyte : Image.ofData b ⟨_, hx⟩ = Image.ofData b' ⟨_, hx⟩ :=
    ofData_eq_ofData oob (by rw [hpix, h])
  have hplane : ∀ v : Image (R + 2) (C + 2), crop v x = v ⟨_, hx⟩ := by
    intro v
    exact Region.read_of_valid hx
  rw [hplane, hplane, hbyte]

/-! ### `iterative_jacobi.cpp` -/

namespace IterativeJacobi

/-- `main`, from the picture that was read to the pictures that are written, unless the picture is
empty.  `fresh` are the bytes of the newly allocated `mColorNoise`, and `oob` those around the
buffer. -/
def main (noiseIter iterations : ℕ) (oob : ℤ → UInt8) (noise : ℕ → NoiseField (R + 2) (C + 2))
    (fresh : Image (R + 2) (C + 2)) (img : Image R C) : Option (Saved R C (R + 2) (C + 2)) :=
  if R = 0 ∨ C = 0 then none
  else
    let p := padThenNoise noiseIter noise fresh img
    let pixelPtr := (sweep oob)^[iterations] p.imagePad.data
    some ⟨crop (Image.ofData pixelPtr), p.mColorNoise⟩

theorem main_eq (n t : ℕ) (oob : ℤ → UInt8) (noise : ℕ → NoiseField (R + 2) (C + 2))
    (fresh : Image (R + 2) (C + 2)) (img : Image R C) : main (n + 1) t oob noise fresh img =
      if R = 0 ∨ C = 0 then none
      else some ⟨crop (Image.ofData ((sweep oob)^[t] (rounds noise (copyMakeBorder img) n).data)),
        rounds noise (copyMakeBorder img) (n + 1)⟩ := by
  rw [main, padThenNoise_eq]

/-- The iterations are in-place sweeps of the memory around the buffer. -/
theorem read_iterate_sweep (oob : ℤ → UInt8) (t : ℕ) (b : Buffer ((R + 2) * (C + 2) * 3)) :
    ((sweep oob)^[t] b).read oob =
      (Sweep.inPlace (flatCross C).mean (pictureBytes R C))^[t] (b.read oob) := by
  induction t with
  | zero => rfl
  | succ t ih => rw [Function.iterate_succ_apply', Function.iterate_succ_apply', read_sweep, ih]

/-- What no iteration visits. -/
theorem read_iterate_sweep_of_not (oob : ℤ → UInt8) (t : ℕ) (b : Buffer ((R + 2) * (C + 2) * 3))
    {o : ℤ} (ho : ¬ InBuffer (R * C * 3) o) :
    ((sweep oob)^[t] b).read oob o = b.read oob o := by
  induction t with
  | zero => rfl
  | succ t ih =>
    rw [Function.iterate_succ_apply', read_sweep,
      Sweep.inPlace_of_notMem fun h => ho (mem_pictureBytes.1 h), ih]

/-- The bytes that edges start from: those of the picture and of the row in front of the buffer. -/
def edgeBytes (R C : ℕ) : Finset ℤ := (Int.range (-(C * 3 : ℕ)) (R * C * 3 : ℕ)).toFinset

theorem card_edgeBytes (R C : ℕ) : (edgeBytes R C).card = (R + 1) * C * 3 := by
  have hlength : (Int.range (-(C * 3 : ℕ)) (R * C * 3 : ℕ)).length = (R + 1) * C * 3 := by
    rw [Int.range, List.length_map, List.length_range]
    have hexp : (R + 1) * C * 3 = R * C * 3 + C * 3 := by ring
    omega
  rw [edgeBytes, List.toFinset_card_of_nodup, hlength]
  exact (Scan.pairwise_range _ _).imp fun h => h.ne

theorem covers_edgeBytes (R C : ℕ) :
    (flatCross C).Covers (edgeBytes R C) (pictureBytes R C).toFinset := by
  have hpicture : ∀ x ∈ (pictureBytes R C).toFinset, InBuffer (R * C * 3) x :=
    fun x hx => mem_pictureBytes.1 (List.mem_toFinset.1 hx)
  -- a picture with a byte has a column
  have hpos : ∀ x : ℤ, InBuffer (R * C * 3) x → 0 < C := by
    rintro x ⟨h₀, h₁⟩
    rcases Nat.eq_zero_or_pos C with h | h
    · rw [h, Nat.mul_zero, Nat.zero_mul] at h₁
      omega
    · exact h
  have hedge : ∀ y : ℤ, -(C * 3 : ℕ) ≤ y → y < (R * C * 3 : ℕ) → y ∈ edgeBytes R C :=
    fun y h₀ h₁ => List.mem_toFinset.2 (Int.mem_range_iff.2 ⟨h₀, h₁⟩)
  constructor
  all_goals
    intro x hx
    obtain ⟨h₀, h₁⟩ := hpicture x hx
    have hC := hpos x ⟨h₀, h₁⟩
  · exact hedge _ (by omega) h₁
  · exact hedge _ (by simp only [flatCross]; omega) (by simp only [flatCross]; omega)
  · exact hedge _ (by simp only [flatCross]; omega) (by simp only [flatCross]; omega)
  · simp only [flatCross]; omega
  · simp only [flatCross]; omega

theorem mem_pictureBytes_toFinset (R C : ℕ) :
    ∀ o ∈ pictureBytes R C, o ∈ (pictureBytes R C).toFinset := fun _ => List.mem_toFinset.2

/-- **An iteration is at rest** iff every byte it visits is its own mean. -/
theorem sweep_eq_self_iff (oob : ℤ → UInt8) (b : Buffer ((R + 2) * (C + 2) * 3)) :
    sweep oob b = b ↔
      ∀ o, InBuffer (R * C * 3) o → (flatCross C).mean (b.read oob) o = b.read oob o := by
  rw [← Region.read_inj oob, read_sweep, Cross.inPlace_eq_self_iff (mutual_flatCross C)
    (covers_edgeBytes R C) (mem_pictureBytes_toFinset R C)]
  exact forall_congr' fun o => by rw [mem_pictureBytes]

/-- **The iterations settle.** -/
theorem iterate_sweep_fixed (oob : ℤ → UInt8) (b : Buffer ((R + 2) * (C + 2) * 3)) :
    sweep oob ((sweep oob)^[65535 * ((R + 1) * C * 3)] b) =
      (sweep oob)^[65535 * ((R + 1) * C * 3)] b := by
  rw [← Region.read_inj oob, read_sweep, read_iterate_sweep]
  exact Cross.inPlace_iterate_fixed (mutual_flatCross C) (covers_edgeBytes R C)
    (mem_pictureBytes_toFinset R C) (card_edgeBytes R C ▸ le_rfl)

/-- **The filter settles.**  There is one picture that all large numbers of iterations save: its
bytes that the loop visits are their own means, and the others have the noise that they had. -/
theorem main_settles (n : ℕ) (oob : ℤ → UInt8) (noise : ℕ → NoiseField (R + 2) (C + 2))
    (fresh : Image (R + 2) (C + 2)) (img : Image R C) :
    ∃ settled : Buffer ((R + 2) * (C + 2) * 3),
      (∀ t, 65535 * ((R + 1) * C * 3) ≤ t → main (n + 1) t oob noise fresh img =
        if R = 0 ∨ C = 0 then none
        else some ⟨crop (Image.ofData settled), rounds noise (copyMakeBorder img) (n + 1)⟩) ∧
      (∀ o, InBuffer (R * C * 3) o →
        (flatCross C).mean (settled.read oob) o = settled.read oob o) ∧
      ∀ o, ¬ InBuffer (R * C * 3) o →
        settled.read oob o = (rounds noise (copyMakeBorder img) n).data.read oob o := by
  have hfix := iterate_sweep_fixed oob (rounds noise (copyMakeBorder img) n).data
  refine ⟨(sweep oob)^[65535 * ((R + 1) * C * 3)] (rounds noise (copyMakeBorder img) n).data,
    fun t ht => ?_, (sweep_eq_self_iff _ _).1 hfix, fun o ho => read_iterate_sweep_of_not _ _ _ ho⟩
  obtain ⟨d, rfl⟩ := Nat.exists_eq_add_of_le' ht
  rw [main_eq, Function.iterate_add_apply, Function.iterate_fixed hfix]

/-- **What is not filtered**: the pixels that come after `R * C` others in the padded picture, the
last row among them. -/
theorem main_unfiltered {n t : ℕ} {oob : ℤ → UInt8} {noise : ℕ → NoiseField (R + 2) (C + 2)}
    {fresh : Image (R + 2) (C + 2)} {img : Image R C} {saved : Saved R C (R + 2) (C + 2)}
    (h : main (n + 1) t oob noise fresh img = some saved) {x : {x : Ix // InExtents R C x}}
    (hx : (R : ℤ) * C ≤ paddedPosition C x.1) :
    saved.imageNoPad x = crop (rounds noise (copyMakeBorder img) n) x := by
  by_cases hempty : R = 0 ∨ C = 0
  · rw [main_eq, if_pos hempty] at h
    cases h
  · rw [main_eq, if_neg hempty, Option.some_inj] at h
    subst h
    have hout : ¬ InBuffer (R * C * 3) (3 * paddedPosition C x.1 + x.1.2.2) := by
      rintro ⟨-, h₁⟩
      obtain ⟨-, -, hk⟩ := x.2
      push_cast at h₁
      omega
    have hcrop := crop_eq_crop oob
      (read_iterate_sweep_of_not oob t (rounds noise (copyMakeBorder img) n).data hout)
    rwa [Image.ofData_data] at hcrop

/-- The only pixel of a white `1 × 1` picture is the fifth of the padded picture. -/
theorem main_unfiltered_one_one :
    ∃ saved : Saved 1 1 3 3,
      main 15 15 (fun _ => 0) (fun _ _ => 0) (fun _ => 0) (fun _ => 255) = some saved ∧
      saved.imageNoPad ⟨(0, 0, 0), by decide⟩ =
        crop (rounds (fun _ _ => 0) (copyMakeBorder (R := 1) (C := 1) fun _ => 255) 14)
          ⟨(0, 0, 0), by decide⟩ := by
  have hmain := (main_eq (R := 1) (C := 1) 14 15 (fun _ => 0) (fun _ _ => 0) (fun _ => 0)
    fun _ => 255).trans (if_neg (by decide))
  exact ⟨_, hmain, main_unfiltered hmain (by decide)⟩

end IterativeJacobi

/-! ### `iterative_gauss_seidel.cpp` -/

namespace IterativeGaussSeidel

/-- The loops that turn the picture grey if `GREYSCALE`. -/
def greyLoop (wild : ℚ → UInt8) (oob : ℤ → UInt8) (pixelPtr : Buffer ((R + 2) * (C + 2) * 3)) :
    Buffer ((R + 2) * (C + 2) * 3) :=
  (mdRange2 (0, 0) ((R : ℤ), (C : ℤ))).foldl
    (fun b p => OpencvSimple.greyPixel wild C oob p b) pixelPtr

/-- `main`, from the picture that was read to the pictures that are written, unless the picture is
empty.  `fresh` are the bytes of the newly allocated `mColorNoise`, and `oob` those around the
buffer. -/
def main (greyscale : Bool) (noiseIter : ℕ) (wild : ℚ → UInt8) (oob : ℤ → UInt8)
    (noise : ℕ → NoiseField (R + 2) (C + 2)) (fresh : Image (R + 2) (C + 2)) (img : Image R C) :
    Option (Saved R C (R + 2) (C + 2)) :=
  if R = 0 ∨ C = 0 then none
  else
    let p := padThenNoise noiseIter noise fresh img
    let pixelPtr := p.imagePad.data
    let pixelPtr := if greyscale then greyLoop wild oob pixelPtr else pixelPtr
    some ⟨crop (Image.ofData (sweep oob pixelPtr)), p.mColorNoise⟩

theorem inBuffer_of_pixelBytes {p : ℤ × ℤ} (hp : p ∈ mdRange2 (0, 0) ((R : ℤ), (C : ℤ))) :
    ∀ o ∈ pixelBytes C p, InBuffer ((R + 2) * (C + 2) * 3) o :=
  fun _ ho => inBuffer_of_picture (exists_mem_pixelBytes_iff.1 ⟨p, hp, ho⟩)

/-- The grey loops only read pixels of the picture. -/
theorem greyLoop_congr_oob (wild : ℚ → UInt8) (oob oob' : ℤ → UInt8)
    (b : Buffer ((R + 2) * (C + 2) * 3)) : greyLoop wild oob b = greyLoop wild oob' b := by
  refine List.foldl_ext _ _ _ fun b p hp => ?_
  have hread : ∀ o ∈ pixelBytes C p, b.read oob o = b.read oob' o :=
    fun o ho => Region.read_congr_oob (inBuffer_of_pixelBytes hp o ho) _
  simp only [pixelBytes, List.mem_cons, List.not_mem_nil, or_false, forall_eq_or_imp,
    forall_eq] at hread
  rw [OpencvSimple.greyPixel_eq, OpencvSimple.greyPixel_eq]
  simp only [OpencvSimple.greyAt, hread]

/-- They leave alone what comes after the picture. -/
theorem read_greyLoop_of_not (wild : ℚ → UInt8) (oob : ℤ → UInt8)
    (b : Buffer ((R + 2) * (C + 2) * 3)) {o : ℤ} (ho : ¬ InBuffer (R * C * 3) o) :
    (greyLoop wild oob b).read oob o = b.read oob o :=
  Region.read_foldl_of_notMem (v := fun q m _ => OpencvSimple.greyAt wild C q m)
    (fun _ => inBuffer_of_pixelBytes) fun p hp h => ho (exists_mem_pixelBytes_iff.1 ⟨p, hp, h⟩)

/-- **What the program saves depends on the picture only**, not on the bytes around its buffer,
and the pixels that come after `(R + 1) * C` others in the padded picture are not filtered. -/
theorem gaussSeidelMain_spec (greyscale : Bool) (n : ℕ) (wild : ℚ → UInt8) (oob : ℤ → UInt8)
    (noise : ℕ → NoiseField (R + 2) (C + 2)) (fresh : Image (R + 2) (C + 2)) (img : Image R C) :
    (∀ oob' fresh', main greyscale (n + 1) wild oob noise fresh img =
      main greyscale (n + 1) wild oob' noise fresh' img) ∧
    ∀ saved ∈ main greyscale (n + 1) wild oob noise fresh img, ∀ x,
      (R + 1 : ℤ) * C < paddedPosition C x.1 →
        saved.imageNoPad x = crop (rounds noise (copyMakeBorder img) n) x := by
  constructor
  · intro oob' fresh'
    rw [main, main, padThenNoise_eq, padThenNoise_eq]
    cases greyscale with
    | false => simp only [sweep_congr_oob oob oob', Bool.false_eq_true, if_false]
    | true => simp only [sweep_congr_oob oob oob', greyLoop_congr_oob wild oob oob']
  · intro saved hsaved x hx
    by_cases hempty : R = 0 ∨ C = 0
    · rw [main, if_pos hempty] at hsaved
      cases hsaved
    · rw [main, if_neg hempty, padThenNoise_eq, Option.mem_some_iff] at hsaved
      subst hsaved
      have hexp : ((R : ℤ) + 1) * C = R * C + C := by ring
      obtain ⟨-, -, hk₀, hk₁⟩ := x.2
      have hpicture : ¬ InBuffer (R * C * 3) (3 * paddedPosition C x.1 + x.1.2.2) := by
        rintro ⟨-, h₁⟩
        push_cast at h₁
        omega
      have hwindow : ¬ InWindow R C (3 * paddedPosition C x.1 + x.1.2.2) := by
        rintro ⟨-, h₁⟩
        omega
      have hcrop : ∀ b : Buffer ((R + 2) * (C + 2) * 3),
          b.read oob (3 * paddedPosition C x.1 + x.1.2.2) =
            (rounds noise (copyMakeBorder img) n).data.read oob
              (3 * paddedPosition C x.1 + x.1.2.2) →
          crop (Image.ofData (sweep oob b)) x = crop (rounds noise (copyMakeBorder img) n) x := by
        intro b hb
        have h := crop_eq_crop (b := sweep oob b) oob
          ((read_sweep_apply oob b _).trans ((if_neg hwindow).trans hb))
        rwa [Image.ofData_data] at h
      cases greyscale with
      | false => exact hcrop _ rfl
      | true => exact hcrop _ (read_greyLoop_of_not wild oob _ hpicture)

end IterativeGaussSeidel

/-! ### `cpu_parallel_jacobi.cpp` -/

namespace CpuParallelJacobi

open Kokkos

/-- The pictures that are written to files.  The padding is not removed. -/
structure SavedPadded (R C : ℕ) where
  /-- `kokkos_cpu_jacobi_res.jpg` -/
  imagePad : Image (R + 2) (C + 2)
  /-- `kokkos_cpu_noised_res.jpg` -/
  mColorNoise : Image (R + 2) (C + 2)

/-- `main`, from the picture that was read to the pictures that are written, unless the picture is
empty.  `fresh` are the bytes of the newly allocated `mColorNoise`, and `imgIn` and `imgOut` those
of the new views. -/
def Main (noiseIter : ℕ) (oob : BodyReads) (noise : ℕ → NoiseField (R + 2) (C + 2))
    (fresh : Image (R + 2) (C + 2)) (imgIn imgOut : Buffer ((R + 2) * (C + 2) * 3))
    (img : Image R C) (result : Option (SavedPadded R C)) : Prop :=
  if R = 0 ∨ C = 0 then result = none
  else
    let p := padThenNoise noiseIter noise fresh img
    ∃ s, HostFilter oob ⟨p.imagePad.data, imgIn, imgOut⟩ s ∧
      result = some ⟨Image.ofData s.pixelPtr, p.mColorNoise⟩

/-- The picture whose first `R * C` pixels are the means with the row length of the picture without
padding. -/
def filtered (oob : BodyReads) (v : Image (R + 2) (C + 2)) : Image (R + 2) (C + 2) := fun x =>
  if position (C + 2) (x.1.1, x.1.2.1) < R * C then stencil oob v.data (pix (C + 2) x.1) else v x

theorem ofData_filter (oob : BodyReads) (o : Orders R C) (v : Image (R + 2) (C + 2))
    (imgIn imgOut : Buffer ((R + 2) * (C + 2) * 3)) :
    Image.ofData (filter oob o ⟨v.data, imgIn, imgOut⟩).pixelPtr = filtered oob v := by
  funext ⟨x, hx⟩
  have hbyte := read_filter oob o ⟨v.data, imgIn, imgOut⟩ (fun _ => 0) (pix (C + 2) x)
  rw [Region.read_of_valid (inBuffer_pix hx), Image.read_data hx _ fun _ => 0,
    Region.read_of_valid hx] at hbyte
  refine hbyte.trans ?_
  have hiff : InBuffer (R * C * 3) (pix (C + 2) x) ↔ position (C + 2) (x.1, x.2.1) < R * C := by
    obtain ⟨h₀, -⟩ := inBuffer_pix hx
    obtain ⟨-, -, hk₀, hk₁⟩ := hx
    simp only [cn] at hk₁
    rw [InBuffer, pix_eq, position]
    rw [pix_eq] at h₀
    push_cast at h₀ ⊢
    omega
  simp only [filtered, hiff]

/-- **What the program saves**, in all runs of the threads of the host: one mean of each of the
first `R * C` pixels of the padded picture, from their values before the filter, and the noise that
the other pixels had. -/
theorem cpuMain_iff (h : IntSized R C) (n : ℕ) (oob : BodyReads)
    (noise : ℕ → NoiseField (R + 2) (C + 2)) (fresh : Image (R + 2) (C + 2))
    (imgIn imgOut : Buffer ((R + 2) * (C + 2) * 3)) (img : Image R C)
    (result : Option (SavedPadded R C)) :
    Main (n + 1) oob noise fresh imgIn imgOut img result ↔
      result = if R = 0 ∨ C = 0 then none
        else some ⟨filtered oob (rounds noise (copyMakeBorder img) n),
          rounds noise (copyMakeBorder img) (n + 1)⟩ := by
  by_cases hempty : R = 0 ∨ C = 0
  · rw [Main, if_pos hempty, if_pos hempty]
  · rw [Main, if_neg hempty, if_neg hempty, padThenNoise_eq]
    simp only [hostFilter_iff h oob (inOrder R C), exists_eq_left, ofData_filter]

/-- A white `1 × 1` picture without noise. -/
theorem cpuMain_one_one :
    Main 1 (fun _ _ => 0) (fun _ _ => 0) (fun _ => 0) (fun _ => 0) (fun _ => 0)
      (fun _ => 255 : Image 1 1) (some ⟨filtered (fun _ _ => 0) (copyMakeBorder fun _ => 255),
        rounds (fun _ _ => 0) (copyMakeBorder fun _ => 255) 1⟩) :=
  (cpuMain_iff ⟨by decide, by decide⟩ 0 _ _ _ _ _ _ _).2 rfl

end CpuParallelJacobi

end KokkosStencil
