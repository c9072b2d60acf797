import KokkosStencil.Machine.Range
import KokkosStencil.Noise.Basic
import Mathlib.Algebra.Order.Round
import Mathlib.Data.Rat.Floor

/-!
# Adding noise with OpenCV (`gaussianNoise.cpp`)

`AddGaussianNoise_Opencv` adds the noise with operations on whole matrices: it widens the picture
to 16 bits, adds the field to it and narrows the sum to 8 bits.  The OpenCV operations are
parameters (`MatOps`), of which their documented behaviour is assumed (`MatOps.Saturates`): what is
out of range for the target type becomes the nearest value of the type.

`noiseRoutines_agree` : it does to the destination what `AddGaussianNoise` does.  A sum that the
16-bit type cuts off is far outside the 8-bit range on the same side.
-/

namespace KokkosStencil

variable {rows cols : ℕ}

/-- A `CV_16SC3` matrix. -/
abbrev Image16 (rows cols : ℕ) := Region (InExtents rows cols) Int16

/-- The operations of OpenCV that `AddGaussianNoise_Opencv` calls. -/
structure MatOps (rows cols : ℕ) where
  /-- `src.convertTo(dst, CV_16SC3)` -/
  convertTo16S : Image rows cols → Image16 rows cols
  /-- `addWeighted(src1, alpha, src2, beta, gamma, dst)` -/
  addWeighted : Image16 rows cols → ℚ → Image16 rows cols → ℚ → ℚ → Image16 rows cols
  /-- `src.convertTo(dst, CV_8UC3)` -/
  convertTo8U : Image16 rows cols → Image rows cols

/-- `saturate_cast<short>` -/
def saturate16S (n : ℤ) : ℤ := saturate (-32768) 32767 n

/-- `saturate_cast<uchar>` -/
def saturate8U (n : ℤ) : ℤ := saturate 0 255 n

/-- The operations saturate to their target types, and `addWeighted` is exact where its weighted
sum is an integer. -/
structure MatOps.Saturates (cv : MatOps rows cols) : Prop where
  convertTo16S : ∀ v x, (cv.convertTo16S v x).toInt = saturate16S (v x).toNat
  addWeighted : ∀ a α b β γ x (n : ℤ),
    ((a x).toInt : ℚ) * α + ((b x).toInt : ℚ) * β + γ = n →
      (cv.addWeighted a α b β γ x).toInt = saturate16S n
  convertTo8U : ∀ a x, ((cv.convertTo8U a x).toNat : ℤ) = saturate8U (a x).toInt

/-- `AddGaussianNoise_Opencv`, with the field drawn by `randn`.  The destination has the size and
the type of the source, so `convertTo` writes into its block. -/
def addGaussianNoiseOpencv (cv : MatOps rows cols) (noise : NoiseField rows cols)
    (mSrc mDst : Block) (heap : Heap rows cols) : Bool × Heap rows cols :=
  if rows = 0 ∨ cols = 0 then (false, heap)
  else
    let mSrc16SC := cv.convertTo16S (heap mSrc)
    let mSrc16SC := cv.addWeighted mSrc16SC 1 noise 1 0
    (true, Function.update heap mDst (cv.convertTo8U mSrc16SC))

/-! ### The three operations together -/

theorem toNat_clamp_eq (n : ℤ) : ((clamp n).toNat : ℤ) = saturate8U n := toNat_clamp n

/-- Cutting off at 16 bits does not show at 8 bits. -/
theorem saturate8U_saturate16S (n : ℤ) : saturate8U (saturate16S n) = saturate8U n :=
  saturate_saturate (by decide) (by decide) (by decide) n

/-- The operations of `AddGaussianNoise_Opencv` add the field and clamp the sums. -/
theorem convertTo8U_addWeighted {cv : MatOps rows cols} (hcv : cv.Saturates)
    (noise : NoiseField rows cols) (v : Image rows cols) :
    cv.convertTo8U (cv.addWeighted (cv.convertTo16S v) 1 noise 1 0) = addNoise noise v := by
  funext x
  -- a byte is a 16-bit value
  have hbyte : (cv.convertTo16S v x).toInt = (v x).toNat := by
    have hlt := (v x).toNat_lt
    rw [hcv.convertTo16S]
    exact saturate_of_mem (by omega) (by omega)
  have hsum : ((cv.convertTo16S v x).toInt : ℚ) * 1 + ((noise x).toInt : ℚ) * 1 + 0 =
      (((v x).toNat + (noise x).toInt : ℤ) : ℚ) := by
    rw [hbyte]
    push_cast
    ring
  have hval : ((cv.convertTo8U (cv.addWeighted (cv.convertTo16S v) 1 noise 1 0) x).toNat : ℤ) =
      (addNoise noise v x).toNat := by
    rw [hcv.convertTo8U, hcv.addWeighted _ _ _ _ _ x _ hsum, saturate8U_saturate16S]
    exact (toNat_clamp_eq _).symm
  rw [← UInt8.toNat_inj]
  exact_mod_cast hval

/-- **The two noise routines agree**: with the same field they return the same and leave the same
bytes in all blocks, also when the destination is the source. -/
theorem noiseRoutines_agree {cv : MatOps rows cols} (hcv : cv.Saturates)
    (noise : NoiseField rows cols) (mSrc mDst : Block) (heap : Heap rows cols) :
    addGaussianNoise noise mSrc mDst heap = addGaussianNoiseOpencv cv noise mSrc mDst heap := by
  refine Prod.ext ?_ ?_
  · unfold addGaussianNoise addGaussianNoiseOpencv
    split_ifs <;> rfl
  · rw [addGaussianNoise_eq, ← convertTo8U_addWeighted hcv noise (heap mSrc),
      addGaussianNoiseOpencv]
    split_ifs with hempty
    · -- an empty picture has no bytes
      funext b
      refine Region.ext_read (fun _ => 0) fun x hx => ?_
      obtain ⟨hi, hj, -⟩ := hx
      omega
    · rfl

/-- The operations on every element; `addWeighted` rounds its weighted sum. -/
def MatOps.elementwise (rows cols : ℕ) : MatOps rows cols where
  convertTo16S v := fun x => Int16.ofInt (saturate16S (v x).toNat)
  addWeighted a α b β γ := fun x =>
    Int16.ofInt (saturate16S (round (((a x).toInt : ℚ) * α + ((b x).toInt : ℚ) * β + γ)))
  convertTo8U a := fun x => clamp (a x).toInt

theorem toInt_ofInt_saturate16S (n : ℤ) : (Int16.ofInt (saturate16S n)).toInt = saturate16S n := by
  have hlo : -32768 ≤ saturate16S n := le_max_left _ _
  have hhi : saturate16S n ≤ 32767 := max_le (by decide) (min_le_left _ _)
  exact Int16.toInt_ofInt_of_le hlo (by omega)

theorem MatOps.saturates_elementwise (rows cols : ℕ) : (elementwise rows cols).Saturates where
  convertTo16S v x := toInt_ofInt_saturate16S _
  addWeighted a α b β γ x n h := by
    refine (toInt_ofInt_saturate16S _).trans ?_
    rw [h, round_intCast]
  convertTo8U a x := toNat_clamp_eq _

/-- A `1 × 1` picture of value `200` to which a field of `32767` is added: `255` in either way. -/
theorem noiseRoutines_agree_one_one :
    addGaussianNoise (fun _ => 32767) .picture .colorNoise (fun _ _ => 200 : Heap 1 1) =
      addGaussianNoiseOpencv (MatOps.elementwise 1 1) (fun _ => 32767) .picture .colorNoise
        (fun _ _ => 200) :=
  noiseRoutines_agree (MatOps.saturates_elementwise 1 1) _ _ _ _

end KokkosStencil
