import KokkosStencil.Mean.Double
import KokkosStencil.Noise.Basic
import KokkosStencil.Test.Jacobi

/-!
# The whole of `test/jacobi.cpp`

The picture is disturbed, copied to the array `A` of `double`s, filtered by `jacobi_iteration` and
copied back to the bytes behind `pixelPtr`.  The arithmetic is that of `double` here, with every
sum and the product rounded.

* `toUInt8_meanDoubles` : for bytes, what `"Jacobi"` computes becomes a truncated mean when
  `"output_image"` converts it back;
* `ofData_filter` : however many iterations there are, if any, the filtered picture has the
  truncated means of the old one inside and is black along its boundary;
* `main_eq` : the program saves the filtered picture of all rounds of noise but the last, and the
  picture of all rounds.
-/

namespace KokkosStencil

namespace TestJacobi

variable {N M : ℕ}

/-- The expression of the kernel `"Jacobi"`, in `double`. -/
def meanDoubles (a down up right left : ℚ) : ℚ :=
  let round := binary64.round
  round (literal02 * round (round (round (round (a + down) + up) + right) + left))

/-- The body of the kernel `"Jacobi"`, in `double`. -/
def jacobiDouble (oob : Ix → ℚ) (x : Ix) (s : Arrays N M) : Arrays N M :=
  let (i, j, c) := x
  if Inner N M (i, j) then
    let A := s.A.read oob
    let mean := meanDoubles (A (i, j, c)) (A (i + 1, j, c)) (A (i - 1, j, c)) (A (i, j + 1, c))
      (A (i, j - 1, c))
    { s with ANew := s.ANew.write (i, j, c) mean }
  else s

/-- The body of the kernel `"output_image"`. -/
def outputImage (wild : ℚ → UInt8) (oob : Ix → ℚ) (ANew : Array3 N M) (x : Ix)
    (pixelPtr : Buffer (N * M * 3)) : Buffer (N * M * 3) :=
  let (i, j, c) := x
  pixelPtr.write (i * M * cn + j * cn + c) (toUInt8 wild (ANew.read oob (i, j, c)))

/-- Orders for the launches of the program. -/
structure Orders (N M : ℕ) where
  /-- `"Initialize"` -/
  init : LaunchOrder (policy N M)
  /-- `"Jacobi"`, in every iteration -/
  jacobi : ℕ → LaunchOrder (policy N M)
  /-- `"output_image"` -/
  output : LaunchOrder (policy N M)

/-- What loads outside the arrays and the picture return, and what conversions to `uint8_t` of
numbers without a place there give. -/
structure Wild where
  /-- A load from `pixelPtr` -/
  byte : ℤ → UInt8
  /-- A load from an array -/
  entry : Ix → ℚ
  /-- A conversion -/
  conversion : ℚ → UInt8

/-- The loop of `jacobi_iteration`, in `double`. -/
def jacobiIterationDouble (oob : Ix → ℚ) (orders : ℕ → LaunchOrder (policy N M)) :
    ℕ → Arrays N M → Arrays N M
  | 0, s => s
  | iter + 1, s => launch (orders iter) (jacobiDouble oob) (jacobiIterationDouble oob orders iter s)

/-- From the bytes of the picture to its filtered bytes. -/
def filter (wild : Wild) (o : Orders N M) (iterations : ℕ) (pixelPtr : Buffer (N * M * 3)) :
    Buffer (N * M * 3) :=
  let arrays := initializeArrays wild.byte pixelPtr o.init ⟨zeros N M, zeros N M⟩
  let arrays := jacobiIterationDouble wild.entry o.jacobi iterations arrays
  launch o.output (outputImage wild.conversion wild.entry arrays.ANew) pixelPtr

/-- The pictures that are written to files. -/
structure Saved (N M : ℕ) where
  /-- `test.jpg` -/
  test : Image N M
  /-- `test_noise.jpg` -/
  testNoise : Image N M

/-- `main`, from the picture that was read to the pictures that are written, unless the picture is
empty.  `fresh` are the bytes of the newly allocated `mColorNoise`. -/
def main (noiseIter iterations : ℕ) (wild : Wild) (o : Orders N M) (noise : ℕ → NoiseField N M)
    (fresh img : Image N M) : Option (Saved N M) :=
  if N = 0 ∨ M = 0 then none
  else
    let s := noiseLoop noiseIter noise (Mats.start img fresh)
    some ⟨Image.ofData (filter wild o iterations (s.heap s.front).data), s.heap s.back⟩

/-! ### What the kernels do -/

/-- What `"Jacobi"` computes at an element, from `A`. -/
def meanAt (A : Ix → ℚ) (x : Ix) : ℚ :=
  meanDoubles (A x) (A (viewCross.down x)) (A (viewCross.up x)) (A (viewCross.right x))
    (A (viewCross.left x))

theorem jacobiDouble_eq (oob : Ix → ℚ) (x : Ix) (s : Arrays N M) : jacobiDouble oob x s =
    ⟨s.A, Region.scatter (meanAt (s.A.read oob)) (cells N M x) s.ANew⟩ := by
  obtain ⟨i, j, c⟩ := x
  simp only [jacobiDouble, cells]
  split_ifs <;> rfl

/-- A launch of `"Jacobi"` leaves `A` alone and the means of the interior of `A` in `A_new`. -/
theorem launch_jacobiDouble (oob : Ix → ℚ) (o : LaunchOrder (policy N M)) (s : Arrays N M) :
    (launch o (jacobiDouble oob) s).A = s.A ∧ ∀ x, InExtents N M x →
      (launch o (jacobiDouble oob) s).ANew.read oob x =
        if Inner N M (x.1, x.2.1) then meanAt (s.A.read oob) x else s.ANew.read oob x := by
  have hI : ∀ x (t : Arrays N M), t.A = s.A → (jacobiDouble oob x t).A = s.A := by
    intro x t ht
    rw [jacobiDouble_eq]
    exact ht
  have hbody : ∀ x ∈ policy N M, ∀ t : Arrays N M, t.A = s.A → (jacobiDouble oob x t).ANew =
      Region.scatter (meanAt (s.A.read oob)) (cells N M x) t.ANew := by
    intro x _ t ht
    rw [jacobiDouble_eq, ht]
  have hmem : ∀ x ∈ policy N M, ∀ y ∈ cells N M x, InExtents N M y :=
    fun x hx y hy => (exists_mem_cells_iff.1 ⟨x, hx, hy⟩).1
  refine ⟨(launch_scatter Arrays.ANew o hI hbody rfl).1, fun x hx => ?_⟩
  rw [read_launch Arrays.ANew o hI hbody hmem rfl]
  simp only [exists_mem_cells_iff, hx, true_and]

/-- However many iterations there are, if any, `A_new` holds the means of `A` inside. -/
theorem jacobiIterationDouble_spec (oob : Ix → ℚ) (orders : ℕ → LaunchOrder (policy N M)) (t : ℕ)
    (s : Arrays N M) : (jacobiIterationDouble oob orders t s).A = s.A ∧ ∀ x, InExtents N M x →
      (jacobiIterationDouble oob orders t s).ANew.read oob x =
        if 0 < t ∧ Inner N M (x.1, x.2.1) then meanAt (s.A.read oob) x
        else s.ANew.read oob x := by
  induction t with
  | zero => exact ⟨rfl, fun x _ => (if_neg fun h => absurd h.1 (lt_irrefl 0)).symm⟩
  | succ t ih =>
    obtain ⟨hA, hANew⟩ := launch_jacobiDouble oob (orders t) (jacobiIterationDouble oob orders t s)
    refine ⟨hA.trans ih.1, fun x hx => ?_⟩
    rw [jacobiIterationDouble, hANew x hx, ih.1]
    by_cases hp : Inner N M (x.1, x.2.1)
    · rw [if_pos hp, if_pos ⟨t.succ_pos, hp⟩]
    · rw [if_neg hp, ih.2 x hx, if_neg fun h => hp h.2, if_neg fun h => hp h.2]

/-- `"output_image"` converts `A_new`. -/
theorem ofData_launch_outputImage (wild : ℚ → UInt8) (oob : Ix → ℚ) (ANew : Array3 N M)
    (o : LaunchOrder (policy N M)) (pixelPtr : Buffer (N * M * 3))
    (x : {x : Ix // InExtents N M x}) :
    Image.ofData (launch o (outputImage wild oob ANew) pixelPtr) x = toUInt8 wild (ANew x) := by
  obtain ⟨x, hx⟩ := x
  have hbody : ∀ y ∈ policy N M, ∀ b : Buffer (N * M * 3), True →
      id (outputImage wild oob ANew y b) =
        Region.scatter (fun o => toUInt8 wild (ANew.read oob (unpix M o))) [pix M y] (id b) := by
    intro y hy b _
    show b.write (pix M y) (toUInt8 wild (ANew.read oob y)) =
      b.write (pix M y) (toUInt8 wild (ANew.read oob (unpix M (pix M y))))
    rw [unpix_pix (mem_policy.1 hy)]
  have hvalid : ∀ y ∈ policy N M, ∀ o ∈ [pix M y], InBuffer (N * M * 3) o := by
    intro y hy o ho
    rw [List.mem_singleton.1 ho]
    exact inBuffer_pix (mem_policy.1 hy)
  have hread := read_launch (I := fun _ => True) id o (fun _ _ _ => trivial) hbody hvalid trivial
    (s := pixelPtr) (fun _ => 0) (pix M x)
  rw [if_pos ⟨x, mem_policy.2 hx, List.mem_singleton_self _⟩, unpix_pix hx,
    Region.read_of_valid hx] at hread
  exact (Region.read_of_valid (inBuffer_pix hx)).symm.trans hread

/-! ### The filtered picture -/

/-- **Converted back, the means of bytes are the truncated means.** -/
theorem toUInt8_meanDoubles (wild : ℚ → UInt8) (a down up right left : UInt8) :
    toUInt8 wild (meanDoubles a.toNat down.toNat up.toNat right.toNat left.toNat) =
      mean5 a left right up down := by
  have ha := a.toNat_lt
  have hdown := down.toNat_lt
  have hup := up.toNat_lt
  have hright := right.toNat_lt
  have hleft := left.toNat_lt
  have hmean : mean5 a left right up down = UInt8.ofNat
      ((a.toNat + down.toNat + up.toNat + right.toNat + left.toNat) / 5) := by
    rw [mean5]
    congr 2
    omega
  rw [hmean]
  generalize a.toNat = a at *
  generalize down.toNat = down at *
  generalize up.toNat = up at *
  generalize right.toNat = right at *
  generalize left.toNat = left at *
  -- sums of bytes are exact
  have hround : ∀ m n : ℕ, m + n < 2 ^ 53 → binary64.round ((m : ℚ) + n) = ((m + n : ℕ) : ℚ) := by
    intro m n h
    rw [← Nat.cast_add, round_natCast h]
  rw [meanDoubles, hround a down (by omega), hround _ up (by omega), hround _ right (by omega),
    hround _ left (by omega), mul_comm]
  obtain ⟨hle, hlt⟩ := round_mul_literal02 (n := a + down + up + right + left) (by omega)
  exact toUInt8_eq wild (by omega) hle hlt

/-- The truncated means inside, and black along the boundary. -/
def filtered (v : Image N M) : Image N M := fun x =>
  let p := (x.1.1, x.1.2.1)
  if Inner N M p then Grid.cross.mean (v.plane x.1.2.2) p else 0

/-- The neighbours of an inner element are elements. -/
theorem inExtents_of_inner_cross {x : Ix} (hp : Inner N M (x.1, x.2.1))
    (hc : 0 ≤ x.2.2 ∧ x.2.2 < cn) :
    InExtents N M x ∧ InExtents N M (viewCross.down x) ∧ InExtents N M (viewCross.up x) ∧
      InExtents N M (viewCross.right x) ∧ InExtents N M (viewCross.left x) := by
  obtain ⟨i, j, c⟩ := x
  simp only [Inner] at hp
  obtain ⟨⟨h₁, h₂⟩, h₃, h₄⟩ := hp
  simp only [InExtents, viewCross, cn] at hc ⊢
  omega

/-- **The filter**: any positive number of iterations leaves the means of the picture inside, black
along the boundary; without one the picture turns black. -/
theorem ofData_filter (wild : Wild) (o : Orders N M) (t : ℕ) (v : Image N M) :
    Image.ofData (filter wild o t v.data) = if 0 < t then filtered v else fun _ => 0 := by
  funext x
  obtain ⟨x, hx⟩ := x
  have hA : ∀ y, InExtents N M y → (initializeArrays wild.byte v.data o.init
      ⟨zeros N M, zeros N M⟩).A.read wild.entry y = (v.read (fun _ => 0) y).toNat := by
    intro y hy
    rw [initializeArrays_eq, Region.read_of_valid hy, Region.read_of_valid hy]
    exact congrArg (fun b : UInt8 => (b.toNat : ℚ)) (congrFun (Image.ofData_data v) ⟨y, hy⟩)
  obtain ⟨-, hANew⟩ := jacobiIterationDouble_spec wild.entry o.jacobi t
    (initializeArrays wild.byte v.data o.init ⟨zeros N M, zeros N M⟩)
  have hval := hANew x hx
  rw [Region.read_of_valid hx] at hval
  rw [filter, ofData_launch_outputImage, hval]
  have hzero : toUInt8 wild.conversion ((initializeArrays wild.byte v.data o.init
      ⟨zeros N M, zeros N M⟩).ANew.read wild.entry x) = 0 := by
    rw [initializeArrays_eq, Region.read_of_valid hx]
    exact toUInt8_eq wild.conversion (n := 0) (by decide) (by simp [zeros]) (by simp [zeros])
  by_cases ht : 0 < t
  · rw [if_pos ht]
    by_cases hp : Inner N M (x.1, x.2.1)
    · obtain ⟨hself, hdown, hup, hright, hleft⟩ := inExtents_of_inner_cross hp hx.2.2
      rw [if_pos ⟨ht, hp⟩, meanAt, hA _ hself, hA _ hdown, hA _ hup, hA _ hright, hA _ hleft,
        toUInt8_meanDoubles]
      exact (if_pos hp).symm
    · rw [if_neg fun h => hp h.2, hzero]
      exact (if_neg hp).symm
  · rw [if_neg fun h => ht h.1, if_neg ht, hzero]

/-- **What the program saves**, for `NOISE_ITER = n + 1` and `iterations = t + 1`: the filtered
picture of the first `n` rounds of noise, and the picture of all rounds. -/
theorem main_eq (n t : ℕ) (wild : Wild) (o : Orders N M) (noise : ℕ → NoiseField N M)
    (fresh img : Image N M) : main (n + 1) (t + 1) wild o noise fresh img =
      if N = 0 ∨ M = 0 then none
      else some ⟨filtered (rounds noise img n), rounds noise img (n + 1)⟩ := by
  obtain ⟨hfront, hback⟩ := noiseLoop_succ noise n img fresh
  have htest : ∀ v : Image N M, Image.ofData (filter wild o (t + 1) v.data) = filtered v := by
    intro v
    rw [ofData_filter, if_pos t.succ_pos]
  rw [main, ← hback, ← htest, ← hfront]

end TestJacobi

end KokkosStencil
