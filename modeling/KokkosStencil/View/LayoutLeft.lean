import KokkosStencil.View.Jacobi

/-!
# Views in column-major memory

`ViewImageType` is a `LayoutLeft` view: element `(i, j, k)` of an `N × M × 3` view lies at offset
`i + N * (j + M * k)` of its allocation (`leftOffset`), so the columns of a colour plane follow
each other, and so do the planes.  Without bounds checks an access computes the offset of any index
and goes there:

* `readLeft` : such a read of a view; inside the extents it is the read of the element;
* `inExtents_iff_ownColumn` : an index is inside the extents iff its offset is in the allocation,
  in the column and the plane of the index;
* `ParallelJacobi.inRange_iff` : the body of `apply_jacobi` at pixel `(i, j)` accesses `img_in`
  inside its extents iff the pixel is not in the padding, and the policy covers the padding.
-/

namespace KokkosStencil

/-- Offset of an element in a `LayoutLeft` view with `N` rows and `M` columns. -/
def leftOffset (N M : ℕ) (x : Ix) : ℤ := x.1 + N * (x.2.1 + M * x.2.2)

/-- The element at an offset. -/
def unleft (N M : ℕ) (o : ℤ) : Ix := (o % N, o / N % M, o / N / M)

variable {N M : ℕ}

theorem leftOffset_unleft (N M : ℕ) (o : ℤ) : leftOffset N M (unleft N M o) = o := by
  rw [leftOffset, unleft, Int.emod_add_mul_ediv, Int.emod_add_mul_ediv]

theorem unleft_leftOffset {x : Ix} (h : InExtents N M x) : unleft N M (leftOffset N M x) = x := by
  obtain ⟨i, j, k⟩ := x
  obtain ⟨⟨hi₀, hi₁⟩, ⟨hj₀, hj₁⟩, -⟩ := h
  simp only at hi₀ hi₁ hj₀ hj₁
  have hcol : ∀ a : ℤ, (i + N * a) / N = a := by
    intro a
    rw [Int.add_mul_ediv_left _ _ (by omega), Int.ediv_eq_zero_of_lt hi₀ hi₁, zero_add]
  rw [unleft, leftOffset]
  simp only [hcol, Int.add_mul_emod_self_left, Int.emod_eq_of_lt hi₀ hi₁,
    Int.emod_eq_of_lt hj₀ hj₁]
  rw [Int.add_mul_ediv_left _ _ (by omega), Int.ediv_eq_zero_of_lt hj₀ hj₁, zero_add]

/-- The columns of the next plane follow those of the plane. -/
theorem leftOffset_add_columns (N M : ℕ) (i j k : ℤ) :
    leftOffset N M (i, j + M, k) = leftOffset N M (i, j, k + 1) := by
  simp only [leftOffset]
  ring

theorem inBuffer_leftOffset {x : Ix} (h : InExtents N M x) :
    InBuffer (N * M * 3) (leftOffset N M x) := by
  obtain ⟨i, j, k⟩ := x
  obtain ⟨hi, hj, hk⟩ := h
  -- the column number stays below the number of columns, the offset below the number of elements
  have hcol : 0 ≤ k * M + j ∧ k * M + j < (3 : ℕ) * M := cell_bounds hk hj
  have hoff : 0 ≤ (k * M + j) * N + i ∧ (k * M + j) * N + i < (3 * M : ℕ) * N :=
    cell_bounds ⟨hcol.1, by exact_mod_cast hcol.2⟩ hi
  have hswap : leftOffset N M (i, j, k) = (k * M + j) * N + i := by
    simp only [leftOffset]
    ring
  have hsize : ((N * M * 3 : ℕ) : ℤ) = ((3 * M : ℕ) : ℤ) * N := by
    push_cast
    ring
  rw [InBuffer, hswap, hsize]
  exact hoff

theorem inExtents_unleft {o : ℤ} (h : InBuffer (N * M * 3) o) : InExtents N M (unleft N M o) := by
  obtain ⟨h₀, h₁⟩ := h
  -- a view without rows or columns has no offsets
  have hpos : 0 < N * M := by
    rcases Nat.eq_zero_or_pos (N * M) with h | h
    · rw [h] at h₁
      omega
    · exact h
  have hN : (0 : ℤ) < N := by exact_mod_cast Nat.pos_of_mul_pos_right hpos
  have hM : (0 : ℤ) < M := by exact_mod_cast Nat.pos_of_mul_pos_left hpos
  have hcols : o / N < 3 * M := by
    refine Int.ediv_lt_of_lt_mul hN ?_
    push_cast at h₁
    linarith
  refine ⟨⟨Int.emod_nonneg _ hN.ne', Int.emod_lt_of_pos _ hN⟩,
    ⟨Int.emod_nonneg _ hM.ne', Int.emod_lt_of_pos _ hM⟩,
    Int.ediv_nonneg (Int.ediv_nonneg h₀ hN.le) hM.le, Int.ediv_lt_of_lt_mul hM hcols⟩

/-- The allocation of a view. -/
def Image.leftData (v : Image N M) : Buffer (N * M * 3) :=
  fun o => v ⟨unleft N M o, inExtents_unleft o.2⟩

/-- An unchecked read of element `x`: the byte at its offset.  Outside the allocation the byte at
offset `o` is `mem o`. -/
def readLeft (mem : ℤ → UInt8) (v : Image N M) (x : Ix) : UInt8 :=
  v.leftData.read mem (leftOffset N M x)

/-- An index whose offset is that of an element reads the element. -/
theorem readLeft_of_eq {mem : ℤ → UInt8} {v : Image N M} {x y : Ix} (hy : InExtents N M y)
    (hxy : leftOffset N M x = leftOffset N M y) (oob : Ix → UInt8) :
    readLeft mem v x = v.read oob y := by
  rw [readLeft, hxy, Region.read_of_valid (inBuffer_leftOffset hy), Region.read_of_valid hy]
  exact congrArg v (Subtype.ext (unleft_leftOffset hy))

/-- Unchecked reads make no difference inside the extents. -/
theorem read_readLeft (mem : ℤ → UInt8) (v : Image N M) (x : Ix) :
    v.read (readLeft mem v) x = readLeft mem v x := by
  by_cases hx : InExtents N M x
  · exact (readLeft_of_eq hx rfl _).symm
  · exact Region.read_of_invalid hx

/-- The offset of `x` lies in the allocation, in the column and the colour plane of `x`. -/
def OwnColumn (N M : ℕ) (x : Ix) : Prop :=
  InBuffer (N * M * 3) (leftOffset N M x) ∧ (unleft N M (leftOffset N M x)).2 = x.2

/-- **In range means at home**: an index is inside the extents iff its offset falls neither outside
the allocation nor into another column or plane. -/
theorem inExtents_iff_ownColumn {x : Ix} : InExtents N M x ↔ OwnColumn N M x := by
  constructor
  · intro h
    exact ⟨inBuffer_leftOffset h, by rw [unleft_leftOffset h]⟩
  · rintro ⟨hin, hcol⟩
    have hx := inExtents_unleft hin
    have hoff := leftOffset_unleft N M (leftOffset N M x)
    obtain ⟨i, p⟩ := x
    -- same column, same plane and same offset: the same row
    have hrow : (unleft N M (leftOffset N M (i, p))).1 = i := by
      rw [leftOffset, hcol] at hoff
      exact add_right_cancel hoff
    rw [Prod.ext hrow hcol] at hx
    exact hx

namespace ParallelJacobi

variable {R C : ℕ}

/-- The pixels whose subviews the body at pixel `(i, j)` takes. -/
def subviews : ℤ × ℤ → List (ℤ × ℤ)
  | (i, j) => [(i, j), (i, j - 1), (i, j + 1), (i - 1, j), (i + 1, j)]

/-- The body reads `img_in` at the channels of its `subviews` only. -/
theorem applyJacobi_congr {oob oob' : ℤ × ℤ → Ix → UInt8} {p : ℤ × ℤ} {s : Views R C}
    (h : ∀ q ∈ subviews p, ∀ k, 0 ≤ k ∧ k < cn →
      s.imgIn.read (oob p) (q.1, q.2, k) = s.imgIn.read (oob' p) (q.1, q.2, k)) :
    applyJacobi oob p s = applyJacobi oob' p s := by
  rw [applyJacobi_eq, applyJacobi_eq]
  congr 1
  refine Region.scatter_congr_values fun x hx => ?_
  obtain ⟨i, j, k⟩ := x
  obtain ⟨rfl, hk⟩ := mem_pixelIx.1 hx
  simp only [subviews, List.mem_cons, List.not_mem_nil, or_false, forall_eq_or_imp,
    forall_eq] at h
  obtain ⟨hself, hleft, hright, hup, hdown⟩ := h
  exact Cross.mean_congr (hself k hk) (hleft k hk) (hright k hk) (hup k hk) (hdown k hk)

/-- Both indices of a subview lie within the extents. -/
def InRange (R C : ℕ) (q : ℤ × ℤ) : Prop := (0 ≤ q.1 ∧ q.1 < R + 2) ∧ 0 ≤ q.2 ∧ q.2 < C + 2

instance (R C : ℕ) : DecidablePred (InRange R C) := fun _ => inferInstanceAs (Decidable (_ ∧ _))

theorem subviews_inRange_iff {p : ℤ × ℤ} :
    (∀ q ∈ subviews p, InRange R C q) ↔ Grid.Interior R C p := by
  obtain ⟨i, j⟩ := p
  simp only [subviews, List.mem_cons, List.not_mem_nil, or_false, forall_eq_or_imp, forall_eq,
    InRange, Grid.Interior]
  omega

theorem inRange_iff_forall_ownColumn {q : ℤ × ℤ} :
    InRange R C q ↔ ∀ k, 0 ≤ k ∧ k < cn → OwnColumn (R + 2) (C + 2) (q.1, q.2, k) := by
  simp only [← inExtents_iff_ownColumn]
  constructor
  · rintro ⟨hi, hj⟩ k hk
    exact ⟨by exact_mod_cast hi, by exact_mod_cast hj, hk⟩
  · intro h
    obtain ⟨hi, hj, -⟩ := h 0 (by decide)
    exact ⟨by exact_mod_cast hi, by exact_mod_cast hj⟩

/-- **Where the stencil is in range.**  All five subviews of the body at pixel `(i, j)` have both
indices within the extents iff the pixel is not in the padding; equivalently, iff no offset that
the body computes falls outside the allocation or into another column or plane.  The policy covers
the padding for every size. -/
theorem inRange_iff (R C : ℕ) :
    (∀ p, (∀ q ∈ subviews p, InRange R C q) ↔ Grid.Interior R C p) ∧
      (∀ p, (∀ q ∈ subviews p, ∀ k, 0 ≤ k ∧ k < cn → OwnColumn (R + 2) (C + 2) (q.1, q.2, k)) ↔
        Grid.Interior R C p) ∧
      ¬ ∀ p ∈ stencilImage R C, ∀ q ∈ subviews p, InRange R C q := by
  refine ⟨fun p => subviews_inRange_iff, fun p => ?_, fun h => ?_⟩
  · simp only [← inRange_iff_forall_ownColumn]
    exact subviews_inRange_iff
  · have hcorner : ((0 : ℤ), (0 : ℤ)) ∈ stencilImage R C := by
      rw [stencilImage, mem_mdRange2]
      simp only
      omega
    obtain ⟨h₁, -⟩ := subviews_inRange_iff.1 (h _ hcorner)
    exact absurd h₁ (by decide)

/-- The first body of the padded `1 × 1` picture takes the subview `(0, -1)`. -/
theorem not_inRange_one_one : ¬ ∀ p ∈ stencilImage 1 1, ∀ q ∈ subviews p, InRange 1 1 q :=
  fun h => absurd (h (0, 0) (by decide) (0, -1) (by decide)) (by decide)

end ParallelJacobi

end KokkosStencil
