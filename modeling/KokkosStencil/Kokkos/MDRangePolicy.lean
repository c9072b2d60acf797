import KokkosStencil.Run.Tiling

/-!
# `KokkosExp_MDRangePolicy.hpp` and `KokkosExp_Host_IterateTile.hpp`

A policy of any rank, with `index_type = size_t` as on the host, and the indices that
`HostIterateTile` visits for one tile.

* `Axis.partialTile_eq` : a tile that sticks out of the range is cut at the upper bound;
* `numTiles_eq_prod` : the number of tiles does not wrap around when the indices of the range can
  be counted in `index_type`;
* `visit_perm` : the tiles of a policy together visit every index of its range exactly once, for
  every tile size, given or defaulted, and for every iteration pattern.
-/

namespace KokkosStencil

namespace Kokkos

/-- `enum class Iterate`, less the value that stands for the default of the execution space. -/
inductive Iterate where
  | left
  | right
  deriving DecidableEq

/-- The conversion to `index_type = size_t`. -/
def toIndex (n : ℤ) : ℤ := n % 2 ^ 64

/-- The conversion of an `index_type` to `int`. -/
def toInt (n : ℤ) : ℤ := (n + 2 ^ 31) % 2 ^ 32 - 2 ^ 31

/-- `TileSizeProperties` -/
structure TileSizeProperties where
  /-- `max_threads` -/
  maxThreads : ℤ
  /-- `default_largest_tile_size` -/
  defaultLargestTileSize : ℤ
  /-- `default_tile_size` -/
  defaultTileSize : ℤ
  /-- `max_total_tile_size` -/
  maxTotalTileSize : ℤ

/-- `get_tile_size_properties`, host settings -/
def getTileSizeProperties : TileSizeProperties := ⟨2 ^ 31 - 1, 0, 2, 2 ^ 31 - 1⟩

/-- One entry of the arrays `lower`, `upper` and `tile` that a policy is constructed from: values
of `int64_t`, none of them negative, since `to_array_potentially_narrowing` aborts on one that does
not fit `index_type`, and small enough that `check_iteration_bounds` can add a tile to an offset
without an overflow. -/
structure Bounds where
  /-- `lower[i]` -/
  lower : ℤ
  /-- `upper[i]` -/
  upper : ℤ
  /-- `tile[i]`, `0` where none is given -/
  tile : ℤ
  lower_nonneg : 0 ≤ lower
  upper_nonneg : 0 ≤ upper
  tile_nonneg : 0 ≤ tile
  lower_lt : lower < 2 ^ 62
  upper_lt : upper < 2 ^ 62
  tile_lt : tile < 2 ^ 62

/-- `m_upper[i] - m_lower[i]` as `index_type` -/
def Bounds.length (b : Bounds) : ℤ := toIndex (b.upper - b.lower)

/-- One axis of a policy: `m_lower[i]`, `m_upper[i]` and `m_tile[i]`. -/
structure Axis extends Bounds where
  tile_pos : 0 < tile

/-- `m_tile_end[i]` -/
def Axis.tileEnd (a : Axis) : ℤ := toIndex (a.length + a.tile - 1) / a.tile

/-- `m_tile[i]` after the defaults: an axis without a tile size gets one tile if it is the
innermost one, and tiles of the default size otherwise. -/
def tileSize (innermost : Bool) (prodTileDims : ℤ) (b : Bounds) : ℤ :=
  let properties := getTileSizeProperties
  if b.tile ≤ 0 then
    if innermost then
      if properties.defaultLargestTileSize = 0 then max (toInt b.length) 1
      else properties.defaultLargestTileSize
    else
      if toIndex (prodTileDims * properties.defaultTileSize) < properties.maxTotalTileSize then
        properties.defaultTileSize
      else 1
  else b.tile

theorem tileSize_bounds (innermost : Bool) (prodTileDims : ℤ) (b : Bounds) :
    0 < tileSize innermost prodTileDims b ∧ tileSize innermost prodTileDims b < 2 ^ 62 := by
  have h := b.tile_lt
  simp only [tileSize, getTileSizeProperties, toInt]
  split_ifs <;> omega

/-- The axis that `init_helper` makes of the entries `b`. -/
def Bounds.axis (b : Bounds) (innermost : Bool) (prodTileDims : ℤ) : Axis where
  lower := b.lower
  upper := b.upper
  tile := tileSize innermost prodTileDims b
  lower_nonneg := b.lower_nonneg
  upper_nonneg := b.upper_nonneg
  tile_nonneg := (tileSize_bounds innermost prodTileDims b).1.le
  lower_lt := b.lower_lt
  upper_lt := b.upper_lt
  tile_lt := (tileSize_bounds innermost prodTileDims b).2
  tile_pos := (tileSize_bounds innermost prodTileDims b).1

theorem toIndex_toIndex_mul (m n : ℤ) : toIndex (toIndex m * n) = toIndex (n * m) := by
  simp only [toIndex]
  rw [Int.mul_emod, Int.emod_emod, ← Int.mul_emod, Int.mul_comm]

/-- What `init_helper` has computed when it has visited `axes`, the last one at the head. -/
structure InitState where
  /-- The axes visited so far. -/
  axes : List Axis
  /-- `m_num_tiles` -/
  numTiles : ℤ
  /-- `m_prod_tile_dims` -/
  prodTileDims : ℤ
  numTiles_eq : numTiles = toIndex (axes.map Axis.tileEnd).prod

/-- Before the loop of `init_helper`. -/
def initStart : InitState := ⟨[], 1, 1, rfl⟩

/-- One round of the loop of `init_helper`. -/
def initAxis (b : Bounds) (st : InitState) : InitState :=
  let a := b.axis st.axes.isEmpty st.prodTileDims
  { axes := a :: st.axes
    numTiles := toIndex (st.numTiles * a.tileEnd)
    prodTileDims := toIndex (st.prodTileDims * a.tile)
    numTiles_eq := by
      rw [st.numTiles_eq, List.map_cons, List.prod_cons, toIndex_toIndex_mul] }

/-- An `MDRangePolicy`. -/
structure MDRangePolicy where
  /-- `outer_direction` -/
  outer : Iterate
  /-- `inner_direction` -/
  inner : Iterate
  /-- `m_lower`, `m_upper` and `m_tile` -/
  axes : List Axis
  /-- `m_num_tiles` -/
  numTiles : ℤ
  numTiles_eq : numTiles = toIndex (axes.map Axis.tileEnd).prod

/-- The loop of `init_helper`, from the innermost axis outwards. -/
def initLoop (inner : Iterate) (bounds : List Bounds) : InitState :=
  match inner with
  | .right => bounds.foldr initAxis initStart
  | .left => bounds.reverse.foldr initAxis initStart

/-- The constructor.  It aborts if the tiles are too large. -/
def mkPolicy (outer inner : Iterate) (bounds : List Bounds) : Option MDRangePolicy :=
  let st := initLoop inner bounds
  if st.prodTileDims > getTileSizeProperties.maxThreads then none
  else match inner with
    | .right => some ⟨outer, inner, st.axes, st.numTiles, st.numTiles_eq⟩
    | .left => some ⟨outer, inner, st.axes.reverse, st.numTiles, by
        rw [st.numTiles_eq, List.map_reverse, List.prod_reverse]⟩

/-! ### `HostIterateTile` -/

/-- The extent of the tile at `offset` along an axis, as `check_iteration_bounds` computes it. -/
def Axis.partialTile (a : Axis) (offset : ℤ) : ℤ :=
  if offset + a.tile ≤ a.upper then a.tile
  else if a.upper - 1 - offset = 0 then 1
  else if a.upper - a.tile > 0 then a.upper - offset
  else a.upper - a.lower

/-- The loop that turns `tile_idx` into the offset of the tile. -/
def tileOffset : ℤ → List Axis → List ℤ
  | _, [] => []
  | tileIdx, a :: axes =>
    (tileIdx % a.tileEnd * a.tile + a.lower) :: tileOffset (tileIdx / a.tileEnd) axes

/-- `LOOP_R` -/
def loopR : List (ℤ × ℤ) → List (List ℤ)
  | [] => [[]]
  | (offset, extent) :: rest =>
    (Int.range 0 extent).flatMap fun i => (loopR rest).map ((i + offset) :: ·)

/-- `LOOP_L` -/
def loopL (tile : List (ℤ × ℤ)) : List (List ℤ) := (loopR tile.reverse).map List.reverse

namespace MDRangePolicy

variable (p : MDRangePolicy)

/-- `m_offset` -/
def offset (tileIdx : ℤ) : List ℤ :=
  match p.outer with
  | .left => tileOffset tileIdx p.axes
  | .right => (tileOffset tileIdx p.axes.reverse).reverse

/-- `check_iteration_bounds`: whether the tile is full, and `partial_tile`. -/
def checkIterationBounds (offset : List ℤ) : Bool × List ℤ :=
  ((p.axes.zip offset).all fun x => x.2 + x.1.tile ≤ x.1.upper,
    List.zipWith Axis.partialTile p.axes offset)

/-- The offset of a tile and the extent of its loop, along every axis. -/
def tile (tileIdx : ℤ) : List (ℤ × ℤ) :=
  let offset := p.offset tileIdx
  let (fullTile, tileDims) := p.checkIterationBounds offset
  offset.zip (if fullTile then p.axes.map (·.tile) else tileDims)

/-- The indices that `operator()(tile_idx)` calls the functor with. -/
def visit (tileIdx : ℤ) : List (List ℤ) :=
  match p.inner with
  | .left => loopL (p.tile tileIdx)
  | .right => loopR (p.tile tileIdx)

/-- The range of the policy. -/
def range : List (List ℤ) := Tiling.nest (p.axes.map fun a => Int.range a.lower a.upper)

end MDRangePolicy

/-! ### One axis -/

namespace Axis

variable {a : Axis}

theorem length_eq (h : a.lower ≤ a.upper) : a.length = a.upper - a.lower := by
  have hlo := a.lower_nonneg
  have hup := a.upper_lt
  exact Int.emod_eq_of_lt (by omega) (by omega)

theorem tileEnd_nonneg (a : Axis) : 0 ≤ a.tileEnd :=
  Int.ediv_nonneg (Int.emod_nonneg _ (by norm_num)) a.tile_nonneg

/-- The tiles are those that start below the upper bound. -/
theorem lt_tileEnd_iff (h : a.lower ≤ a.upper) (q : ℤ) :
    q < a.tileEnd ↔ q * a.tile + a.lower < a.upper := by
  have hlo := a.lower_nonneg
  have hup := a.upper_lt
  have htile := a.tile_lt
  have hpos := a.tile_pos
  have hsum : toIndex (a.length + a.tile - 1) = a.upper - a.lower + a.tile - 1 := by
    rw [length_eq h]
    exact Int.emod_eq_of_lt (by omega) (by omega)
  rw [tileEnd, hsum, ← Int.add_one_le_iff, Int.le_ediv_iff_mul_le hpos, Int.add_mul, Int.one_mul]
  omega

theorem tileEnd_le_length (h : a.lower ≤ a.upper) : a.tileEnd ≤ a.upper - a.lower := by
  by_contra hlt
  have hpos := a.tile_pos
  have hq := (lt_tileEnd_iff h (a.upper - a.lower)).1 (by omega)
  have hle : a.upper - a.lower ≤ (a.upper - a.lower) * a.tile :=
    le_mul_of_one_le_right (by omega) hpos
  omega

/-- **A tile that sticks out is cut at the upper bound.** -/
theorem partialTile_eq {q : ℤ} (hq : 0 ≤ q) (hlt : q * a.tile + a.lower < a.upper) :
    a.partialTile (q * a.tile + a.lower) =
      min a.tile (a.upper - (q * a.tile + a.lower)) := by
  have hlo := a.lower_nonneg
  have hpos := a.tile_pos
  have hup := a.upper_nonneg
  unfold partialTile
  split_ifs with hfull hone hbig
  · omega
  · omega
  · omega
  · -- the tile is as long as the whole range, so it is the first one
    have hzero : q = 0 := by
      by_contra hne
      have hle : 1 * a.tile ≤ q * a.tile := Int.mul_le_mul_of_nonneg_right (by omega) hpos.le
      omega
    subst hzero
    omega

/-- The part of the axis that tile `q` covers. -/
def tileRange (a : Axis) (q : ℤ) : List ℤ :=
  Int.range (q * a.tile + a.lower) (q * a.tile + a.lower + a.partialTile (q * a.tile + a.lower))

/-- The tiles of an axis follow each other from the lower to the upper bound. -/
theorem flatMap_tileRange (h : a.lower ≤ a.upper) :
    (Int.range 0 a.tileEnd).flatMap a.tileRange = Int.range a.lower a.upper := by
  have hpos := a.tile_pos
  -- the border between tile `k - 1` and tile `k`
  let border : ℤ → ℤ := fun k => min (k * a.tile + a.lower) a.upper
  have hmono : ∀ k l, k ≤ l → border k ≤ border l := fun k l hkl =>
    min_le_min_right _ (Int.add_le_add_right (Int.mul_le_mul_of_nonneg_right hkl hpos.le) _)
  have htile : ∀ q ∈ Int.range 0 a.tileEnd,
      a.tileRange q = Int.range (border q) (border (q + 1)) := by
    intro q hq
    obtain ⟨hq₀, hq₁⟩ := Int.mem_range_iff.1 hq
    have hlt := (lt_tileEnd_iff h q).1 hq₁
    have hnext : (q + 1) * a.tile = q * a.tile + a.tile := by rw [Int.add_mul, Int.one_mul]
    simp only [tileRange, partialTile_eq hq₀ hlt, border, hnext]
    congr 1 <;> omega
  have hfirst : border 0 = a.lower := by simp only [border, Int.zero_mul]; omega
  have hlast : border a.tileEnd = a.upper := by
    have hnot := mt (lt_tileEnd_iff h a.tileEnd).2 (lt_irrefl _)
    simp only [border]
    omega
  calc (Int.range 0 a.tileEnd).flatMap a.tileRange
      = (Int.range 0 a.tileEnd).flatMap fun q => Int.range (border q) (border (q + 1)) :=
        List.flatMap_congr htile
    _ = Int.range (border 0) (border a.tileEnd) :=
        Tiling.flatMap_range_blocks hmono a.tileEnd_nonneg
    _ = Int.range a.lower a.upper := by rw [hfirst, hlast]

end Axis

/-! ### One tile -/

theorem tileOffset_eq (tileIdx : ℤ) (axes : List Axis) : tileOffset tileIdx axes =
    List.zipWith (fun a q => q * a.tile + a.lower) axes
      (Tiling.digits tileIdx (axes.map Axis.tileEnd)) := by
  induction axes generalizing tileIdx with
  | nil => rfl
  | cons a axes ih =>
    simp only [tileOffset, ih, List.map_cons, Tiling.digits, List.zipWith_cons_cons]

theorem loopR_eq (tile : List (ℤ × ℤ)) :
    loopR tile = Tiling.nest (tile.map fun x => Int.range x.1 (x.1 + x.2)) := by
  induction tile with
  | nil => rfl
  | cons x tile ih =>
    have hrange : Int.range x.1 (x.1 + x.2) = (Int.range 0 x.2).map (· + x.1) := by
      rw [← Tiling.range_add_right, Int.zero_add, Int.add_comm]
    rw [loopR, ih, List.map_cons, Tiling.nest_cons, hrange, List.flatMap_map]

theorem loopL_perm (tile : List (ℤ × ℤ)) :
    (loopL tile).Perm (Tiling.nest (tile.map fun x => Int.range x.1 (x.1 + x.2))) := by
  rw [loopL, loopR_eq, List.map_reverse]
  exact Tiling.map_reverse_nest_perm _

/-- A full tile is its own partial tile. -/
theorem zip_map_tile {axes : List Axis} {os : List ℤ}
    (h : ∀ x ∈ axes.zip os, x.2 + x.1.tile ≤ x.1.upper) :
    os.zip (axes.map (·.tile)) = os.zip (List.zipWith Axis.partialTile axes os) := by
  induction axes generalizing os with
  | nil => rfl
  | cons a axes ih =>
    cases os with
    | nil => rfl
    | cons o os =>
      rw [List.zip_cons_cons, List.forall_mem_cons] at h
      rw [List.map_cons, List.zip_cons_cons, List.zipWith_cons_cons, List.zip_cons_cons, ih h.2,
        Axis.partialTile, if_pos h.1]

/-- The ranges of a tile, from its offsets and extents. -/
theorem map_zip_partialTile (axes : List Axis) (ts : List ℤ) :
    let os := List.zipWith (fun (a : Axis) q => q * a.tile + a.lower) axes ts
    (os.zip (List.zipWith Axis.partialTile axes os)).map (fun x => Int.range x.1 (x.1 + x.2)) =
      List.zipWith Axis.tileRange axes ts := by
  induction axes generalizing ts with
  | nil => rfl
  | cons a axes ih =>
    cases ts with
    | nil => rfl
    | cons q ts => exact congrArg _ (ih ts)

namespace MDRangePolicy

variable (p : MDRangePolicy)

/-- The tile numbers that `tile_idx` is split into. -/
def tileNumbers (tileIdx : ℤ) : List ℤ :=
  match p.outer with
  | .left => Tiling.digits tileIdx (p.axes.map Axis.tileEnd)
  | .right => (Tiling.digits tileIdx (p.axes.map Axis.tileEnd).reverse).reverse

theorem length_digits (t : ℤ) (ns : List ℤ) : (Tiling.digits t ns).length = ns.length := by
  induction ns generalizing t with
  | nil => rfl
  | cons n ns ih => rw [Tiling.digits, List.length_cons, ih, List.length_cons]

theorem offset_eq (tileIdx : ℤ) : p.offset tileIdx =
    List.zipWith (fun (a : Axis) q => q * a.tile + a.lower) p.axes (p.tileNumbers tileIdx) := by
  unfold offset tileNumbers
  cases p.outer with
  | left => exact tileOffset_eq _ _
  | right =>
    simp only [tileOffset_eq, List.map_reverse]
    rw [List.reverse_zipWith (by rw [length_digits, List.length_reverse, List.length_reverse,
      List.length_map]), List.reverse_reverse]

theorem tile_eq (tileIdx : ℤ) : p.tile tileIdx =
    (p.offset tileIdx).zip (List.zipWith Axis.partialTile p.axes (p.offset tileIdx)) := by
  unfold tile
  cases hfull : (p.checkIterationBounds (p.offset tileIdx)).1 with
  | false => simp only [hfull, Bool.false_eq_true, ↓reduceIte]; rfl
  | true =>
    simp only [hfull, ↓reduceIte]
    exact zip_map_tile fun x hx => of_decide_eq_true (List.all_eq_true.1 hfull x hx)

/-- The functor is called with the indices of the tile. -/
theorem visit_perm_nest (tileIdx : ℤ) : (p.visit tileIdx).Perm
    (Tiling.nest (List.zipWith Axis.tileRange p.axes (p.tileNumbers tileIdx))) := by
  rw [← map_zip_partialTile, ← offset_eq, ← tile_eq]
  unfold visit
  cases p.inner with
  | left => exact loopL_perm _
  | right => exact List.Perm.of_eq (loopR_eq _)

/-- The bounds of no axis are the wrong way round. -/
def Ordered : Prop := ∀ a ∈ p.axes, a.lower ≤ a.upper

variable {p}

/-- **The number of tiles does not wrap around** when the indices fit `index_type`. -/
theorem numTiles_eq_prod (h : p.Ordered)
    (hsize : (p.axes.map fun a => a.upper - a.lower).prod < 2 ^ 64) :
    p.numTiles = (p.axes.map Axis.tileEnd).prod := by
  have hle : (p.axes.map Axis.tileEnd).prod ≤ (p.axes.map fun a => a.upper - a.lower).prod :=
    List.prod_map_le_prod_map₀ _ _ (fun a _ => a.tileEnd_nonneg)
      fun a ha => Axis.tileEnd_le_length (h a ha)
  have hnonneg : 0 ≤ (p.axes.map Axis.tileEnd).prod :=
    List.prod_nonneg fun n hn => by
      obtain ⟨a, -, rfl⟩ := List.mem_map.1 hn
      exact a.tileEnd_nonneg
  rw [p.numTiles_eq]
  exact Int.emod_eq_of_lt hnonneg (hle.trans_lt hsize)

/-- `tile_idx` counts every tile once. -/
theorem map_tileNumbers_perm (h : p.numTiles = (p.axes.map Axis.tileEnd).prod) :
    ((Int.range 0 p.numTiles).map p.tileNumbers).Perm
      (Tiling.nest (p.axes.map fun a => Int.range 0 a.tileEnd)) := by
  have hmap : p.axes.map (fun a => Int.range 0 a.tileEnd) =
      (p.axes.map Axis.tileEnd).map (Int.range 0) := by rw [List.map_map]; rfl
  have hnonneg : ∀ n ∈ p.axes.map Axis.tileEnd, 0 ≤ n := by
    intro n hn
    obtain ⟨a, -, rfl⟩ := List.mem_map.1 hn
    exact a.tileEnd_nonneg
  rw [h, hmap]
  unfold tileNumbers
  cases p.outer with
  | left => exact Tiling.map_digits_perm hnonneg
  | right =>
    have hrev := (Tiling.map_digits_perm fun n hn => hnonneg n (List.mem_reverse.1 hn)).map
      List.reverse
    rw [List.prod_reverse, List.map_map, List.map_reverse] at hrev
    exact hrev.trans (Tiling.map_reverse_nest_perm _)

/-- **The tiles of a policy visit every index of its range once.** -/
theorem flatMap_visit_perm (h : p.Ordered)
    (hsize : (p.axes.map fun a => a.upper - a.lower).prod < 2 ^ 64) :
    ((Int.range 0 p.numTiles).flatMap p.visit).Perm p.range := by
  have hcount := map_tileNumbers_perm (numTiles_eq_prod h hsize)
  have haxes : (p.axes.map fun a => (Int.range 0 a.tileEnd).flatMap a.tileRange) =
      p.axes.map fun a => Int.range a.lower a.upper :=
    List.map_congr_left fun a ha => Axis.flatMap_tileRange (h a ha)
  have hnest := hcount.flatMap_right fun ts =>
    Tiling.nest (List.zipWith Axis.tileRange p.axes ts)
  rw [List.flatMap_map] at hnest
  have htiles := Tiling.nest_tiles_perm (fun a : Axis => Int.range 0 a.tileEnd) Axis.tileRange
    p.axes
  rw [haxes] at htiles
  have hvisit := List.Perm.flatMap_left (Int.range 0 p.numTiles) fun t _ => visit_perm_nest p t
  exact (hvisit.trans hnest).trans htiles

end MDRangePolicy

/-! ### From the constructor -/

theorem map_axes_foldr (bounds : List Bounds) :
    (bounds.foldr initAxis initStart).axes.map (fun a => (a.lower, a.upper)) =
      bounds.map fun b => (b.lower, b.upper) := by
  induction bounds with
  | nil => rfl
  | cons b bounds ih => rw [List.foldr_cons, initAxis, List.map_cons, ih, List.map_cons]; rfl

theorem map_axes_mkPolicy {outer inner : Iterate} {bounds : List Bounds} {p : MDRangePolicy}
    (h : mkPolicy outer inner bounds = some p) :
    p.axes.map (fun a => (a.lower, a.upper)) = bounds.map fun b => (b.lower, b.upper) := by
  unfold mkPolicy initLoop at h
  cases inner with
  | left =>
    simp only at h
    split_ifs at h
    rw [← Option.some.inj h, List.map_reverse, map_axes_foldr, List.map_reverse,
      List.reverse_reverse]
  | right =>
    simp only at h
    split_ifs at h
    rw [← Option.some.inj h]
    exact map_axes_foldr bounds

/-- The tile size of an axis for which none is given, or `1`. -/
theorem tileSize_cases {b : Bounds} (hb : b.tile ≤ 1) (innermost : Bool) (prodTileDims : ℤ) :
    tileSize innermost prodTileDims b = 1 ∨
      innermost = true ∧ tileSize innermost prodTileDims b = max (toInt b.length) 1 ∨
      toIndex (prodTileDims * 2) < getTileSizeProperties.maxTotalTileSize ∧
        tileSize innermost prodTileDims b = 2 := by
  have htile := b.tile_nonneg
  by_cases hdefault : b.tile ≤ 0
  · cases innermost with
    | true => exact Or.inr (Or.inl ⟨rfl, if_pos hdefault⟩)
    | false =>
      by_cases hsmall : toIndex (prodTileDims * 2) < getTileSizeProperties.maxTotalTileSize
      · exact Or.inr (Or.inr ⟨hsmall, (if_pos hdefault).trans (if_pos hsmall)⟩)
      · exact Or.inl ((if_pos hdefault).trans (if_neg hsmall))
  · have hone : b.tile = 1 := by omega
    exact Or.inl ((if_neg hdefault).trans hone)

/-- With tile sizes `0`, which stands for the default, and `1` the tiles never become too large. -/
theorem prodTileDims_le {bounds : List Bounds} (h : ∀ b ∈ bounds, b.tile ≤ 1) :
    let st := bounds.foldr initAxis initStart
    (st.axes = [] → st.prodTileDims = 1) ∧ 1 ≤ st.prodTileDims ∧
      st.prodTileDims ≤ getTileSizeProperties.maxThreads := by
  induction bounds with
  | nil => decide
  | cons b bounds ih =>
    obtain ⟨hb, hbounds⟩ := List.forall_mem_cons.1 h
    obtain ⟨hfirst, hone, hmax⟩ := ih hbounds
    simp only [List.foldr_cons]
    generalize bounds.foldr initAxis initStart = st at hfirst hone hmax
    have hprod : (initAxis b st).prodTileDims =
        toIndex (st.prodTileDims * tileSize st.axes.isEmpty st.prodTileDims b) := rfl
    refine ⟨fun hnil => absurd hnil (List.cons_ne_nil _ _), ?_⟩
    rw [hprod]
    simp only [getTileSizeProperties] at hmax ⊢
    rcases tileSize_cases hb st.axes.isEmpty st.prodTileDims with hsize | ⟨hempty, hsize⟩ |
      ⟨hsmall, hsize⟩ <;> rw [hsize]
    · rw [Int.mul_one, toIndex]
      omega
    · -- the first axis that is visited
      rw [hfirst (List.isEmpty_iff.1 hempty), toIndex, toInt]
      omega
    · simp only [getTileSizeProperties, toIndex] at hsmall ⊢
      omega

/-- Then the constructor does not abort. -/
theorem exists_mkPolicy (outer inner : Iterate) {bounds : List Bounds}
    (h : ∀ b ∈ bounds, b.tile ≤ 1) : ∃ p, mkPolicy outer inner bounds = some p := by
  have hle : ¬ (initLoop inner bounds).prodTileDims > getTileSizeProperties.maxThreads := by
    rw [gt_iff_lt, not_lt]
    cases inner with
    | right => exact (prodTileDims_le h).2.2
    | left => exact (prodTileDims_le fun b hb => h b (List.mem_reverse.1 hb)).2.2
  unfold mkPolicy
  simp only [if_neg hle]
  cases inner with
  | right => exact ⟨_, rfl⟩
  | left => exact ⟨_, rfl⟩

/-- **What a launch over a policy visits.**  However the policy was constructed, its tiles visit
every index between the bounds once, if the indices can be counted in `index_type`. -/
theorem visit_perm {outer inner : Iterate} {bounds : List Bounds} {p : MDRangePolicy}
    (h : mkPolicy outer inner bounds = some p) (hle : ∀ b ∈ bounds, b.lower ≤ b.upper)
    (hsize : (bounds.map fun b => b.upper - b.lower).prod < 2 ^ 64) :
    ((Int.range 0 p.numTiles).flatMap p.visit).Perm
      (Tiling.nest (bounds.map fun b => Int.range b.lower b.upper)) := by
  have haxes := map_axes_mkPolicy h
  have hordered : p.Ordered := by
    intro a ha
    have hmem : (a.lower, a.upper) ∈ bounds.map fun b => (b.lower, b.upper) := by
      rw [← haxes]
      exact List.mem_map_of_mem ha
    obtain ⟨b, hb, heq⟩ := List.mem_map.1 hmem
    rw [Prod.mk.injEq] at heq
    rw [← heq.1, ← heq.2]
    exact hle b hb
  have hlength := congrArg (List.map fun x : ℤ × ℤ => x.2 - x.1) haxes
  have hrange := congrArg (List.map fun x : ℤ × ℤ => Int.range x.1 x.2) haxes
  simp only [List.map_map] at hlength hrange
  have hperm := MDRangePolicy.flatMap_visit_perm hordered
    ((congrArg List.prod hlength).trans_lt hsize)
  exact hperm.trans (List.Perm.of_eq (congrArg Tiling.nest hrange))

end Kokkos

end KokkosStencil
