import KokkosStencil.Image.Basic
import KokkosStencil.Run.ClampedWalk
import KokkosStencil.Run.PingPong

/-!
# Adding noise (`gaussianNoise.cpp`)

Every program disturbs its picture `NOISE_ITER` times.  A `Mat` is a header with a pointer to its
bytes, and the loop exchanges the pointers of two of them, so the bytes live in a heap of two
blocks (`Heap`) and the headers are the pointers `front` and `back` of a `PingPong`.  The field
that `randn` draws in each call is a parameter.

* `addGaussianNoise_eq` : a call overwrites the destination by the disturbed source (`addNoise`);
* `noiseLoop_succ` : after the loop `mColorNoise` has been disturbed in every round, the other
  picture in every round but the last;
* `noiseLoop_applies_rounds` : every byte of `mColorNoise` has been through all rounds in order, and
  no round reads what it has written;
* `toNat_rounds` : byte by byte, the rounds are a walk between the walls `0` and `255`.
-/

namespace KokkosStencil

/-- `Clamp` -/
def clamp (n : ℤ) : UInt8 :=
  let n := if n > 255 then 255 else n
  UInt8.ofNat (if n < 0 then 0 else n).toNat

/-- What `randn` leaves in a `CV_16SC3` matrix. -/
abbrev NoiseField (rows cols : ℕ) := Region (InExtents rows cols) Int16

/-- The two blocks of bytes of a program: that of the picture, and that of `mColorNoise`. -/
inductive Block where
  | picture
  | colorNoise
  deriving DecidableEq

/-- The contents of the two blocks. -/
abbrev Heap (rows cols : ℕ) := Block → Image rows cols

variable {rows cols : ℕ}

/-- The body of the loops of `AddGaussianNoise`, for the pixel at `(Rows, Cols)`.  The source pixel
is copied before the destination is written. -/
def addNoisePixel (noise : NoiseField rows cols) (mSrc mDst : Block) (p : ℤ × ℤ)
    (heap : Heap rows cols) : Heap rows cols :=
  let sourcePixel := fun i => (heap mSrc).read (fun _ => 0) (p.1, p.2, i)
  let noisePixel := fun i => noise.read (fun _ => 0) (p.1, p.2, i)
  (Int.range 0 3).foldl (fun heap i =>
    let destPixel := ((sourcePixel i).toNat : ℤ) + (noisePixel i).toInt
    Function.update heap mDst ((heap mDst).write (p.1, p.2, i) (clamp destPixel))) heap

/-- `AddGaussianNoise`, with the field drawn by `randn`. -/
def addGaussianNoise (noise : NoiseField rows cols) (mSrc mDst : Block) (heap : Heap rows cols) :
    Bool × Heap rows cols :=
  if rows = 0 ∨ cols = 0 then (false, heap)
  else (true, (mdRange2 (0, 0) ((rows : ℤ), (cols : ℤ))).foldl
    (fun heap p => addNoisePixel noise mSrc mDst p heap) heap)

/-! ### One call -/

/-- The picture with the field added and the sums clamped. -/
def addNoise (noise : NoiseField rows cols) (v : Image rows cols) : Image rows cols :=
  fun x => clamp (((v x).toNat : ℤ) + (noise x).toInt)

theorem addNoisePixel_of_ne (noise : NoiseField rows cols) (mSrc mDst : Block) (p : ℤ × ℤ)
    (heap : Heap rows cols) {b : Block} (hb : b ≠ mDst) :
    addNoisePixel noise mSrc mDst p heap b = heap b := by
  have hrange : Int.range 0 3 = [0, 1, 2] := by decide
  simp only [addNoisePixel, hrange, List.foldl_cons, List.foldl_nil, Function.update_of_ne hb]

theorem addNoisePixel_self (noise : NoiseField rows cols) (mSrc mDst : Block) (p : ℤ × ℤ)
    (heap : Heap rows cols) : addNoisePixel noise mSrc mDst p heap mDst =
      Region.scatter (fun x => clamp ((((heap mSrc).read (fun _ => 0) x).toNat : ℤ) +
        (noise.read (fun _ => 0) x).toInt)) (pixelIx p) (heap mDst) := by
  have hrange : Int.range 0 3 = [0, 1, 2] := by decide
  simp only [addNoisePixel, hrange, List.foldl_cons, List.foldl_nil, Function.update_self]
  rfl

/-- The other pixels of the blocks stay as they are. -/
theorem read_addNoisePixel (noise : NoiseField rows cols) (mSrc mDst b : Block) {p : ℤ × ℤ}
    (hp : ∀ x ∈ pixelIx p, InExtents rows cols x) (heap : Heap rows cols) {x : Ix}
    (hx : x ∉ pixelIx p) : (addNoisePixel noise mSrc mDst p heap b).read (fun _ => 0) x =
      (heap b).read (fun _ => 0) x := by
  by_cases hb : b = mDst
  · subst hb
    rw [addNoisePixel_self, Region.read_scatter hp, if_neg hx]
  · rw [addNoisePixel_of_ne noise mSrc mDst p heap hb]

/-- The loop writes the destination only. -/
theorem foldl_addNoisePixel_of_ne (noise : NoiseField rows cols) (mSrc mDst : Block)
    (ps : List (ℤ × ℤ)) (heap : Heap rows cols) {b : Block} (hb : b ≠ mDst) :
    ps.foldl (fun heap p => addNoisePixel noise mSrc mDst p heap) heap b = heap b := by
  induction ps generalizing heap with
  | nil => rfl
  | cons p ps ih => rw [List.foldl_cons, ih, addNoisePixel_of_ne noise mSrc mDst p heap hb]

/-- The loop reads every pixel of the source as it was, even when it writes the source: it reads a
pixel before it writes it. -/
theorem foldl_addNoisePixel_self (noise : NoiseField rows cols) (mSrc mDst : Block)
    {ps : List (ℤ × ℤ)} (hnd : ps.Nodup)
    (hps : ∀ p ∈ ps, ∀ x ∈ pixelIx p, InExtents rows cols x) (heap : Heap rows cols) :
    ps.foldl (fun heap p => addNoisePixel noise mSrc mDst p heap) heap mDst =
      Region.scatter (fun x => clamp ((((heap mSrc).read (fun _ => 0) x).toNat : ℤ) +
        (noise.read (fun _ => 0) x).toInt)) (ps.flatMap pixelIx) (heap mDst) := by
  induction ps generalizing heap with
  | nil => rfl
  | cons p ps ih =>
    obtain ⟨hp, hnd⟩ := List.nodup_cons.1 hnd
    obtain ⟨hpin, hps⟩ := List.forall_mem_cons.1 hps
    rw [List.foldl_cons, ih hnd hps, addNoisePixel_self, List.flatMap_cons, Region.scatter_append]
    refine Region.scatter_congr_values fun x hx => ?_
    have hlater : x ∉ pixelIx p := by
      intro hxp
      obtain ⟨q, hq, hxq⟩ := List.mem_flatMap.1 hx
      obtain rfl : q = p := (mem_pixelIx.1 hxq).1.trans (mem_pixelIx.1 hxp).1.symm
      exact hp hq
    rw [read_addNoisePixel noise mSrc mDst mSrc hpin heap hlater]

/-- **A call of `AddGaussianNoise`** overwrites the destination by the disturbed source and leaves
the other block alone.  (An empty picture has no bytes to write.) -/
theorem addGaussianNoise_eq (noise : NoiseField rows cols) (mSrc mDst : Block)
    (heap : Heap rows cols) : (addGaussianNoise noise mSrc mDst heap).2 =
      Function.update heap mDst (addNoise noise (heap mSrc)) := by
  have hps : ∀ p ∈ mdRange2 (0, 0) ((rows : ℤ), (cols : ℤ)), ∀ x ∈ pixelIx p,
      InExtents rows cols x :=
    fun p hp x hx => mem_flatMap_pixelIx.1 (List.mem_flatMap.2 ⟨p, hp, hx⟩)
  funext b
  by_cases hb : b = mDst
  · subst hb
    rw [Function.update_self]
    refine Region.ext_read (fun _ => 0) fun x hx => ?_
    have hne : ¬ (rows = 0 ∨ cols = 0) := by
      obtain ⟨hi, hj, -⟩ := hx
      omega
    rw [addGaussianNoise, if_neg hne]
    dsimp only
    rw [foldl_addNoisePixel_self noise mSrc b (nodup_mdRange2 _ _) hps,
      Region.read_scatter_of_mem (fun y hy => mem_flatMap_pixelIx.1 hy)
        (mem_flatMap_pixelIx.2 hx), Region.read_of_valid hx, Region.read_of_valid hx,
      Region.read_of_valid hx]
    rfl
  · rw [Function.update_of_ne hb, addGaussianNoise]
    split_ifs
    · rfl
    · exact foldl_addNoisePixel_of_ne noise mSrc mDst _ heap hb

/-! ### The noise loop -/

/-- The headers of a program and the bytes behind them: `front` is the `data` pointer of the
picture, `back` that of `mColorNoise`. -/
abbrev Mats (rows cols : ℕ) := PingPong Block (Image rows cols)

/-- The picture `img` and a freshly allocated `mColorNoise`, whose bytes are arbitrary. -/
def Mats.start (img fresh : Image rows cols) : Mats rows cols where
  heap
    | .picture => img
    | .colorNoise => fresh
  front := .picture
  back := .colorNoise

/-- Round `i` of the noise loop. -/
def noiseRound (noiseIter : ℕ) (noise : ℕ → NoiseField rows cols) (i : ℕ) (s : Mats rows cols) :
    Mats rows cols :=
  let s := { s with heap := (addGaussianNoise (noise i) s.front s.back s.heap).2 }
  if (i : ℤ) < noiseIter - 1 then { s with front := s.back, back := s.front } else s

/-- `for (int i = 0; i < NOISE_ITER; ++i)` -/
def noiseLoop (noiseIter : ℕ) (noise : ℕ → NoiseField rows cols) (s : Mats rows cols) :
    Mats rows cols :=
  (List.range noiseIter).foldl (fun s i => noiseRound noiseIter noise i s) s

/-- The picture after `t` rounds of noise. -/
def rounds (noise : ℕ → NoiseField rows cols) (img : Image rows cols) : ℕ → Image rows cols :=
  PingPong.stages (fun i => addNoise (noise i)) img

variable (noise : ℕ → NoiseField rows cols)

theorem holds_start (img fresh : Image rows cols) : (Mats.start img fresh).Holds img := by
  refine ⟨?_, rfl⟩
  simp only [Mats.start]
  decide

/-- A round of the noise loop is a round of ping-pong. -/
theorem noiseRound_eq (noiseIter i : ℕ) (s : Mats rows cols) :
    noiseRound noiseIter noise i s =
      PingPong.round noiseIter (fun i => addNoise (noise i)) i s := by
  simp only [noiseRound, addGaussianNoise_eq (noise i)]
  rfl

theorem noiseRound_ne (noiseIter i : ℕ) {s : Mats rows cols} (h : s.front ≠ s.back) :
    (noiseRound noiseIter noise i s).front ≠ (noiseRound noiseIter noise i s).back := by
  simp only [noiseRound]
  split_ifs
  · exact h.symm
  · exact h

/-- **The noise loop is a ping-pong loop.** -/
theorem noiseLoop_eq (noiseIter : ℕ) (s : Mats rows cols) :
    noiseLoop noiseIter noise s =
      PingPong.loop noiseIter (fun i => addNoise (noise i)) s :=
  List.foldl_ext _ _ _ fun s i _ => noiseRound_eq noise noiseIter i s

/-- **What the noise loop leaves**, for `NOISE_ITER = n + 1`. -/
theorem noiseLoop_succ (n : ℕ) (img fresh : Image rows cols) :
    let s := noiseLoop (n + 1) noise (Mats.start img fresh)
    s.heap s.front = rounds noise img n ∧ s.heap s.back = rounds noise img (n + 1) := by
  have hstart := holds_start img fresh
  obtain ⟨hfront, hback⟩ := PingPong.loop_succ (f := fun i => addNoise (noise i)) n hstart
  rw [noiseLoop_eq]
  exact ⟨hfront.2, hback⟩

/-- The state before round `i` of a loop of `noiseIter` rounds; before round `noiseIter`, the state
the loop leaves. -/
def beforeRound (noiseIter : ℕ) (noise : ℕ → NoiseField rows cols) (i : ℕ) (s : Mats rows cols) :
    Mats rows cols :=
  (List.range i).foldl (fun s i => noiseRound noiseIter noise i s) s

/-- In no round do the pointers denote the same block. -/
theorem beforeRound_ne (noiseIter i : ℕ) {s : Mats rows cols} (h : s.front ≠ s.back) :
    (beforeRound noiseIter noise i s).front ≠ (beforeRound noiseIter noise i s).back := by
  induction i with
  | zero => exact h
  | succ i ih =>
    rw [beforeRound, List.range_succ, List.foldl_append]
    exact noiseRound_ne noise noiseIter i ih

/-- What the rounds make of a byte. -/
theorem rounds_apply (img : Image rows cols) (x : {x : Ix // InExtents rows cols x}) (t : ℕ) :
    rounds noise img t x = (List.range t).foldl
      (fun b i => clamp ((b.toNat : ℤ) + (noise i x).toInt)) (img x) := by
  induction t with
  | zero => rfl
  | succ t ih =>
    rw [List.range_succ, List.foldl_append, ← ih]
    rfl

/-- **The noise loop loses and repeats no round**, for `NOISE_ITER = n + 1`.  In the end every byte
of `mColorNoise` has been through the rounds once each and in order.  Before every round the source
and the destination are different blocks, and whatever pixels of the round have been written, the
source is as it was. -/
theorem noiseLoop_applies_rounds (n : ℕ) (img fresh : Image rows cols) :
    (∀ x, (noiseLoop (n + 1) noise (Mats.start img fresh)).heap
        (noiseLoop (n + 1) noise (Mats.start img fresh)).back x =
          (List.range (n + 1)).foldl (fun b i => clamp ((b.toNat : ℤ) + (noise i x).toInt))
            (img x)) ∧
      ∀ i ≤ n,
        let s := beforeRound (n + 1) noise i (Mats.start img fresh)
        s.front ≠ s.back ∧ ∀ ps : List (ℤ × ℤ),
          ps.foldl (fun heap p => addNoisePixel (noise i) s.front s.back p heap) s.heap s.front =
            s.heap s.front := by
  constructor
  · intro x
    obtain ⟨-, hback⟩ := noiseLoop_succ noise n img fresh
    rw [hback, rounds_apply]
  · intro i _ s
    have hne : s.front ≠ s.back := beforeRound_ne noise (n + 1) i (holds_start img fresh).1
    exact ⟨hne, fun ps => foldl_addNoisePixel_of_ne (noise i) _ _ ps _ hne⟩

/-! ### Byte by byte -/

theorem toNat_clamp (n : ℤ) : ((clamp n).toNat : ℤ) = ClampedWalk.clamp 255 n := by
  have hle : (if (if n > 255 then 255 else n) < 0 then 0 else
      if n > 255 then 255 else n) ≤ 255 := by
    split_ifs <;> omega
  have hsize : (if (if n > 255 then 255 else n) < 0 then 0 else
      if n > 255 then 255 else n).toNat < UInt8.size := by
    simp only [UInt8.size]
    omega
  simp only [clamp]
  rw [UInt8.toNat_ofNat_of_lt' hsize, ClampedWalk.clamp]
  split_ifs <;> omega

/-- What `randn` gives byte `x` in every round. -/
def pushes (noise : ℕ → NoiseField rows cols) (x : {x : Ix // InExtents rows cols x}) (t : ℕ) : ℤ :=
  (noise t x).toInt

/-- **Every byte walks between the walls.** -/
theorem toNat_rounds (img : Image rows cols) (x : {x : Ix // InExtents rows cols x}) (t : ℕ) :
    ((rounds noise img t x).toNat : ℤ) =
      ClampedWalk.walk 255 (img x).toNat (pushes noise x) t := by
  induction t with
  | zero => rfl
  | succ t ih =>
    rw [ClampedWalk.walk, ← ih]
    exact toNat_clamp _

end KokkosStencil
