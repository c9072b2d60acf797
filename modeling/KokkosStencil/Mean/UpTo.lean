import KokkosStencil.Mean.FivePoint

/-!
# Comparing two memories

`UpTo d a b` says that the byte `a` exceeds the byte `b` by at most `d`.  One relation serves two
purposes: `UpTo 0` is the order of the bytes, and bytes that differ by at most `d` are bytes each of
which is up to `d` above the other (`Within`).

The truncated five-point mean keeps `UpTo d`: five values that are each up to `d` higher have a
sum that is up to `5 * d` higher, and truncation does not lose that (`Cross.mean_upTo`).  So do
the sweeps made of such means (`Cross.simultaneous_upTo`, `Cross.inPlace_upTo`), however long the
chain of updates is.
-/

namespace KokkosStencil

/-- `a` exceeds `b` by at most `d`. -/
def UpTo (d : ℕ) (a b : UInt8) : Prop := a.toNat ≤ b.toNat + d

/-- `a` and `b` differ by at most `d`. -/
def Within (d : ℕ) (a b : UInt8) : Prop := ((a.toNat : ℤ) - b.toNat).natAbs ≤ d

instance (d : ℕ) (a b : UInt8) : Decidable (UpTo d a b) := inferInstanceAs (Decidable (_ ≤ _))

instance (d : ℕ) (a b : UInt8) : Decidable (Within d a b) := inferInstanceAs (Decidable (_ ≤ _))

theorem upTo_zero {a b : UInt8} : UpTo 0 a b ↔ a ≤ b := by
  rw [UInt8.le_iff_toNat_le, UpTo, Nat.add_zero]

theorem within_iff {d : ℕ} {a b : UInt8} : Within d a b ↔ UpTo d a b ∧ UpTo d b a := by
  unfold Within UpTo
  omega

@[simp] theorem UpTo.refl (d : ℕ) (a : UInt8) : UpTo d a a := Nat.le_add_right _ _

/-- Nothing is above white. -/
theorem upTo_white (d : ℕ) (a : UInt8) : UpTo d a 255 := by
  have ha := a.toNat_lt
  have hwhite : (255 : UInt8).toNat = 255 := rfl
  unfold UpTo
  omega

/-- Only black is below black. -/
theorem UpTo.eq_zero {a b : UInt8} (h : UpTo 0 a b) (hb : b = 0) : a = 0 := by
  subst hb
  have hzero : (0 : UInt8).toNat = 0 := rfl
  rw [← UInt8.toNat_inj]
  unfold UpTo at h
  omega

/-- Five values that are each up to `d` higher have a mean that is up to `d` higher. -/
theorem mean5_upTo {d : ℕ} {a b c e f a' b' c' e' f' : UInt8} (ha : UpTo d a a')
    (hb : UpTo d b b') (hc : UpTo d c c') (he : UpTo d e e') (hf : UpTo d f f') :
    UpTo d (mean5 a b c e f) (mean5 a' b' c' e' f') := by
  unfold UpTo at *
  rw [toNat_mean5, toNat_mean5]
  -- the sums differ by at most `5 * d`
  omega

namespace Cross

variable {ι : Type*} {c : Cross ι} {d : ℕ} {m m' : ι → UInt8}

theorem mean_upTo (h : ∀ x, UpTo d (m x) (m' x)) (x : ι) : UpTo d (c.mean m x) (c.mean m' x) :=
  mean5_upTo (h _) (h _) (h _) (h _) (h _)

theorem simultaneous_upTo {S : ι → Prop} [DecidablePred S] (h : ∀ x, UpTo d (m x) (m' x))
    (x : ι) : UpTo d (Sweep.simultaneous S c.mean m x) (Sweep.simultaneous S c.mean m' x) :=
  Sweep.simultaneous_rel (fun _ _ hg p _ => mean_upTo hg p) h x

/-- Every later site inherits the difference of the earlier ones, and still none exceeds `d`. -/
theorem inPlace_upTo [DecidableEq ι] (ps : List ι) (h : ∀ x, UpTo d (m x) (m' x)) (x : ι) :
    UpTo d (Sweep.inPlace c.mean ps m x) (Sweep.inPlace c.mean ps m' x) :=
  Sweep.inPlace_rel (fun _ _ hg p _ => mean_upTo hg p) h x

end Cross

end KokkosStencil
