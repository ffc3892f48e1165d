import AugLag.Proofs.Machine.Products

/-!
# Units and signs

A product with one is not rounded, the negative of a positive number is negative, and where a number is not zero no other
one stands at its place in the order. Machine numbers of both widths and exact numbers satisfy these laws (`PlainUnits`).
-/

namespace AugLag

/-- One is neutral, and the order tells apart all numbers but the zeros. -/
class PlainUnits (T : Type) [Scalar T] : Prop extends SpecialValues T where
  mul_one (a : T) : a * 1 = a
  neg_of_pos {a : T} : 0 < a → -a < 0
  eq_of_le {a b : T} : 0 < a ∨ a < 0 → a ≤ b → b ≤ a → a = b

namespace Scalar

variable {T : Type} [Scalar T] [PlainUnits T] {limit x : T}

theorem neg_le_of_pos (h : 0 < limit) : -limit ≤ limit :=
  SpecialValues.le_trans (SpecialValues.lt_iff.mp (PlainUnits.neg_of_pos h)).1 (SpecialValues.lt_iff.mp h).1

/-- A clamped value that is not above the lower end is that end. -/
theorem clamp_eq_neg_limit (h : 0 < limit) (hx : isNaN x = false) (hlow : ¬-limit < clamp x (-limit) limit) :
    clamp x (-limit) limit = -limit := by
  have hbetween := clamp_between hx (neg_le_of_pos h)
  have hnan := SpecialValues.isNaN_of_le hbetween.1
  exact (PlainUnits.eq_of_le (.inr (PlainUnits.neg_of_pos h)) hbetween.1 (le_of_not_lt hnan.1 hnan.2 hlow)).symm

/-- A clamped value that is not below the upper end is that end. -/
theorem clamp_eq_limit (h : 0 < limit) (hx : isNaN x = false) (hhigh : ¬clamp x (-limit) limit < limit) :
    clamp x (-limit) limit = limit := by
  have hbetween := clamp_between hx (neg_le_of_pos h)
  have hnan := SpecialValues.isNaN_of_le hbetween.2
  exact (PlainUnits.eq_of_le (.inl h) (le_of_not_lt hnan.1 hnan.2 hhigh) hbetween.2).symm

end Scalar

/-! ## Canonical numbers -/

namespace Unpacked

open Float.Model UnpackedFloat

variable {spec : Format} {s : Sign} {m : ℕ} {e : ℤ} {u v : UnpackedFloat}

/-- Zeros that are shifted out leave no trace. -/
theorem shiftRight_exact (m k : ℕ) :
    ExtendedMantissa.ofMantissaAndAccuracy (m * 2 ^ k) .exact >>> k =
      ExtendedMantissa.ofMantissaAndAccuracy m .exact := by
  induction k generalizing m with
  | zero => exact congrArg (ExtendedMantissa.ofMantissaAndAccuracy · .exact) (Nat.mul_one m)
  | succ k ih =>
      have hstep (em : ExtendedMantissa) : em >>> (k + 1) = (em >>> k).shiftRightOne := rfl
      rw [hstep, pow_succ', ← Nat.mul_assoc, ih]
      simp [ExtendedMantissa.shiftRightOne, ExtendedMantissa.ofMantissaAndAccuracy]

theorem log2_scaled (hm : 0 < m) (k : ℕ) : (m * 2 ^ k).log2 = m.log2 + k := by
  have hpos : 0 < m * 2 ^ k := Nat.mul_pos hm (Nat.two_pow_pos k)
  have hle : k ≤ (m * 2 ^ k).log2 := (Nat.le_log2 hpos.ne').mpr (Nat.le_mul_of_pos_left _ hm)
  have hshifted := log2_shifted (m * 2 ^ k) k
  rw [Nat.mul_div_cancel _ (Nat.two_pow_pos k)] at hshifted
  omega

/-- A canonical number with zeros behind its mantissa is not rounded. -/
theorem roundWithAccuracy_scaled (h : Canonical spec m e) (hm : 0 < m) (k : ℕ) :
    roundWithAccuracy spec s (m * 2 ^ k) (e - k) .exact = .finite s m e hm := by
  have htarget : spec.targetExponent (totalExponent (m * 2 ^ k) (e - k)) = e := by
    have hcanonical := canonical_iff.mp h
    rw [targetExponent_eq, log2_scaled hm]
    omega
  have hshift : (e - (e - k)).toNat = k := by omega
  have hrounded : (ExtendedMantissa.ofMantissaAndAccuracy m .exact).roundedMantissa = m := rfl
  unfold roundWithAccuracy
  simp only [shiftToTargetExponent_eq htarget (by omega), hshift, shiftRight_exact, hrounded,
    shiftToTargetExponent_eq h le_rfl, sub_self, Int.toNat_zero]
  exact dif_neg hm.ne'

theorem mul_one (h : InFormat spec u) : UnpackedFloat.mul spec u (one spec) = u := by
  have hsign (s : Sign) : s * .positive = s := by cases s <;> rfl
  cases u with
  | notANumber => rfl
  | infinity s => exact congrArg _ (hsign s)
  | zero s => exact congrArg _ (hsign s)
  | finite s m e hm =>
      have hmul : UnpackedFloat.mul spec (.finite s m e hm) (one spec) =
          roundWithAccuracy spec (s * .positive) (m * 2 ^ spec.mantissaBitsWithoutImplicit)
            (e + -spec.mantissaBitsWithoutImplicit) .exact := rfl
      rw [hmul, hsign, ← sub_eq_add_neg]
      exact roundWithAccuracy_scaled (h _ _ _ _ rfl) hm _

theorem neg_of_pos (hu : InFormat spec u) (hpos : (UnpackedFloat.zero s).lt u = true) :
    (repack spec u.neg).lt (.zero .positive) = true := by
  rcases cases_of_rank_pos (rank_pos_of_lt hpos) with rfl | ⟨m, e, hm, rfl⟩
  · exact congrArg (UnpackedFloat.lt · _) (repack_infinity .negative)
  · rcases repack_canonical (s := .negative) (hu _ _ _ _ rfl) hm with h | h
    · exact congrArg (UnpackedFloat.lt · _) h
    · exact congrArg (UnpackedFloat.lt · _) h

theorem rank_neg_of_lt (h : u.lt (.zero s) = true) : rank u < 0 := by
  cases u with
  | notANumber => cases h
  | infinity t =>
      cases t with
      | negative => decide
      | positive => cases h
  | zero t => cases h
  | finite t m e hm =>
      cases t with
      | negative => exact Int.negSucc_lt_zero 0
      | positive => cases h

/-- Class, exponent and mantissa make up a number that is neither a zero nor NaN. -/
theorem eq_of_key (hu : rank u ≠ 0) (h : key u = key v) : u = v := by
  simp only [key, EmbeddingLike.apply_eq_iff_eq, Prod.mk.injEq] at h
  obtain ⟨hrank, hscale, hdigits⟩ := h
  cases u with
  | notANumber => exact absurd rfl hu
  | zero s => exact absurd rfl hu
  | infinity s =>
      cases v with
      | notANumber => exact absurd hrank hu
      | zero t => exact absurd hrank hu
      | infinity t => cases s <;> cases t <;> simp [rank] at hrank ⊢
      | finite t m e hm => cases s <;> cases t <;> simp [rank] at hrank
  | finite s m e hm =>
      cases v with
      | notANumber => exact absurd hrank hu
      | zero t => exact absurd hrank hu
      | infinity t => cases s <;> cases t <;> simp [rank] at hrank
      | finite t m' e' hm' =>
          cases s with
          | negative =>
              cases t with
              | negative =>
                  obtain rfl : e = e' := neg_inj.mp hscale
                  obtain rfl : m = m' := Int.ofNat_inj.mp (neg_inj.mp hdigits)
                  rfl
              | positive => simp [rank] at hrank
          | positive =>
              cases t with
              | negative => simp [rank] at hrank
              | positive =>
                  obtain rfl : e = e' := hscale
                  obtain rfl : m = m' := Int.ofNat_inj.mp hdigits
                  rfl

theorem eq_of_le (hu : rank u ≠ 0) (huv : u.le v = true) (hvu : v.le u = true) : u = v :=
  eq_of_key hu (le_antisymm ((le_iff _ _).mp huv).2 ((le_iff _ _).mp hvu).2)

end Unpacked

/-! ## Machine numbers -/

open Float.Model (Format UnpackedFloat)

/-- The scalars are the valid words of a binary format, with its negation. -/
structure UnpacksWords (T : Type) [Scalar T] (spec : Format) (unpack : T → UnpackedFloat) : Prop extends
    UnpacksBits T spec unpack where
  two_le_exponentBits : 2 ≤ spec.exponentBits
  exists_word (a : T) : ∃ b, spec.Valid b ∧ unpack a = UnpackedFloat.unpack spec b
  injective : unpack.Injective
  neg_eq (a : T) : unpack (-a) = Unpacked.repack spec (unpack a).neg

namespace UnpacksWords

variable {T : Type} [Scalar T] {spec : Format} {unpack : T → UnpackedFloat}

theorem repack_unpack (h : UnpacksWords T spec unpack) (a : T) : Unpacked.repack spec (unpack a) = unpack a := by
  obtain ⟨b, hb, heq⟩ := h.exists_word a
  rw [heq, Unpacked.repack, UnpackedFloat.pack_unpack_of_valid hb h.two_le_exponentBits]

theorem plainUnits (h : UnpacksWords T spec unpack) : PlainUnits T where
  toSpecialValues := h.specialValues
  mul_one a := h.injective (by rw [h.mul_eq, h.one_eq, Unpacked.mul_one (h.inFormat a), h.repack_unpack])
  neg_of_pos {a} ha := by
    rw [h.lt_iff, h.zero_eq] at ha ⊢
    rw [h.neg_eq]
    exact Unpacked.neg_of_pos (h.inFormat a) ha
  eq_of_le {a b} ha hab hba := by
    rw [h.le_iff] at hab hba
    refine h.injective (Unpacked.eq_of_le ?_ hab hba)
    rcases ha with ha | ha
    · rw [h.lt_iff, h.zero_eq] at ha
      exact (Unpacked.rank_pos_of_lt ha).ne'
    · rw [h.lt_iff, h.zero_eq] at ha
      exact (Unpacked.rank_neg_of_lt ha).ne

end UnpacksWords

theorem unpacksWords_float : UnpacksWords Float .binary64 fun a => a.toModel.unpack where
  toUnpacksBits := unpacksBits_float
  two_le_exponentBits := by decide
  exists_word a := ⟨a.toModel.toBits.toBitVec, a.toModel.valid, rfl⟩
  injective := by
    rintro ⟨⟨a, ha⟩⟩ ⟨⟨b, hb⟩⟩ h
    obtain rfl := UInt64.toBitVec_inj.mp ((UnpackedFloat.unpack_inj_of_valid ha hb).mp h)
    rfl
  neg_eq _ := rfl

theorem unpacksWords_float32 : UnpacksWords Float32 .binary32 fun a => a.toModel.unpack where
  toUnpacksBits := unpacksBits_float32
  two_le_exponentBits := by decide
  exists_word a := ⟨a.toModel.toBits.toBitVec, a.toModel.valid, rfl⟩
  injective := by
    rintro ⟨⟨a, ha⟩⟩ ⟨⟨b, hb⟩⟩ h
    obtain rfl := UInt32.toBitVec_inj.mp ((UnpackedFloat.unpack_inj_of_valid ha hb).mp h)
    rfl
  neg_eq _ := rfl

instance : PlainUnits Float := unpacksWords_float.plainUnits

instance : PlainUnits Float32 := unpacksWords_float32.plainUnits

/-! ## Exact numbers -/

instance {K : Type} [ExactScalar K] : PlainUnits K where
  mul_one := MulOneClass.mul_one
  neg_of_pos := neg_neg_of_pos
  eq_of_le _ := le_antisymm

end AugLag
