import AugLag.Proofs.Exact.Extended

/-!
# Products that grow

A factor of at least one does not make a positive number smaller, also after rounding and where the product overflows.
Machine numbers of both widths, exact numbers, and exact numbers with infinite ones satisfy this law
(`GrowingProducts`).
-/

namespace AugLag

open Scalar in
/-- A positive number times a factor of at least one is not smaller. -/
class GrowingProducts (T : Type) [Scalar T] : Prop extends SpecialValues T where
  le_mul {a b : T} : 1 ≤ a → 0 < b → b ≤ a * b ∧ b ≤ b * a
  beq_self {a : T} : isNaN a = false → (a == a) = true

/-! ## Canonical numbers -/

namespace Unpacked

open Float.Model UnpackedFloat

variable {spec : Format} {s : Sign} {m a : ℕ} {e f : ℤ}

/-- The exponent is the one that the format asks for. -/
def Canonical (spec : Format) (m : ℕ) (e : ℤ) : Prop := spec.targetExponent (totalExponent m e) = e

theorem targetExponent_eq (spec : Format) (m : ℕ) (e : ℤ) : spec.targetExponent (totalExponent m e) =
    max (m.log2 + e - spec.mantissaBitsWithoutImplicit) spec.minExponent := by
  unfold Format.targetExponent totalExponent Format.mantissaBits
  omega

theorem canonical_iff : Canonical spec m e ↔
    spec.minExponent ≤ e ∧ m.log2 ≤ spec.mantissaBitsWithoutImplicit ∧
      (m.log2 = spec.mantissaBitsWithoutImplicit ∨ e = spec.minExponent) := by
  rw [Canonical, targetExponent_eq]
  omega

theorem minExponent_eq (spec : Format) :
    spec.minExponent = 1 - (spec.exponentBias + spec.mantissaBitsWithoutImplicit) := by
  have hpos : 0 < 2 ^ (spec.exponentBits - 1) := Nat.two_pow_pos _
  unfold Format.minExponent Format.exponentBias Format.mantissaBits
  push_cast [Nat.cast_sub hpos]
  ring

theorem toNat_one_append {w : ℕ} (v : BitVec w) : (1#1 ++ v).toNat = 2 ^ w + v.toNat := by
  rw [BitVec.toNat_append, ← Nat.shiftLeft_add_eq_or_of_lt v.isLt, Nat.shiftLeft_eq]
  simp

/-- A mantissa with the implicit bit is normal. -/
theorem log2_eq_of_normal {w : ℕ} (hlo : 2 ^ w ≤ m) (hhi : m < 2 ^ (w + 1)) : m.log2 = w :=
  (Nat.log2_eq_iff ((Nat.two_pow_pos w).trans_le hlo).ne').mpr ⟨hlo, hhi⟩

theorem canonical_unpack {b : BitVec spec.numBits} {hm : 0 < m}
    (h : UnpackedFloat.unpack spec b = .finite s m e hm) : Canonical spec m e := by
  rw [canonical_iff, minExponent_eq]
  unfold UnpackedFloat.unpack at h
  simp only at h
  split at h
  · split at h
    · cases h
    · cases h
  · split at h
    · next hexponent =>
        split at h
        · cases h
        · next hmantissa =>
            -- subnormal numbers
            cases h
            have hlog : (unpackMantissa b).toNat.log2 < spec.mantissaBitsWithoutImplicit :=
              (Nat.log2_lt hm.ne').mpr (unpackMantissa b).isLt
            rw [hexponent, BitVec.toNat_zero]
            omega
    · next hexponent =>
        cases h
        have hpos : 0 < (unpackExponent b).toNat :=
          Nat.pos_of_ne_zero fun hzero => hexponent (BitVec.eq_of_toNat_eq (hzero.trans BitVec.toNat_zero.symm))
        have hlog : (1#1 ++ unpackMantissa b).toNat.log2 = spec.mantissaBitsWithoutImplicit := by
          have hlt := (unpackMantissa b).isLt
          rw [toNat_one_append]
          exact log2_eq_of_normal (Nat.le_add_right _ _) (by rw [pow_succ]; omega)
        rw [hlog]
        omega

theorem unpack_normal {E : BitVec spec.exponentBits} {M : BitVec spec.mantissaBitsWithoutImplicit} (hE : E ≠ -1#_)
    (hzero : E ≠ 0#_) (hm : 0 < m) (hM : 2 ^ spec.mantissaBitsWithoutImplicit + M.toNat = m)
    (he : (E.toNat : ℤ) - (spec.exponentBias + spec.mantissaBitsWithoutImplicit) = e) :
    UnpackedFloat.unpack spec (packComponents spec s E M) = .finite s m e hm := by
  rw [← toNat_one_append] at hM
  subst hM he
  unfold UnpackedFloat.unpack
  simp only [unpackMantissa_packComponents, unpackExponent_packComponents, unpackSign_packComponents,
    Sign.ofBitVec_toBitVec, if_neg hE, if_neg hzero]

theorem unpack_subnormal {M : BitVec spec.mantissaBitsWithoutImplicit} (hm : 0 < m) (hM : M.toNat = m)
    (he : spec.minExponent = e) :
    UnpackedFloat.unpack spec (packComponents spec s 0#_ M) = .finite s m e hm := by
  have hne : M ≠ 0#_ := by
    rintro rfl
    rw [BitVec.toNat_zero] at hM
    exact hm.ne hM
  subst hM he
  unfold UnpackedFloat.unpack
  simp only [unpackMantissa_packComponents, unpackExponent_packComponents, unpackSign_packComponents,
    Sign.ofBitVec_toBitVec, if_neg (zero_ne_neg_one spec.he), if_true, dif_neg hne, BitVec.toNat_zero]
  rw [minExponent_eq]
  congr 1
  omega

/-- What is canonical is read back, unless it is too large. -/
theorem repack_canonical (h : Canonical spec m e) (hm : 0 < m) :
    repack spec (.finite s m e hm) = .infinity s ∨ repack spec (.finite s m e hm) = .finite s m e hm := by
  obtain ⟨hmin, hlog, hexact⟩ := canonical_iff.mp h
  have hminExponent := minExponent_eq spec
  unfold repack UnpackedFloat.pack
  simp only
  split
  · exact .inl (unpack_packedInfinity s)
  · next hover =>
      right
      split
      · next hnormal =>
          rw [Format.mantissaBits, add_comm, Nat.add_left_cancel_iff] at hnormal
          have hlo : 2 ^ spec.mantissaBitsWithoutImplicit ≤ m := hnormal ▸ Nat.log2_self_le hm.ne'
          have hhi : m < 2 ^ spec.mantissaBitsWithoutImplicit * 2 := by
            rw [← pow_succ, ← hnormal]
            exact Nat.lt_log2_self
          have hbiased : (BitVec.ofNat spec.exponentBits
              (e + spec.exponentBias + spec.mantissaBitsWithoutImplicit).toNat).toNat =
              (e + spec.exponentBias + spec.mantissaBitsWithoutImplicit).toNat := by
            rw [BitVec.toNat_ofNat, Nat.mod_eq_of_lt (by omega)]
          refine unpack_normal (fun hones => hover ?_) (fun hzero => ?_) hm ?_ ?_
          · rw [← hbiased, hones, BitVec.neg_one_eq_allOnes, BitVec.toNat_allOnes]
            omega
          · rw [hzero, BitVec.toNat_zero] at hbiased
            omega
          · rw [BitVec.toNat_ofNat, Nat.mod_eq_sub_mod hlo, Nat.mod_eq_of_lt (by omega)]
            omega
          · rw [hbiased]
            omega
      · next hsubnormal =>
          rw [Format.mantissaBits, add_comm, Nat.add_left_cancel_iff] at hsubnormal
          have hlt : m < 2 ^ spec.mantissaBitsWithoutImplicit := (Nat.log2_lt hm.ne').mp (hlog.lt_of_ne hsubnormal)
          refine unpack_subnormal hm ?_ (hexact.resolve_left hsubnormal).symm
          rw [BitVec.toNat_ofNat, Nat.mod_eq_of_lt hlt]

/-! ## Rounded products -/

theorem mantissa_shiftRight (em : ExtendedMantissa) (k : ℕ) : (em >>> k).mantissa = em.mantissa / 2 ^ k := by
  induction k with
  | zero => exact (Nat.div_one _).symm
  | succ k ih =>
      have hstep : (em >>> (k + 1)).mantissa = (em >>> k).mantissa / 2 := rfl
      rw [hstep, ih, Nat.div_div_eq_div_mul, pow_succ]

theorem le_roundedMantissa (em : ExtendedMantissa) : em.mantissa ≤ em.roundedMantissa := by
  obtain ⟨m, round, sticky⟩ := em
  cases round with
  | false => cases sticky <;> exact le_rfl
  | true =>
      cases sticky with
      | false => exact Nat.le_add_right m (m % 2)
      | true => exact Nat.le_succ m

theorem log2_shifted (m k : ℕ) : (m / 2 ^ k).log2 = m.log2 - k := by
  rw [Nat.log2_eq_log_two, Nat.log2_eq_log_two, Nat.log_div_base_pow]

theorem log2_mono {q r : ℕ} (h : q ≤ r) : q.log2 ≤ r.log2 := by
  rw [Nat.log2_eq_log_two, Nat.log2_eq_log_two]
  exact Nat.log_mono_right h

theorem shifted_pos {k : ℕ} (hm : 0 < m) (hk : k ≤ m.log2) : 0 < m / 2 ^ k :=
  Nat.div_pos ((Nat.pow_le_pow_right two_pos hk).trans (Nat.log2_self_le hm.ne')) (Nat.two_pow_pos k)

theorem shiftToTargetExponent_eq {t : ℤ} (ht : spec.targetExponent (totalExponent m e) = t) (he : e ≤ t) :
    shiftToTargetExponent spec m e .exact =
      (ExtendedMantissa.ofMantissaAndAccuracy m .exact >>> (t - e).toNat, t) := by
  unfold shiftToTargetExponent shiftToExponent
  rw [ht]
  simp only
  congr 1
  omega

/-- Where low digits only are dropped, rounding gives a canonical number. Its exponent is that of the digits that are kept
or larger, and where it is the same the mantissa is not below these digits. -/
theorem roundWithAccuracy_spec {t : ℤ} (ht : spec.targetExponent (totalExponent m e) = t) (he : e ≤ t)
    (hkept : (t - e).toNat ≤ m.log2) (hm : 0 < m) :
    ∃ m' e', ∃ hm' : 0 < m', roundWithAccuracy spec s m e .exact = .finite s m' e' hm' ∧ Canonical spec m' e' ∧
      t ≤ e' ∧ (e' = t → m / 2 ^ (t - e).toNat ≤ m') := by
  generalize hr : (ExtendedMantissa.ofMantissaAndAccuracy m .exact >>> (t - e).toNat).roundedMantissa = r
  have hle : m / 2 ^ (t - e).toNat ≤ r := by
    have hround := le_roundedMantissa (ExtendedMantissa.ofMantissaAndAccuracy m .exact >>> (t - e).toNat)
    rwa [hr, mantissa_shiftRight] at hround
  have hrpos : 0 < r := (shifted_pos hm hkept).trans_le hle
  -- The digits that are kept fill the mantissa unless the number is subnormal, so that the exponent does not fall.
  have hlog := log2_mono hle
  rw [log2_shifted] at hlog
  have hexact := targetExponent_eq spec m e
  generalize hsecond : spec.targetExponent (totalExponent r t) = t'
  have hrounded := targetExponent_eq spec r t
  have htt' : t ≤ t' := by omega
  have hkept' : (t' - t).toNat ≤ r.log2 := by omega
  have hpos : 0 < r / 2 ^ (t' - t).toNat := shifted_pos hrpos hkept'
  refine ⟨r / 2 ^ (t' - t).toNat, t', hpos, ?_, ?_, htt', fun heq => ?_⟩
  · unfold roundWithAccuracy
    simp only [shiftToTargetExponent_eq ht he, hr, shiftToTargetExponent_eq hsecond htt', mantissa_shiftRight]
    exact dif_neg hpos.ne'
  · rw [canonical_iff, log2_shifted]
    omega
  · rw [heq, sub_self, Int.toNat_zero, pow_zero, Nat.div_one]
    exact hle

/-! ## Growth -/

theorem le_finite_iff {hm : 0 < m} {ha : 0 < a} :
    (UnpackedFloat.finite .positive m e hm).le (.finite .positive a f ha) = true ↔ e < f ∨ e = f ∧ m ≤ a := by
  rw [le_iff, and_iff_right ⟨rfl, rfl⟩, key, key, Prod.Lex.toLex_le_toLex]
  simp [rank, scale, digits, Prod.Lex.toLex_le_toLex]

theorem mul_comm (u v : UnpackedFloat) : UnpackedFloat.mul spec u v = UnpackedFloat.mul spec v u := by
  have hsign (s t : Sign) : s * t = t * s := by cases s <;> cases t <;> rfl
  cases u <;> cases v <;> simp [UnpackedFloat.mul, hsign, Nat.mul_comm, Int.add_comm]

/-- The number one. -/
def one (spec : Format) : UnpackedFloat :=
  .finite .positive (2 ^ spec.mantissaBitsWithoutImplicit) (-spec.mantissaBitsWithoutImplicit) (Nat.two_pow_pos _)

/-- A canonical number of at least one is normal. -/
theorem normal_of_one_le (hspec : 2 ≤ spec.exponentBits) (hcanonical : Canonical spec a f) {ha : 0 < a}
    (h : (one spec).le (.finite .positive a f ha) = true) :
    a.log2 = spec.mantissaBitsWithoutImplicit ∧ -spec.mantissaBitsWithoutImplicit ≤ f := by
  have hbias : 1 ≤ spec.exponentBias :=
    Nat.le_sub_of_add_le (Nat.pow_le_pow_right two_pos (Nat.le_sub_of_add_le hspec) : 2 ^ 1 ≤ _)
  obtain ⟨-, hlog, hexact⟩ := canonical_iff.mp hcanonical
  rw [minExponent_eq] at hexact
  rcases le_finite_iff.mp h with hlt | ⟨heq, hle⟩
  · omega
  · have hge := log2_mono hle
    rw [Nat.log2_two_pow] at hge
    omega

theorem le_mul_finite (hm : 0 < m) (ha : 0 < a) (hcanonical : Canonical spec m e)
    (hlog : a.log2 = spec.mantissaBitsWithoutImplicit) (hf : -spec.mantissaBitsWithoutImplicit ≤ f) :
    (UnpackedFloat.finite .positive m e hm).le
      (repack spec (UnpackedFloat.mul spec (.finite .positive a f ha) (.finite .positive m e hm))) = true := by
  obtain ⟨hmin, hfits, hexact⟩ := canonical_iff.mp hcanonical
  have hfull : 2 ^ spec.mantissaBitsWithoutImplicit ≤ a := hlog ▸ Nat.log2_self_le ha.ne'
  -- The digits of `m` are followed by those of the factor.
  have hproduct : m.log2 + spec.mantissaBitsWithoutImplicit ≤ (a * m).log2 := by
    rw [Nat.le_log2 (Nat.mul_pos ha hm).ne', pow_add, Nat.mul_comm]
    exact Nat.mul_le_mul hfull (Nat.log2_self_le hm.ne')
  generalize ht : spec.targetExponent (totalExponent (a * m) (f + e)) = t
  have htarget := targetExponent_eq spec (a * m) (f + e)
  have het : e ≤ t := by omega
  obtain ⟨m', e', hm', hround, hcanonical', hte, hdigits⟩ :=
    roundWithAccuracy_spec (s := .positive) ht (by omega) (by omega) (Nat.mul_pos ha hm)
  have hmul : UnpackedFloat.mul spec (.finite .positive a f ha) (.finite .positive m e hm) = .finite .positive m' e' hm' :=
    hround
  rw [hmul]
  rcases repack_canonical (s := .positive) hcanonical' hm' with hrepack | hrepack
  · rw [hrepack]
    rfl
  · rw [hrepack, le_finite_iff]
    rcases (het.trans hte).lt_or_eq with hlt | rfl
    · exact .inl hlt
    · refine .inr ⟨rfl, le_trans ?_ (hdigits (le_antisymm het hte))⟩
      -- No more digits are dropped than the factor has beyond the leading one.
      rw [Nat.le_div_iff_mul_le (Nat.two_pow_pos _), Nat.mul_comm]
      exact Nat.mul_le_mul_right m ((Nat.pow_le_pow_right two_pos (by omega)).trans hfull)

/-- A number with the exponent that the format asks for, or without one. -/
def InFormat (spec : Format) (u : UnpackedFloat) : Prop := ∀ s m e hm, u = .finite s m e hm → Canonical spec m e

theorem inFormat_unpack (b : BitVec spec.numBits) : InFormat spec (UnpackedFloat.unpack spec b) :=
  fun _ _ _ _ h => canonical_unpack h

theorem cases_of_rank_pos {u : UnpackedFloat} (h : 0 < rank u) :
    u = .infinity .positive ∨ ∃ m e hm, u = .finite .positive m e hm := by
  rcases cases_of_rank_nonneg h.le with rfl | hinfinity | ⟨s, rfl⟩ | hfinite
  · exact absurd h (lt_irrefl 0)
  · exact .inl hinfinity
  · exact absurd h (lt_irrefl 0)
  · exact .inr hfinite

theorem rank_pos_of_lt {u : UnpackedFloat} (h : (UnpackedFloat.zero s).lt u = true) : 0 < rank u := by
  cases u with
  | notANumber => cases h
  | infinity t =>
      cases t with
      | negative => cases h
      | positive => exact two_pos
  | zero t => cases h
  | finite t m e hm =>
      cases t with
      | negative => cases h
      | positive => exact one_pos

theorem le_mul (hspec : 2 ≤ spec.exponentBits) {u v : UnpackedFloat} (hu : InFormat spec u) (hv : InFormat spec v)
    (hone : (one spec).le u = true) (hpos : (UnpackedFloat.zero s).lt v = true) :
    v.le (repack spec (UnpackedFloat.mul spec u v)) = true := by
  rcases cases_of_rank_pos (one_pos.trans_le (rank_le hone)) with rfl | ⟨a, f, ha, rfl⟩
  · rcases cases_of_rank_pos (rank_pos_of_lt hpos) with rfl | ⟨m, e, hm, rfl⟩
    · exact congrArg _ (repack_infinity .positive)
    · exact congrArg _ (repack_infinity .positive)
  · rcases cases_of_rank_pos (rank_pos_of_lt hpos) with rfl | ⟨m, e, hm, rfl⟩
    · exact congrArg _ (repack_infinity .positive)
    · obtain ⟨hlog, hf⟩ := normal_of_one_le hspec (hu _ _ _ _ rfl) hone
      exact le_mul_finite hm ha (hv _ _ _ _ rfl) hlog hf

end Unpacked

/-! ## Machine numbers -/

open Float.Model (Format UnpackedFloat)

/-- The scalars are those of a binary format, with its number one and its comparison for equality. -/
structure UnpacksBits (T : Type) [Scalar T] (spec : Format) (unpack : T → UnpackedFloat) : Prop extends
    Unpacks T spec unpack where
  exists_bits (a : T) : ∃ b, unpack a = UnpackedFloat.unpack spec b
  one_eq : unpack 1 = Unpacked.one spec
  beq_eq (a b : T) : (a == b) = (unpack a).beq (unpack b)

namespace UnpacksBits

variable {T : Type} [Scalar T] {spec : Format} {unpack : T → UnpackedFloat}

theorem inFormat (h : UnpacksBits T spec unpack) (a : T) : Unpacked.InFormat spec (unpack a) := by
  obtain ⟨b, hb⟩ := h.exists_bits a
  exact hb ▸ Unpacked.inFormat_unpack b

theorem growingProducts (h : UnpacksBits T spec unpack) (hspec : 2 ≤ spec.exponentBits) : GrowingProducts T where
  toSpecialValues := h.specialValues
  le_mul {a b} ha hb := by
    rw [h.le_iff, h.one_eq] at ha
    rw [h.lt_iff, h.zero_eq] at hb
    have hle := Unpacked.le_mul hspec (h.inFormat a) (h.inFormat b) ha hb
    rw [h.le_iff, h.le_iff, h.mul_eq, h.mul_eq, Unpacked.mul_comm (unpack b)]
    exact ⟨hle, hle⟩
  beq_self {a} ha := by
    rw [h.isNaN_eq] at ha
    rw [h.beq_eq, UnpackedFloat.beq, Unpacked.compare_eq ha ha, compare_eq_iff_eq.mpr rfl]
    rfl

end UnpacksBits

theorem unpacksBits_float : UnpacksBits Float .binary64 fun a => a.toModel.unpack where
  toUnpacks := unpacks_float
  exists_bits a := ⟨a.toModel.toBits.toBitVec, rfl⟩
  one_eq := rfl
  beq_eq _ _ := rfl

theorem unpacksBits_float32 : UnpacksBits Float32 .binary32 fun a => a.toModel.unpack where
  toUnpacks := unpacks_float32
  exists_bits a := ⟨a.toModel.toBits.toBitVec, rfl⟩
  one_eq := rfl
  beq_eq _ _ := rfl

instance : GrowingProducts Float := unpacksBits_float.growingProducts (by decide)

instance : GrowingProducts Float32 := unpacksBits_float32.growingProducts (by decide)

/-! ## Exact numbers -/

section Exact

variable {K : Type} [ExactScalar K]

instance : SpecialValues K where
  isNaN_of_le _ := ⟨Scalar.isNaN_eq_false _, Scalar.isNaN_eq_false _⟩
  le_total _ _ := le_total _ _
  le_trans := le_trans
  lt_iff := lt_iff_le_not_ge
  isFinite_zero := Scalar.isFinite_eq_true _
  isNaN_of_isFinite _ := Scalar.isNaN_eq_false _
  isFinite_between _ _ _ _ := Scalar.isFinite_eq_true _
  isNaN_abs a := by rw [Scalar.isNaN_eq_false, Scalar.isNaN_eq_false]
  abs_nonneg {a} _ := by
    rw [Scalar.abs_eq_abs]
    exact abs_nonneg a
  isFinite_of_abs _ := Scalar.isFinite_eq_true _
  isNaN_mul b h := by
    rw [Scalar.isNaN_eq_false] at h
    cases h
  isFinite_of_mul _ := ⟨Scalar.isFinite_eq_true _, Scalar.isFinite_eq_true _⟩
  mul_nonneg ha hb _ := mul_nonneg ha hb

instance : GrowingProducts K where
  le_mul ha hb := ⟨le_mul_of_one_le_left hb.le ha, le_mul_of_one_le_right hb.le ha⟩
  beq_self _ := beq_self_eq_true _

namespace Extended

variable {top : K}

theorem stretch_of_pos {x : K} (h : 0 < x) (s : Bool) : (stretch s x : Extended K top) = infinite s := if_pos h

instance : GrowingProducts (Extended K top) where
  le_mul {a b} ha hb := by
    cases a with
    | finite x =>
        have hx : 1 ≤ x := ha
        cases b with
        | finite y =>
            have hy : 0 < y := hb
            exact ⟨le_mul_of_one_le_left hy.le hx, le_mul_of_one_le_right hy.le hx⟩
        | infinite t =>
            cases hb
            have hle : (infinite false : Extended K top) ≤ stretch false x := by
              rw [stretch_of_pos (one_pos.trans_le hx)]
              exact .inr rfl
            exact ⟨hle, hle⟩
        | undefined => exact absurd hb not_lt_undefined
    | infinite s =>
        cases ha
        cases b with
        | finite y =>
            have hle : (finite y : Extended K top) ≤ stretch false y := by
              rw [stretch_of_pos hb]
              rfl
            exact ⟨hle, hle⟩
        | infinite t =>
            cases hb
            exact ⟨.inr rfl, .inr rfl⟩
        | undefined => exact absurd hb not_lt_undefined
    | undefined => exact absurd ha not_le_undefined
  beq_self {a} ha := beq_iff.mpr ⟨rfl, ha⟩

end Extended

end Exact

end AugLag
