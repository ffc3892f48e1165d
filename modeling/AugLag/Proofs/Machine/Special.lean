import Mathlib
import AugLag.Scalar.Machine

/-!
# Special values

What machine numbers say about infinities and NaN, whatever they round to: a comparison with NaN does not hold, a NaN
among the factors makes the product NaN, and no product with an infinite factor is finite. Both widths satisfy these
laws (`SpecialValues`).
-/

namespace AugLag

open Scalar in
/-- The order of the numbers and the spread of special values through magnitudes and products. -/
class SpecialValues (T : Type) [Scalar T] : Prop where
  isNaN_of_le {a b : T} : a ≤ b → isNaN a = false ∧ isNaN b = false
  le_total {a b : T} : isNaN a = false → isNaN b = false → a ≤ b ∨ b ≤ a
  le_trans {a b c : T} : a ≤ b → b ≤ c → a ≤ c
  lt_iff {a b : T} : a < b ↔ a ≤ b ∧ ¬b ≤ a
  isFinite_zero : isFinite (0 : T) = true
  isNaN_of_isFinite {a : T} : isFinite a = true → isNaN a = false
  /-- What lies between finite numbers is finite. -/
  isFinite_between {a b c : T} : isFinite a = true → isFinite c = true → a ≤ b → b ≤ c → isFinite b = true
  isNaN_abs (a : T) : isNaN (abs a) = isNaN a
  abs_nonneg {a : T} : isNaN a = false → 0 ≤ abs a
  isFinite_of_abs {a : T} : isFinite (abs a) = true → isFinite a = true
  isNaN_mul {a : T} (b : T) : isNaN a = true → isNaN (a * b) = true
  isFinite_of_mul {a b : T} : isFinite (a * b) = true → isFinite a = true ∧ isFinite b = true
  mul_nonneg {a b : T} : 0 ≤ a → 0 ≤ b → isNaN (a * b) = false → 0 ≤ a * b

/-! ## Order -/

namespace Scalar

variable {T : Type} [Scalar T] [SpecialValues T] {a b x y lo hi : T}

theorem le_refl (ha : isNaN a = false) : a ≤ a := (SpecialValues.le_total ha ha).elim id id

theorem not_lt_of_isNaN (hb : isNaN b = true) : ¬a < b := by
  intro hlt
  have hnan := (SpecialValues.isNaN_of_le (SpecialValues.lt_iff.mp hlt).1).2
  rw [hb] at hnan
  cases hnan

theorem le_of_not_lt (ha : isNaN a = false) (hb : isNaN b = false) (h : ¬a < b) : b ≤ a := by
  rcases SpecialValues.le_total ha hb with hab | hba
  · by_contra hba
    exact h (SpecialValues.lt_iff.mpr ⟨hab, hba⟩)
  · exact hba

theorem not_lt_of_le (h : a ≤ b) : ¬b < a := fun hlt => (SpecialValues.lt_iff.mp hlt).2 h

theorem clamp_of_between (hlo : lo ≤ x) (hhi : x ≤ hi) : clamp x lo hi = x := by
  rw [clamp, if_neg (not_lt_of_le hlo), if_neg (not_lt_of_le hhi)]

/-- What is no NaN is moved into the interval. -/
theorem clamp_between (hx : isNaN x = false) (h : lo ≤ hi) : lo ≤ clamp x lo hi ∧ clamp x lo hi ≤ hi := by
  obtain ⟨hlo, hhi⟩ := SpecialValues.isNaN_of_le h
  unfold clamp
  split
  · exact ⟨le_refl hlo, h⟩
  · next hxlo =>
      split
      · exact ⟨h, le_refl hhi⟩
      · next hxhi => exact ⟨le_of_not_lt hx hlo hxlo, le_of_not_lt hhi hx hxhi⟩

/-- What is not above the interval is not moved down. -/
theorem le_clamp_of_le (h : x ≤ hi) : x ≤ clamp x lo hi := by
  unfold clamp
  split
  · next hlow => exact (SpecialValues.lt_iff.mp hlow).1
  · rw [if_neg (not_lt_of_le h)]
    exact le_refl (SpecialValues.isNaN_of_le h).1

/-- What is not below the interval is not moved up. -/
theorem clamp_le_of_le (h : lo ≤ x) : clamp x lo hi ≤ x := by
  rw [clamp, if_neg (not_lt_of_le h)]
  split
  · next hhigh => exact (SpecialValues.lt_iff.mp hhigh).1
  · exact le_refl (SpecialValues.isNaN_of_le h).2

theorem clamp_mono (hxy : x ≤ y) (h : lo ≤ hi) : clamp x lo hi ≤ clamp y lo hi := by
  obtain ⟨hx, hy⟩ := SpecialValues.isNaN_of_le hxy
  obtain ⟨hlo, hhi⟩ := SpecialValues.isNaN_of_le h
  obtain ⟨hylo, hyhi⟩ := clamp_between hy h
  rw [clamp.eq_def x]
  split
  · exact hylo
  · next hxlo =>
      have hlox := le_of_not_lt hx hlo hxlo
      split
      · next hhix =>
          -- then `y` is beyond the interval, too
          have hhiy : hi < y := SpecialValues.lt_iff.mpr
            ⟨SpecialValues.le_trans (SpecialValues.lt_iff.mp hhix).1 hxy,
              fun hyhi' => (SpecialValues.lt_iff.mp hhix).2 (SpecialValues.le_trans hxy hyhi')⟩
          rw [clamp, if_neg (not_lt_of_le (SpecialValues.le_trans hlox hxy)), if_pos hhiy]
          exact le_refl hhi
      · next hhix =>
          unfold clamp
          rw [if_neg (not_lt_of_le (SpecialValues.le_trans hlox hxy))]
          split
          · exact le_of_not_lt hhi hx hhix
          · exact hxy

end Scalar

/-! ## Unpacked numbers -/

namespace Unpacked

open Float.Model UnpackedFloat

/-- The class of a number, from minus infinity to infinity. -/
def rank : UnpackedFloat → ℤ
  | .infinity .negative => -2
  | .finite .negative _ _ _ => -1
  | .notANumber | .zero _ => 0
  | .finite .positive _ _ _ => 1
  | .infinity .positive => 2

/-- The exponent of a finite number, reversed below zero. -/
def scale : UnpackedFloat → ℤ
  | .finite .negative _ e _ => -e
  | .finite .positive _ e _ => e
  | _ => 0

/-- The signed mantissa of a finite number. -/
def digits : UnpackedFloat → ℤ
  | .finite .negative m _ _ => -m
  | .finite .positive m _ _ => m
  | _ => 0

/-- Numbers that are not NaN are compared by class, exponent and mantissa. -/
def key (u : UnpackedFloat) : ℤ ×ₗ ℤ ×ₗ ℤ := toLex (rank u, toLex (scale u, digits u))

theorem compare_neg (a b : ℤ) : compare (-a) (-b) = compare b a := by
  rcases lt_trichotomy a b with h | rfl | h
  · rw [compare_gt_iff_gt.mpr (neg_lt_neg h), compare_gt_iff_gt.mpr h]
  · rw [compare_eq_iff_eq.mpr rfl, compare_eq_iff_eq.mpr rfl]
  · rw [compare_lt_iff_lt.mpr (neg_lt_neg h), compare_lt_iff_lt.mpr h]

theorem compare_natCast (a b : ℕ) : compare (a : ℤ) b = compare a b := by
  rcases lt_trichotomy a b with h | rfl | h
  · rw [compare_lt_iff_lt.mpr (Int.ofNat_lt.mpr h), compare_lt_iff_lt.mpr h]
  · rw [compare_eq_iff_eq.mpr rfl, compare_eq_iff_eq.mpr rfl]
  · rw [compare_gt_iff_gt.mpr (Int.ofNat_lt.mpr h), compare_gt_iff_gt.mpr h]

theorem compare_key (u v : UnpackedFloat) : compare (key u) (key v) =
    (compare (rank u) (rank v)).then ((compare (scale u) (scale v)).then (compare (digits u) (digits v))) := by
  rw [Prod.Lex.compare_def]
  simp only [compareLex, compareOn, key]
  rw [Prod.Lex.compare_def]
  rfl

theorem compare_eq {u v : UnpackedFloat} (hu : u.isNaN = false) (hv : v.isNaN = false) :
    u.compare v = some (compare (key u) (key v)) := by
  rw [compare_key]
  cases u with
  | notANumber => cases hu
  | infinity s =>
      cases v with
      | notANumber => cases hv
      | infinity t => cases s <;> cases t <;> rfl
      | zero t => cases s <;> rfl
      | finite t m e hm => cases s <;> cases t <;> rfl
  | zero s =>
      cases v with
      | notANumber => cases hv
      | infinity t => cases t <;> rfl
      | zero t => rfl
      | finite t m e hm => cases t <;> rfl
  | finite s m e hm =>
      cases v with
      | notANumber => cases hv
      | infinity t => cases s <;> cases t <;> rfl
      | zero t => cases s <;> rfl
      | finite t m' e' hm' =>
          cases s with
          | negative =>
              cases t with
              | negative =>
                  simp only [UnpackedFloat.compare, rank, scale, digits, compare_neg, compare_natCast,
                    Ordering.swap_then]
                  rw [← Std.OrientedOrd.eq_swap, ← Std.OrientedOrd.eq_swap]
                  rfl
              | positive => rfl
          | positive =>
              cases t with
              | negative => rfl
              | positive =>
                  simp only [UnpackedFloat.compare, rank, scale, digits, compare_natCast]
                  rfl

theorem compare_eq_none {u v : UnpackedFloat} (h : ¬(u.isNaN = false ∧ v.isNaN = false)) : u.compare v = none := by
  cases u with
  | notANumber => cases v <;> rfl
  | infinity s =>
      cases v with
      | notANumber => cases s <;> rfl
      | _ => exact absurd ⟨rfl, rfl⟩ h
  | zero s =>
      cases v with
      | notANumber => cases s <;> rfl
      | _ => exact absurd ⟨rfl, rfl⟩ h
  | finite s m e hm =>
      cases v with
      | notANumber => cases s <;> rfl
      | _ => exact absurd ⟨rfl, rfl⟩ h

theorem le_iff (u v : UnpackedFloat) : u.le v = true ↔ (u.isNaN = false ∧ v.isNaN = false) ∧ key u ≤ key v := by
  by_cases h : u.isNaN = false ∧ v.isNaN = false
  · rw [UnpackedFloat.le, compare_eq h.1 h.2, Option.any_some, ← Ordering.ne_gt_iff_isLE]
    exact compare_le_iff_le.trans (and_iff_right h).symm
  · rw [UnpackedFloat.le, compare_eq_none h]
    simp [h]

theorem lt_iff (u v : UnpackedFloat) : u.lt v = true ↔ u.le v = true ∧ ¬v.le u = true := by
  by_cases h : u.isNaN = false ∧ v.isNaN = false
  · rw [UnpackedFloat.lt, compare_eq h.1 h.2, le_iff, le_iff, and_iff_right h, and_iff_right h.symm, not_le,
      beq_iff_eq, Option.some_inj, compare_lt_iff_lt]
    exact ⟨fun hlt => ⟨hlt.le, hlt⟩, And.right⟩
  · rw [UnpackedFloat.lt, compare_eq_none h, le_iff]
    simp [h]

theorem isFinite_iff (u : UnpackedFloat) : u.isFinite = true ↔ u.isNaN = false ∧ -1 ≤ rank u ∧ rank u ≤ 1 := by
  cases u with
  | notANumber => simp [UnpackedFloat.isFinite, UnpackedFloat.isNaN]
  | infinity s => cases s <;> simp [UnpackedFloat.isFinite, UnpackedFloat.isNaN, rank]
  | zero s => simp [UnpackedFloat.isFinite, UnpackedFloat.isNaN, rank]
  | finite s m e hm => cases s <;> simp [UnpackedFloat.isFinite, UnpackedFloat.isNaN, rank]

theorem rank_le {u v : UnpackedFloat} (h : u.le v = true) : rank u ≤ rank v := by
  have hkey := ((le_iff u v).mp h).2
  rw [Prod.Lex.le_iff] at hkey
  rcases hkey with hlt | ⟨heq, -⟩
  · exact hlt.le
  · exact heq.le

/-! ## Packing -/

variable {spec : Format}

/-- What is read back from a packed number. -/
def repack (spec : Format) (u : UnpackedFloat) : UnpackedFloat := UnpackedFloat.unpack spec (UnpackedFloat.pack spec u)

/-- A number that is neither infinite nor NaN, with its sign. -/
def Ordinary (s : Sign) (u : UnpackedFloat) : Prop := u = .zero s ∨ ∃ m e hm, u = .finite s m e hm

theorem unpack_packedInfinity (s : Sign) : UnpackedFloat.unpack spec (packedInfinity spec s) = .infinity s := by
  simp [UnpackedFloat.unpack, packedInfinity]

theorem unpack_packComponents (s : Sign) {e : BitVec spec.exponentBits} (he : e ≠ -1#_)
    (m : BitVec spec.mantissaBitsWithoutImplicit) :
    Ordinary s (UnpackedFloat.unpack spec (packComponents spec s e m)) := by
  unfold UnpackedFloat.unpack
  simp only [unpackMantissa_packComponents, unpackExponent_packComponents, unpackSign_packComponents,
    Sign.ofBitVec_toBitVec, if_neg he]
  split
  · split
    · exact .inl rfl
    · exact .inr ⟨_, _, _, rfl⟩
  · exact .inr ⟨_, _, _, rfl⟩

theorem zero_ne_neg_one {k : ℕ} (hk : 0 < k) : (0#k) ≠ -1#k := by
  rw [Ne, BitVec.zero_eq_neg_one_iff]
  exact hk.ne'

theorem repack_notANumber : repack spec .notANumber = .notANumber := unpack_packedNaN

theorem repack_infinity (s : Sign) : repack spec (.infinity s) = .infinity s := unpack_packedInfinity s

theorem repack_zero (s : Sign) : repack spec (.zero s) = .zero s := unpack_packedZero

theorem repack_finite (spec : Format) (s : Sign) {m : ℕ} (e : ℤ) (hm : 0 < m) :
    repack spec (.finite s m e hm) = .infinity s ∨ Ordinary s (repack spec (.finite s m e hm)) := by
  unfold repack UnpackedFloat.pack
  simp only
  split
  · exact .inl (unpack_packedInfinity s)
  · next hover =>
      split
      · refine .inr (unpack_packComponents s (fun h => hover ?_) _)
        have hnat := congrArg BitVec.toNat h
        rw [BitVec.neg_one_eq_allOnes, BitVec.toNat_allOnes, BitVec.toNat_ofNat] at hnat
        rw [Nat.mod_eq_of_lt (by omega)] at hnat
        omega
      · exact .inr (unpack_packComponents s (zero_ne_neg_one spec.he) _)

theorem Ordinary.isFinite {s : Sign} {u : UnpackedFloat} (h : Ordinary s u) : u.isFinite = true := by
  rcases h with rfl | ⟨m, e, hm, rfl⟩
  · rfl
  · rfl

theorem isNaN_of_isFinite {u : UnpackedFloat} (h : u.isFinite = true) : u.isNaN = false := ((isFinite_iff u).mp h).1

theorem isNaN_repack (u : UnpackedFloat) : (repack spec u).isNaN = u.isNaN := by
  cases u with
  | notANumber => rw [repack_notANumber]
  | infinity s => rw [repack_infinity]
  | zero s => rw [repack_zero]
  | finite s m e hm =>
      rcases repack_finite spec s e hm with h | h
      · rw [h]
        rfl
      · exact isNaN_of_isFinite h.isFinite

/-- Packing may overflow, but it makes nothing finite. -/
theorem isFinite_of_repack {u : UnpackedFloat} (h : (repack spec u).isFinite = true) : u.isFinite = true := by
  cases u with
  | notANumber => rwa [repack_notANumber] at h
  | infinity s => rwa [repack_infinity] at h
  | zero s => rfl
  | finite s m e hm => rfl

theorem rank_repack_nonneg {u : UnpackedFloat} (h : 0 ≤ rank u) : 0 ≤ rank (repack spec u) := by
  cases u with
  | notANumber => rwa [repack_notANumber]
  | infinity s => rwa [repack_infinity]
  | zero s => rwa [repack_zero]
  | finite s m e hm =>
      cases s with
      | negative => simp [rank] at h
      | positive =>
          rcases repack_finite spec .positive e hm with h | h | ⟨m', e', hm', h⟩
          · rw [h]
            decide
          · rw [h]
            decide
          · rw [h]
            simp [rank]

theorem zero_le_iff (s : Sign) (u : UnpackedFloat) :
    (UnpackedFloat.zero s).le u = true ↔ u.isNaN = false ∧ 0 ≤ rank u := by
  cases u with
  | notANumber => cases s <;> simp [UnpackedFloat.le, UnpackedFloat.compare, UnpackedFloat.isNaN]
  | infinity t =>
      cases t <;> simp [UnpackedFloat.le, UnpackedFloat.compare, UnpackedFloat.isNaN, rank]
  | zero t => simp [UnpackedFloat.le, UnpackedFloat.compare, UnpackedFloat.isNaN, rank]
  | finite t m e hm =>
      cases t <;> simp [UnpackedFloat.le, UnpackedFloat.compare, UnpackedFloat.isNaN, rank]

/-! ## Magnitudes and products -/

theorem isNaN_abs (u : UnpackedFloat) : u.abs.isNaN = u.isNaN := by
  cases u <;> rfl

theorem isFinite_abs (u : UnpackedFloat) : u.abs.isFinite = u.isFinite := by
  cases u <;> rfl

theorem rank_abs_nonneg (u : UnpackedFloat) : 0 ≤ rank u.abs := by
  cases u <;> simp [UnpackedFloat.abs, rank]

theorem ordinary_roundWithAccuracy (spec : Format) (s : Sign) (m : ℕ) (e : ℤ) (accuracy : Accuracy) :
    Ordinary s (roundWithAccuracy spec s m e accuracy) := by
  unfold roundWithAccuracy
  simp only
  split
  · exact .inl rfl
  · exact .inr ⟨_, _, _, rfl⟩

theorem isNaN_mul {u : UnpackedFloat} (v : UnpackedFloat) (h : u.isNaN = true) :
    (UnpackedFloat.mul spec u v).isNaN = true := by
  cases u with
  | notANumber => rfl
  | infinity s => cases h
  | zero s => cases h
  | finite s m e hm => cases h

theorem isFinite_of_mul {u v : UnpackedFloat} (h : (UnpackedFloat.mul spec u v).isFinite = true) :
    u.isFinite = true ∧ v.isFinite = true := by
  cases u with
  | notANumber => cases h
  | infinity s => cases v <;> cases h
  | zero s =>
      cases v with
      | notANumber => cases h
      | infinity t => cases h
      | zero t => exact ⟨rfl, rfl⟩
      | finite t m e hm => exact ⟨rfl, rfl⟩
  | finite s m e hm =>
      cases v with
      | notANumber => cases h
      | infinity t => cases h
      | zero t => exact ⟨rfl, rfl⟩
      | finite t m' e' hm' => exact ⟨rfl, rfl⟩

theorem cases_of_rank_nonneg {u : UnpackedFloat} (h : 0 ≤ rank u) :
    u = .notANumber ∨ u = .infinity .positive ∨ (∃ s, u = .zero s) ∨ ∃ m e hm, u = .finite .positive m e hm := by
  cases u with
  | notANumber => exact .inl rfl
  | infinity s =>
      cases s with
      | negative => simp [rank] at h
      | positive => exact .inr (.inl rfl)
  | zero s => exact .inr (.inr (.inl ⟨s, rfl⟩))
  | finite s m e hm =>
      cases s with
      | negative => simp [rank] at h
      | positive => exact .inr (.inr (.inr ⟨m, e, hm, rfl⟩))

theorem rank_mul_nonneg {u v : UnpackedFloat} (hu : 0 ≤ rank u) (hv : 0 ≤ rank v) :
    0 ≤ rank (UnpackedFloat.mul spec u v) := by
  rcases cases_of_rank_nonneg hu with rfl | rfl | ⟨s, rfl⟩ | ⟨m, e, hm, rfl⟩
  · exact le_rfl
  · rcases cases_of_rank_nonneg hv with rfl | rfl | ⟨t, rfl⟩ | ⟨m', e', hm', rfl⟩
    · exact le_rfl
    · exact zero_le_two
    · exact le_rfl
    · exact zero_le_two
  · rcases cases_of_rank_nonneg hv with rfl | rfl | ⟨t, rfl⟩ | ⟨m', e', hm', rfl⟩
    · exact le_rfl
    · exact le_rfl
    · exact le_rfl
    · exact le_rfl
  · rcases cases_of_rank_nonneg hv with rfl | rfl | ⟨t, rfl⟩ | ⟨m', e', hm', rfl⟩
    · exact le_rfl
    · exact zero_le_two
    · exact le_rfl
    · have hmul : UnpackedFloat.mul spec (.finite .positive m e hm) (.finite .positive m' e' hm') =
          roundWithAccuracy spec .positive (m * m') (e + e') .exact := rfl
      rw [hmul]
      rcases ordinary_roundWithAccuracy spec .positive (m * m') (e + e') .exact with h | ⟨k, f, hk, h⟩
      · rw [h]
        exact le_rfl
      · rw [h]
        exact zero_le_one

end Unpacked

/-! ## Machine numbers -/

open Float.Model (Format UnpackedFloat)

/-- The scalars are the numbers of a binary format: their operations are those of unpacked numbers, packed again. -/
structure Unpacks (T : Type) [Scalar T] (spec : Format) (unpack : T → UnpackedFloat) : Prop where
  le_iff (a b : T) : a ≤ b ↔ (unpack a).le (unpack b) = true
  lt_iff (a b : T) : a < b ↔ (unpack a).lt (unpack b) = true
  isNaN_eq (a : T) : Scalar.isNaN a = (unpack a).isNaN
  isFinite_eq (a : T) : Scalar.isFinite a = (unpack a).isFinite
  zero_eq : unpack 0 = .zero .positive
  abs_eq (a : T) : unpack (Scalar.abs a) = Unpacked.repack spec (unpack a).abs
  mul_eq (a b : T) : unpack (a * b) = Unpacked.repack spec (UnpackedFloat.mul spec (unpack a) (unpack b))

namespace Unpacks

variable {T : Type} [Scalar T] {spec : Format} {unpack : T → UnpackedFloat}

theorem zero_le_iff (h : Unpacks T spec unpack) (a : T) :
    0 ≤ a ↔ Scalar.isNaN a = false ∧ 0 ≤ Unpacked.rank (unpack a) := by
  rw [h.le_iff, h.zero_eq, Unpacked.zero_le_iff, h.isNaN_eq]

theorem specialValues (h : Unpacks T spec unpack) : SpecialValues T where
  isNaN_of_le hab := by
    rw [h.isNaN_eq, h.isNaN_eq]
    exact ((Unpacked.le_iff _ _).mp ((h.le_iff _ _).mp hab)).1
  le_total ha hb := by
    rw [h.isNaN_eq] at ha hb
    rw [h.le_iff, h.le_iff, Unpacked.le_iff, Unpacked.le_iff]
    exact (le_total _ _).imp (⟨⟨ha, hb⟩, ·⟩) (⟨⟨hb, ha⟩, ·⟩)
  le_trans hab hbc := by
    rw [h.le_iff, Unpacked.le_iff] at hab hbc ⊢
    exact ⟨⟨hab.1.1, hbc.1.2⟩, hab.2.trans hbc.2⟩
  lt_iff := by
    intro a b
    rw [h.lt_iff, h.le_iff, h.le_iff]
    exact Unpacked.lt_iff _ _
  isFinite_zero := by
    rw [h.isFinite_eq, h.zero_eq]
    rfl
  isNaN_of_isFinite ha := by
    rw [h.isFinite_eq] at ha
    rw [h.isNaN_eq]
    exact Unpacked.isNaN_of_isFinite ha
  isFinite_between ha hc hab hbc := by
    rw [h.isFinite_eq, Unpacked.isFinite_iff] at ha hc ⊢
    rw [h.le_iff] at hab hbc
    exact ⟨((Unpacked.le_iff _ _).mp hab).1.2, ha.2.1.trans (Unpacked.rank_le hab), (Unpacked.rank_le hbc).trans hc.2.2⟩
  isNaN_abs a := by rw [h.isNaN_eq, h.isNaN_eq, h.abs_eq, Unpacked.isNaN_repack, Unpacked.isNaN_abs]
  abs_nonneg ha := by
    rw [h.isNaN_eq] at ha
    rw [h.zero_le_iff, h.isNaN_eq, h.abs_eq, Unpacked.isNaN_repack, Unpacked.isNaN_abs]
    exact ⟨ha, Unpacked.rank_repack_nonneg (Unpacked.rank_abs_nonneg _)⟩
  isFinite_of_abs ha := by
    rw [h.isFinite_eq, h.abs_eq] at ha
    rw [h.isFinite_eq, ← Unpacked.isFinite_abs]
    exact Unpacked.isFinite_of_repack ha
  isNaN_mul b ha := by
    rw [h.isNaN_eq] at ha
    rw [h.isNaN_eq, h.mul_eq, Unpacked.isNaN_repack]
    exact Unpacked.isNaN_mul _ ha
  isFinite_of_mul hab := by
    rw [h.isFinite_eq, h.mul_eq] at hab
    rw [h.isFinite_eq, h.isFinite_eq]
    exact Unpacked.isFinite_of_mul (Unpacked.isFinite_of_repack hab)
  mul_nonneg ha hb hab := by
    rw [h.zero_le_iff] at ha hb ⊢
    refine ⟨hab, ?_⟩
    rw [h.mul_eq]
    exact Unpacked.rank_repack_nonneg (Unpacked.rank_mul_nonneg ha.2 hb.2)

end Unpacks

theorem unpacks_float : Unpacks Float .binary64 fun a => a.toModel.unpack where
  le_iff _ _ := decide_eq_true_iff
  lt_iff _ _ := decide_eq_true_iff
  isNaN_eq _ := rfl
  isFinite_eq _ := rfl
  zero_eq := rfl
  abs_eq _ := rfl
  mul_eq _ _ := rfl

theorem unpacks_float32 : Unpacks Float32 .binary32 fun a => a.toModel.unpack where
  le_iff _ _ := decide_eq_true_iff
  lt_iff _ _ := decide_eq_true_iff
  isNaN_eq _ := rfl
  isFinite_eq _ := rfl
  zero_eq := rfl
  abs_eq _ := rfl
  mul_eq _ _ := rfl

instance : SpecialValues Float := unpacks_float.specialValues

instance : SpecialValues Float32 := unpacks_float32.specialValues

end AugLag
