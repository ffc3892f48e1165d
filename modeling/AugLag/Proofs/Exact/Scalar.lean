import Mathlib.Data.Rat.Sqrt
import Mathlib.Analysis.SpecialFunctions.Pow.NNReal
import Mathlib.Tactic
import AugLag.Scalar.Machine

/-!
# Exact arithmetic

The solver is written over any scalars. Here the scalars are those of an ordered field, without rounding,
infinities or NaN, so that a run of the solver can be compared with the mathematics of its problem. The real
numbers are such scalars; the rational numbers are, too, and their runs can be evaluated.
-/

namespace AugLag

/-- Scalars that are exact: their operations are those of an ordered field. Of the square root it is only
required that it is positive on positive numbers. -/
class ExactScalar (K : Type) extends Field K, LinearOrder K, IsStrictOrderedRing K, Scalar K where
  beq_iff (a b : K) : (a == b) = true ↔ a = b
  exact_abs (a : K) : abs a = |a|
  exact_sqrt (a : K) : 0 < a → 0 < sqrt a
  exact_isNaN (a : K) : isNaN a = false
  exact_isFinite (a : K) : isFinite a = true
  exact_ofNat (n : Nat) : ofNat n = (n : K)
  exact_ratio (i n : Nat) : ratio i n = (i : K) / n
  exact_ofScientific (m : Nat) (s : Bool) (e : Nat) :
    ofScientific m s e = if s then (m : K) / 10 ^ e else m * 10 ^ e

/-- Exact scalars that can also be printed. How they are printed is left open. -/
class ExactMachine (K : Type) extends ExactScalar K, MachineScalar K

namespace Scalar

variable {K : Type} [ExactScalar K]

instance : LawfulBEq K where
  eq_of_beq := (ExactScalar.beq_iff _ _).mp
  rfl := (ExactScalar.beq_iff _ _).mpr rfl

@[simp] theorem isNaN_eq_false (a : K) : isNaN a = false := ExactScalar.exact_isNaN a

@[simp] theorem isFinite_eq_true (a : K) : isFinite a = true := ExactScalar.exact_isFinite a

@[simp] theorem abs_eq_abs (a : K) : abs a = |a| := ExactScalar.exact_abs a

theorem sqrt_pos {a : K} (h : 0 < a) : 0 < sqrt a := ExactScalar.exact_sqrt a h

@[simp] theorem recip_eq_inv (a : K) : recip a = a⁻¹ := one_div a

@[simp] theorem max_eq_max (a b : K) : max a b = Max.max a b := by
  rw [max, isNaN_eq_false]
  by_cases h : a < b
  · simp [h, max_eq_right h.le]
  · simp [h, max_eq_left (not_lt.mp h)]

@[simp] theorem min_eq_min (a b : K) : min a b = Min.min a b := by
  rw [min, isNaN_eq_false]
  by_cases h : b < a
  · simp [h, min_eq_right h.le]
  · simp [h, min_eq_left (not_lt.mp h)]

/-- On an interval that is not empty, clamping is the projection. -/
theorem clamp_eq_max_min {x lo hi : K} (h : lo ≤ hi) : clamp x lo hi = Max.max lo (Min.min x hi) := by
  unfold clamp
  by_cases hlo : x < lo
  · rw [if_pos hlo, max_eq_left (min_le_of_left_le hlo.le)]
  · rw [if_neg hlo]
    by_cases hhi : hi < x
    · rw [if_pos hhi, min_eq_right hhi.le, max_eq_right h]
    · rw [if_neg hhi, min_eq_left (not_lt.mp hhi), max_eq_right (not_lt.mp hlo)]

theorem le_clamp {x lo hi : K} (h : lo ≤ hi) : lo ≤ clamp x lo hi := by
  rw [clamp_eq_max_min h]
  exact le_max_left _ _

theorem clamp_le {x lo hi : K} (h : lo ≤ hi) : clamp x lo hi ≤ hi := by
  rw [clamp_eq_max_min h]
  exact max_le h (min_le_right _ _)

theorem clamp_le_clamp {x y lo hi : K} (h : lo ≤ hi) (hxy : x ≤ y) : clamp x lo hi ≤ clamp y lo hi := by
  rw [clamp_eq_max_min h, clamp_eq_max_min h]
  exact max_le_max le_rfl (min_le_min hxy le_rfl)

theorem clamp_eq_self {x lo hi : K} (hlo : lo ≤ x) (hhi : x ≤ hi) : clamp x lo hi = x := by
  rw [clamp, if_neg (not_lt.mpr hlo), if_neg (not_lt.mpr hhi)]

/-- A point beyond its clamped value was cut off at the upper end. -/
theorem clamp_eq_of_clamp_lt {x lo hi : K} (hx : clamp x lo hi < x) : clamp x lo hi = hi := by
  unfold clamp at hx ⊢
  by_cases hlo : x < lo
  · rw [if_pos hlo] at hx
    exact absurd hx hlo.asymm
  · rw [if_neg hlo] at hx ⊢
    by_cases hhi : hi < x
    · rw [if_pos hhi]
    · rw [if_neg hhi] at hx
      exact absurd hx (lt_irrefl x)

/-- A point below its clamped value was cut off at the lower end. -/
theorem clamp_eq_of_lt_clamp {x lo hi : K} (hx : x < clamp x lo hi) : clamp x lo hi = lo := by
  unfold clamp at hx ⊢
  by_cases hlo : x < lo
  · rw [if_pos hlo]
  · rw [if_neg hlo] at hx
    by_cases hhi : hi < x
    · rw [if_pos hhi] at hx
      exact absurd hx hhi.asymm
    · rw [if_neg hhi] at hx
      exact absurd hx (lt_irrefl x)

/-- A shift that pushes against the end that a point lies on does not move the projection. -/
theorem clamp_add_eq {a b lo hi : K} (hlo : lo ≤ a) (hhi : a ≤ hi) (hpos : 0 < b → a = hi)
    (hneg : b < 0 → a = lo) : clamp (a + b) lo hi = a := by
  rcases lt_trichotomy b 0 with hb | rfl | hb
  · rw [clamp, if_pos, hneg hb]
    rw [hneg hb]
    exact add_lt_of_neg_right lo hb
  · rw [add_zero]
    exact clamp_eq_self hlo hhi
  · have hbeyond : hi < a + b := hpos hb ▸ lt_add_of_pos_right a hb
    rw [clamp, if_neg (hlo.trans (lt_add_of_pos_right a hb).le).not_gt, if_pos hbeyond, hpos hb]

theorem ofScientific_eq (m : Nat) (s : Bool) (e : Nat) :
    @OfScientific.ofScientific K toOfScientific m s e = if s then (m : K) / 10 ^ e else m * 10 ^ e :=
  ExactScalar.exact_ofScientific m s e

theorem half_eq : (toOfScientific.ofScientific 5 true 1 : K) = 1 / 2 := by
  rw [ofScientific_eq]
  norm_num

theorem half_mul (a : K) : toOfScientific.ofScientific 5 true 1 * a = a / 2 := by
  rw [half_eq, one_div_mul_eq_div]

end Scalar

/-! ## Instances -/

/-- The real numbers as scalars. No number is infinite or undefined, and zero stands where a run asks for such a number. In
runs on these scalars `Vec.maximum` is therefore the maximum with zero, and `gershgorinBound` is never negative. -/
noncomputable instance : ExactMachine ℝ where
  sqrt := Real.sqrt
  abs a := |a|
  isNaN _ := false
  isFinite _ := true
  nan := 0
  infinity := 0
  maxValue := 0
  ofNat n := n
  ratio i n := i / n
  beq a b := decide (a = b)
  decLt := inferInstance
  decLe := inferInstance
  ofScientific m s e := if s then (m : ℝ) / 10 ^ e else m * 10 ^ e
  format := { width := 0, fraction := 0, minExponent := 0 }
  bits _ := 0
  ofDouble _ := 0
  ofSingle _ := 0
  beq_iff _ _ := decide_eq_true_iff
  exact_abs _ := rfl
  exact_sqrt _ := Real.sqrt_pos.mpr
  exact_isNaN _ := rfl
  exact_isFinite _ := rfl
  exact_ofNat _ := rfl
  exact_ratio _ _ := rfl
  exact_ofScientific _ _ _ := rfl

theorem ratSqrt_pos {a : ℚ} (h : 0 < a) : 0 < Rat.sqrt a := by
  have hnum : 0 < Int.sqrt a.num := by
    obtain ⟨k, hk⟩ := Int.eq_ofNat_of_zero_le (Rat.num_pos.mpr h).le
    have hpos := Rat.num_pos.mpr h
    rw [hk, Int.sqrt_natCast]
    exact_mod_cast Nat.sqrt_pos.mpr (by omega)
  have hden : 0 < Nat.sqrt a.den := Nat.sqrt_pos.mpr a.den_pos
  have hnum' : (0 : ℚ) < Int.sqrt a.num := by exact_mod_cast hnum
  have hden' : (0 : ℚ) < Nat.sqrt a.den := by exact_mod_cast hden
  rw [Rat.sqrt, Rat.mkRat_eq_div]
  positivity

/-- The rational numbers as scalars, with the square root that is exact on squares. As with the real numbers, zero stands
where a run asks for a number that is infinite or undefined. -/
instance : ExactMachine ℚ where
  sqrt := Rat.sqrt
  abs a := |a|
  isNaN _ := false
  isFinite _ := true
  nan := 0
  infinity := 0
  maxValue := 0
  ofNat n := n
  ratio i n := i / n
  beq a b := decide (a = b)
  decLt := inferInstance
  decLe := inferInstance
  ofScientific m s e := if s then (m : ℚ) / 10 ^ e else m * 10 ^ e
  format := { width := 0, fraction := 0, minExponent := 0 }
  bits _ := 0
  ofDouble _ := 0
  ofSingle _ := 0
  beq_iff _ _ := decide_eq_true_iff
  exact_abs _ := rfl
  exact_sqrt _ := ratSqrt_pos
  exact_isNaN _ := rfl
  exact_isFinite _ := rfl
  exact_ofNat _ := rfl
  exact_ratio _ _ := rfl
  exact_ofScientific _ _ _ := rfl

end AugLag
