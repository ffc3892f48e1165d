import AugLag.Proofs.Exact.Scalar
import AugLag.Proofs.Machine.Special

/-!
# Exact arithmetic with infinite numbers

The numbers of an ordered field, two infinite numbers, and one that is undefined. As long as they are finite numbers
calculate exactly and do not overflow. Infinite and undefined ones follow the rules of machine numbers, except that there
is only one zero.
-/

namespace AugLag

/-- The largest number that counts as such is `top`. A calculation may still go beyond it. -/
inductive Extended (K : Type) (top : K) where
  | finite (x : K)
  | infinite (negative : Bool)
  | undefined
deriving DecidableEq

namespace Extended

variable {K : Type} {top : K}

/-- The finite number, and zero if there is none. -/
def part [Zero K] : Extended K top → K
  | finite x => x
  | _ => 0

def isFinite : Extended K top → Bool
  | finite _ => true
  | _ => false

section Arithmetic

variable [ExactScalar K]

def neg : Extended K top → Extended K top
  | finite x => finite (-x)
  | infinite s => infinite !s
  | undefined => undefined

def add : Extended K top → Extended K top → Extended K top
  | finite x, finite y => finite (x + y)
  | finite _, infinite s => infinite s
  | infinite s, finite _ => infinite s
  | infinite s, infinite t => if s = t then infinite s else undefined
  | _, _ => undefined

/-- An infinite number times a finite one. -/
def stretch (s : Bool) (x : K) : Extended K top :=
  if 0 < x then infinite s else if x < 0 then infinite !s else undefined

def mul : Extended K top → Extended K top → Extended K top
  | finite x, finite y => finite (x * y)
  | finite x, infinite s => stretch s x
  | infinite s, finite x => stretch s x
  | infinite s, infinite t => infinite (s ^^ t)
  | _, _ => undefined

def div : Extended K top → Extended K top → Extended K top
  | finite x, finite y => if y = 0 then stretch false x else finite (x / y)
  | finite _, infinite _ => finite 0
  | infinite s, finite y => infinite (s ^^ decide (y < 0))
  | _, _ => undefined

def lt : Extended K top → Extended K top → Prop
  | finite x, finite y => x < y
  | finite _, infinite s => s = false
  | infinite s, finite _ => s = true
  | infinite s, infinite t => s = true ∧ t = false
  | _, _ => False

def le : Extended K top → Extended K top → Prop
  | finite x, finite y => x ≤ y
  | finite _, infinite s => s = false
  | infinite s, finite _ => s = true
  | infinite s, infinite t => s = true ∨ t = false
  | _, _ => False

def beq : Extended K top → Extended K top → Bool
  | finite x, finite y => x == y
  | infinite s, infinite t => s == t
  | _, _ => false

def sqrt : Extended K top → Extended K top
  | finite x => if x < 0 then undefined else finite (Scalar.sqrt x)
  | infinite false => infinite false
  | _ => undefined

def abs : Extended K top → Extended K top
  | finite x => finite |x|
  | infinite _ => infinite false
  | undefined => undefined

instance : DecidableRel (lt : Extended K top → Extended K top → Prop)
  | finite x, finite y => inferInstanceAs (Decidable (x < y))
  | finite _, infinite s => inferInstanceAs (Decidable (s = false))
  | infinite s, finite _ => inferInstanceAs (Decidable (s = true))
  | infinite s, infinite t => inferInstanceAs (Decidable (s = true ∧ t = false))
  | undefined, _ => isFalse (by simp [lt])
  | finite _, undefined => isFalse (by simp [lt])
  | infinite _, undefined => isFalse (by simp [lt])

instance : DecidableRel (le : Extended K top → Extended K top → Prop)
  | finite x, finite y => inferInstanceAs (Decidable (x ≤ y))
  | finite _, infinite s => inferInstanceAs (Decidable (s = false))
  | infinite s, finite _ => inferInstanceAs (Decidable (s = true))
  | infinite s, infinite t => inferInstanceAs (Decidable (s = true ∨ t = false))
  | undefined, _ => isFalse (by simp [le])
  | finite _, undefined => isFalse (by simp [le])
  | infinite _, undefined => isFalse (by simp [le])

instance : Scalar (Extended K top) where
  zero := finite 0
  one := finite 1
  add := add
  sub x y := add x (neg y)
  mul := mul
  div := div
  neg := neg
  lt := lt
  le := le
  beq := beq
  ofScientific m s e := finite (OfScientific.ofScientific m s e)
  decLt := inferInstanceAs (DecidableRel lt)
  decLe := inferInstanceAs (DecidableRel le)
  sqrt := sqrt
  abs := abs
  isNaN
    | undefined => true
    | _ => false
  isFinite := isFinite
  nan := undefined
  infinity := infinite false
  maxValue := finite top
  ofNat n := finite n
  ratio i n := div (finite i) (finite n)

end Arithmetic

/-- What is printed of numbers that are not finite is left open. -/
instance [ExactMachine K] : MachineScalar (Extended K top) where
  format := MachineScalar.format K
  bits x := MachineScalar.bits x.part
  ofDouble x := finite (MachineScalar.ofDouble x)
  ofSingle x := finite (MachineScalar.ofSingle x)

variable [ExactScalar K]

/-! ## Order -/

section Order

variable {x y : K} {s t : Bool} {a : Extended K top}

@[simp] theorem le_finite_finite : (finite x : Extended K top) ≤ finite y ↔ x ≤ y := Iff.rfl

@[simp] theorem le_finite_infinite : (finite x : Extended K top) ≤ infinite s ↔ s = false := Iff.rfl

@[simp] theorem le_infinite_finite : (infinite s : Extended K top) ≤ finite x ↔ s = true := Iff.rfl

@[simp] theorem le_infinite_infinite : (infinite s : Extended K top) ≤ infinite t ↔ s = true ∨ t = false := Iff.rfl

@[simp] theorem not_undefined_le : ¬(undefined : Extended K top) ≤ a := fun h => h

@[simp] theorem not_le_undefined : ¬a ≤ undefined := by cases a <;> exact fun h => h

@[simp] theorem lt_finite_finite : (finite x : Extended K top) < finite y ↔ x < y := Iff.rfl

@[simp] theorem lt_finite_infinite : (finite x : Extended K top) < infinite s ↔ s = false := Iff.rfl

@[simp] theorem lt_infinite_finite : (infinite s : Extended K top) < finite x ↔ s = true := Iff.rfl

@[simp] theorem lt_infinite_infinite : (infinite s : Extended K top) < infinite t ↔ s = true ∧ t = false := Iff.rfl

@[simp] theorem not_undefined_lt : ¬(undefined : Extended K top) < a := fun h => h

@[simp] theorem not_lt_undefined : ¬a < undefined := by cases a <;> exact fun h => h

@[simp] theorem isNaN_finite : Scalar.isNaN (finite x : Extended K top) = false := rfl

@[simp] theorem isNaN_infinite : Scalar.isNaN (infinite s : Extended K top) = false := rfl

@[simp] theorem isNaN_undefined : Scalar.isNaN (undefined : Extended K top) = true := rfl

end Order

/-! ## Finite numbers -/

theorem zero_eq : (0 : Extended K top) = finite 0 := rfl

theorem one_eq : (1 : Extended K top) = finite 1 := rfl

theorem abs_finite (x : K) : Scalar.abs (finite x : Extended K top) = finite (Scalar.abs x) :=
  congrArg finite (Scalar.abs_eq_abs x).symm

theorem sqrt_finite {x : K} (hx : 0 ≤ x) : Scalar.sqrt (finite x : Extended K top) = finite (Scalar.sqrt x) :=
  if_neg hx.not_gt

theorem recip_finite {x : K} (hx : x ≠ 0) : Scalar.recip (finite x : Extended K top) = finite (Scalar.recip x) :=
  if_neg hx

theorem max_finite (x y : K) : Scalar.max (finite x : Extended K top) (finite y) = finite (Scalar.max x y) := by
  rw [Scalar.max, Scalar.max, isNaN_finite, Scalar.isNaN_eq_false, if_neg Bool.false_ne_true, if_neg Bool.false_ne_true]
  simp only [lt_finite_finite]
  split
  · rfl
  · rfl

theorem eq_finite_of_isFinite {x : Extended K top} (h : Scalar.isFinite x = true) : x = finite x.part := by
  cases x with
  | finite x => rfl
  | infinite s => cases h
  | undefined => cases h

/-! ## Special values -/

theorem isFinite_stretch (s : Bool) (x : K) : Scalar.isFinite (stretch s x : Extended K top) ≠ true := by
  unfold stretch
  split
  · exact nofun
  · split
    · exact nofun
    · exact nofun

theorem zero_le_stretch {x : K} (hx : 0 ≤ x) (h : Scalar.isNaN (stretch false x : Extended K top) = false) :
    (0 : Extended K top) ≤ stretch false x := by
  unfold stretch at h ⊢
  split
  · rfl
  · next hpos =>
      rw [if_neg hpos, if_neg hx.not_gt] at h
      cases h

instance : SpecialValues (Extended K top) where
  isNaN_of_le {a b} h := by cases a <;> cases b <;> simp_all
  le_total {a b} ha hb := by
    cases a with
    | finite x =>
        cases b with
        | finite y => exact le_total x y
        | infinite t => cases t <;> simp
        | undefined => cases hb
    | infinite s => cases b <;> cases s <;> simp_all
    | undefined => cases ha
  le_trans {a b c} hab hbc := by
    cases b with
    | finite y =>
        cases a <;> cases c <;> simp_all
        exact le_trans hab hbc
    | infinite t => cases a <;> cases c <;> cases t <;> simp_all
    | undefined => exact absurd hab not_le_undefined
  lt_iff {a b} := by
    cases a with
    | finite x =>
        cases b with
        | finite y => exact lt_iff_le_not_ge
        | infinite t => simp
        | undefined => simp
    | infinite s => cases b <;> cases s <;> simp
    | undefined => simp
  isFinite_zero := rfl
  isNaN_of_isFinite {a} h := by
    rw [eq_finite_of_isFinite h]
    rfl
  isFinite_between {a b c} ha hc hab hbc := by
    rw [eq_finite_of_isFinite ha] at hab
    rw [eq_finite_of_isFinite hc] at hbc
    cases b with
    | finite y => rfl
    | infinite t => cases hab.symm.trans (le_infinite_finite.mp hbc)
    | undefined => exact absurd hab not_le_undefined
  isNaN_abs a := by cases a <;> rfl
  abs_nonneg {a} h := by
    cases a with
    | finite x => exact abs_nonneg x
    | infinite s => rfl
    | undefined => cases h
  isFinite_of_abs {a} h := by
    cases a with
    | finite x => rfl
    | infinite s => cases h
    | undefined => cases h
  isNaN_mul {a} b h := by
    cases a with
    | finite x => cases h
    | infinite s => cases h
    | undefined => rfl
  isFinite_of_mul {a b} h := by
    cases a with
    | finite x =>
        cases b with
        | finite y => exact ⟨rfl, rfl⟩
        | infinite t => exact absurd h (isFinite_stretch t x)
        | undefined => cases h
    | infinite s =>
        cases b with
        | finite y => exact absurd h (isFinite_stretch s y)
        | infinite t => cases h
        | undefined => cases h
    | undefined => cases h
  mul_nonneg {a b} ha hb h := by
    cases a with
    | finite x =>
        cases b with
        | finite y => exact Left.mul_nonneg ha hb
        | infinite t =>
            cases hb
            exact zero_le_stretch ha h
        | undefined => exact absurd hb not_le_undefined
    | infinite s =>
        cases ha
        cases b with
        | finite y => exact zero_le_stretch hb h
        | infinite t =>
            cases hb
            rfl
        | undefined => exact absurd hb not_le_undefined
    | undefined => exact absurd ha not_le_undefined

theorem eq_of_le_of_not_lt {a b : Extended K top} (h : a ≤ b) (hlt : ¬a < b) : a = b := by
  cases a with
  | finite x =>
      cases b with
      | finite y => exact congrArg finite (le_antisymm h (not_lt.mp hlt))
      | infinite t => exact absurd h hlt
      | undefined => exact absurd h not_le_undefined
  | infinite s =>
      cases b with
      | finite y => exact absurd h hlt
      | infinite t => cases s <;> cases t <;> simp_all
      | undefined => exact absurd h not_le_undefined
  | undefined => exact absurd h not_undefined_le

theorem mul_one_eq {a : Extended K top} (ha : Scalar.isNaN a = false) : a * 1 = a := by
  cases a with
  | finite x => exact congrArg finite (mul_one x)
  | infinite s => exact if_pos one_pos
  | undefined => cases ha

/-- What is no NaN is recovered from its product with a positive factor. -/
theorem mul_mul_inv_cancel {e : K} (he : 0 < e) {a : Extended K top} (ha : Scalar.isNaN a = false) :
    a * finite e * finite e⁻¹ = a := by
  cases a with
  | finite x => exact congrArg finite (mul_inv_cancel_right₀ he.ne' x)
  | infinite s =>
      have hstretch (x : K) (hx : 0 < x) : (infinite s * finite x : Extended K top) = infinite s := if_pos hx
      rw [hstretch e he, hstretch e⁻¹ (inv_pos.mpr he)]
  | undefined => cases ha

theorem beq_iff {a b : Extended K top} : (a == b) = true ↔ a = b ∧ Scalar.isNaN a = false := by
  cases a with
  | finite x =>
      cases b with
      | finite y =>
          show (x == y) = true ↔ _
          rw [beq_iff_eq, finite.injEq]
          exact (and_iff_left rfl).symm
      | infinite t => exact iff_of_false nofun nofun
      | undefined => exact iff_of_false nofun nofun
  | infinite s =>
      cases b with
      | finite y => exact iff_of_false nofun nofun
      | infinite t =>
          show (s == t) = true ↔ _
          rw [beq_iff_eq, infinite.injEq]
          exact (and_iff_left rfl).symm
      | undefined => exact iff_of_false nofun nofun
  | undefined => exact iff_of_false (by cases b <;> exact nofun) nofun

end Extended
end AugLag
