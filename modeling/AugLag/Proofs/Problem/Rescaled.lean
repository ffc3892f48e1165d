import AugLag.Proofs.Machine.Units
import AugLag.Proofs.Problem.Stored

/-!
# Bounds on their way through the scaling

A bound in the units of the problem is clamped and stored times the factor of its row, or it is absent. An update of the
other side multiplies it with the inverse factor and stores it anew. Where the two factors cancel without rounding that
changes nothing, however often it is done.
-/

namespace AugLag

/-- A side of the rows. -/
inductive Side
  | lower
  | upper
deriving DecidableEq, Repr

namespace Side

def other : Side → Side
  | lower => upper
  | upper => lower

/-- What belongs to the side, of something for the lower and something for the upper one. -/
def pick {α : Type} (side : Side) (l u : α) : α :=
  match side with
  | lower => l
  | upper => u

variable {T : Type} [Scalar T]

/-- Where an absent bound stands. -/
def limit (side : Side) (limit : T) : T := side.pick (-limit) limit

/-- A value lies within the limit of the side. -/
def Within (side : Side) (limit v : T) : Prop :=
  match side with
  | lower => -limit < v
  | upper => v < limit

instance (side : Side) (limit v : T) : Decidable (side.Within limit v) :=
  match side with
  | lower => inferInstanceAs (Decidable (-limit < v))
  | upper => inferInstanceAs (Decidable (v < limit))

/-- A bound of the side lets a bound of the other side pass. -/
def InOrder (side : Side) (v w : T) : Prop :=
  match side with
  | lower => v ≤ w
  | upper => w ≤ v

end Side

namespace ScaledProgram

variable {T : Type} [Scalar T] {n m : Nat}

section Definitions

variable (P : ScaledProgram T n m) (side : Side) (i : Fin m)

/-- A stored bound: whether it is present, and its value. -/
def bound : Bool × T := side.pick (P.lowerFinite.get i, P.bmin.get i) (P.upperFinite.get i, P.bmax.get i)

/-- What is stored of a bound in the units of the problem. -/
def stored (v : T) : Bool × T :=
  let v := Scalar.clamp v (-P.limit) P.limit
  if side.Within P.limit v then (true, v * P.scaling.e.get i) else (false, side.limit P.limit)

/-- A stored bound in the units of the problem. -/
def kept (b : Bool × T) : T := if b.1 then b.2 * P.scaling.einv.get i else side.limit P.limit

/-- What an update of the other side makes of a stored bound. -/
def rescaled (b : Bool × T) : Bool × T := P.stored side i (P.kept side i b)

/-- The bound is absent, or the two factors of the row cancel at it. -/
def Recovers (v : T) : Prop :=
  let v := Scalar.clamp v (-P.limit) P.limit
  side.Within P.limit v → v * P.scaling.e.get i * P.scaling.einv.get i = v

instance (v : T) [DecidableEq T] : Decidable (P.Recovers side i v) := inferInstanceAs (Decidable (_ → _))

end Definitions

variable {P : ScaledProgram T n m} {side : Side} {i : Fin m} {v : T}

/-! ## New bounds -/

theorem stored_of_within (h : side.Within P.limit (Scalar.clamp v (-P.limit) P.limit)) :
    P.stored side i v = (true, Scalar.clamp v (-P.limit) P.limit * P.scaling.e.get i) := if_pos h

theorem stored_of_not_within (h : ¬side.Within P.limit (Scalar.clamp v (-P.limit) P.limit)) :
    P.stored side i v = (false, side.limit P.limit) := if_neg h

theorem bound_setBounds (lower upper : Vector T m) :
    (P.setBounds lower upper).bound side i = P.stored side i ((side.pick lower upper).get i) := by
  cases side with
  | lower =>
      simp only [bound, setBounds, stored, Side.pick, Side.Within, Side.limit, Vec.clamp, Vec.get_map, Vec.get_zipWith]
      split <;> simp [*]
  | upper =>
      simp only [bound, setBounds, stored, Side.pick, Side.Within, Side.limit, Vec.clamp, Vec.get_map, Vec.get_zipWith]
      split <;> simp [*]

theorem get_unscaledBound_lower :
    (unscaledBound P.bmin P.lowerFinite P.scaling.einv (Vec.fill m (-P.limit))).get i =
      P.kept .lower i (P.bound .lower i) := by
  rw [unscaledBound, Vec.get_ofFn, Vec.get_fill]
  rfl

theorem get_unscaledBound_upper :
    (unscaledBound P.bmax P.upperFinite P.scaling.einv (Vec.fill m P.limit)).get i =
      P.kept .upper i (P.bound .upper i) := by
  rw [unscaledBound, Vec.get_ofFn, Vec.get_fill]
  rfl

/-! ## Recovered bounds -/

theorem recovers_of_ones [PlainUnits T] (he : P.scaling.e.get i = 1) (heinv : P.scaling.einv.get i = 1) (v : T) :
    P.Recovers side i v := by
  intro _
  rw [he, heinv, PlainUnits.mul_one, PlainUnits.mul_one]

section Laws

variable [PlainUnits T]

/-- A clamped value that is not within the limit of a side is at the limit. -/
theorem clamp_eq_limit (hlimit : 0 < P.limit) (hv : Scalar.isNaN v = false)
    (h : ¬side.Within P.limit (Scalar.clamp v (-P.limit) P.limit)) :
    Scalar.clamp v (-P.limit) P.limit = side.limit P.limit := by
  cases side with
  | lower => exact Scalar.clamp_eq_neg_limit hlimit hv h
  | upper => exact Scalar.clamp_eq_limit hlimit hv h

theorem kept_stored (hlimit : 0 < P.limit) (hv : Scalar.isNaN v = false) (h : P.Recovers side i v) :
    P.kept side i (P.stored side i v) = Scalar.clamp v (-P.limit) P.limit := by
  by_cases hwithin : side.Within P.limit (Scalar.clamp v (-P.limit) P.limit)
  · rw [stored_of_within hwithin]
    exact h hwithin
  · rw [stored_of_not_within hwithin]
    exact (clamp_eq_limit hlimit hv hwithin).symm

theorem stored_clamp (hlimit : 0 < P.limit) (hv : Scalar.isNaN v = false) :
    P.stored side i (Scalar.clamp v (-P.limit) P.limit) = P.stored side i v := by
  obtain ⟨hlow, hhigh⟩ := Scalar.clamp_between hv (Scalar.neg_le_of_pos hlimit)
  rw [stored, stored, Scalar.clamp_of_between hlow hhigh]

/-- A bound at which the factors cancel is not changed by updates of the other side. -/
theorem rescaled_stored (hlimit : 0 < P.limit) (hv : Scalar.isNaN v = false) (h : P.Recovers side i v) :
    P.rescaled side i (P.stored side i v) = P.stored side i v := by
  rw [rescaled, kept_stored hlimit hv h, stored_clamp hlimit hv]

theorem iterate_rescaled_stored (hlimit : 0 < P.limit) (hv : Scalar.isNaN v = false) (h : P.Recovers side i v) (k : ℕ) :
    (P.rescaled side i)^[k] (P.stored side i v) = P.stored side i v :=
  Function.iterate_fixed (rescaled_stored hlimit hv h) k

/-! ## Setup -/

variable {L : QuadraticProgram T n m} {lower upper : Vector T m}

/-- A clamped bound that is marked as present within the limit is what is stored of it, if the factor of the row is one:
an absent bound stands where clamping has put it, which is at the limit. -/
theorem eq_stored_of_one (hlimit : 0 < P.limit) (hv : Scalar.isNaN v = false) (hone : P.scaling.e.get i = 1)
    (h : P.bound side i = (decide (side.Within P.limit (Scalar.clamp v (-P.limit) P.limit)),
      Scalar.clamp v (-P.limit) P.limit)) : P.bound side i = P.stored side i v := by
  rw [h]
  by_cases hwithin : side.Within P.limit (Scalar.clamp v (-P.limit) P.limit)
  · rw [stored_of_within hwithin, decide_eq_true hwithin, hone, PlainUnits.mul_one]
  · rw [stored_of_not_within hwithin, decide_eq_false hwithin, clamp_eq_limit hlimit hv hwithin]

theorem bound_ofProgram (hlimit : 0 < L.limit) (hlower : L.bmin = Vec.clamp lower (-L.limit) L.limit)
    (hupper : L.bmax = Vec.clamp upper (-L.limit) L.limit)
    (hv : Scalar.isNaN ((side.pick lower upper).get i) = false) :
    (ofProgram L).bound side i = (ofProgram L).stored side i ((side.pick lower upper).get i) := by
  refine eq_stored_of_one hlimit hv (Vec.get_fill 1 i) ?_
  cases side with
  | lower =>
      simp only [bound, ofProgram, Side.pick, hlower, Vec.clamp, Vec.get_map]
      rfl
  | upper =>
      simp only [bound, ofProgram, Side.pick, hupper, Vec.clamp, Vec.get_map]
      rfl

/-- After setup the bounds are stored that were given. -/
theorem bound_equilibrate (c : Settings T) (hlimit : 0 < L.limit) (hlower : L.bmin = Vec.clamp lower (-L.limit) L.limit)
    (hupper : L.bmax = Vec.clamp upper (-L.limit) L.limit)
    (hv : Scalar.isNaN ((side.pick lower upper).get i) = false) :
    ((ofProgram L).equilibrate c).bound side i =
      ((ofProgram L).equilibrate c).stored side i ((side.pick lower upper).get i) := by
  unfold ScaledProgram.equilibrate
  split
  · exact bound_ofProgram hlimit hlower hupper hv
  · have hkept := (rounds_keep (S := ofProgram L) (c := c) (List.range c.scalingIter)).1
    simp only
    generalize (List.range c.scalingIter).foldl (fun P _ => equilibrateRound c P) (ofProgram L) = S at hkept
    have hS : (scaleCost c S).limit = L.limit := hkept
    have hclamped : (side.pick L.bmin L.bmax).get i =
        Scalar.clamp ((side.pick lower upper).get i) (-(scaleCost c S).limit) (scaleCost c S).limit := by
      rw [hS, hlower, hupper]
      cases side <;> exact Vec.get_map ..
    show ((scaleCost c S).setBounds L.bmin L.bmax).bound side i = _
    rw [bound_setBounds, hclamped, stored_clamp (hS ▸ hlimit) hv]
    rfl

omit [PlainUnits T] in
/-- Without scaling the factors are ones. -/
theorem ones_equilibrate {c : Settings T} (hc : c.scalingEnable = false) (i : Fin m) :
    ((ofProgram L).equilibrate c).scaling.e.get i = 1 ∧ ((ofProgram L).equilibrate c).scaling.einv.get i = 1 := by
  rw [ScaledProgram.equilibrate, hc]
  exact ⟨Vec.get_fill 1 i, Vec.get_fill 1 i⟩

end Laws

/-! ## Exact numbers -/

section Exact

variable {K : Type} [ExactScalar K]

theorem einv_equilibrate (L : QuadraticProgram K n m) (c : Settings K) (i : Fin m) :
    ((ofProgram L).equilibrate c).scaling.einv.get i = (((ofProgram L).equilibrate c).scaling.e.get i)⁻¹ := by
  unfold ScaledProgram.equilibrate
  split
  · simp [ofProgram, Scaling.identity]
  · exact Vec.get_recip _ i

theorem recovers_of_inverse {P : ScaledProgram K n m} (he : P.scaling.e.get i ≠ 0)
    (heinv : P.scaling.einv.get i = (P.scaling.e.get i)⁻¹) (v : K) : P.Recovers side i v := by
  intro _
  rw [heinv, mul_inv_cancel_right₀ he]

end Exact

end ScaledProgram
end AugLag
