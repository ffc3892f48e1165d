import Mathlib
import AugLag.Problem.Input
import AugLag.Proofs.Problem.Stored
import AugLag.Proofs.Problem.Valid

/-!
# Bounds of a program

Whatever a problem, its settings and the limit are, no row is left with two bounds that exclude each other, and absent
bounds stand at the limit. Setting up a problem and replacing its bounds both keep this.
-/

namespace AugLag

variable {K : Type} [ExactScalar K] {n m : Nat}

/-- Only under a positive limit does a clamped value come to lie inside. -/
theorem Scalar.limit_pos_of_lt_clamp {x limit : K} (h : -limit < clamp x (-limit) limit) : 0 < limit := by
  by_contra hnot
  unfold clamp at h
  split at h
  · exact lt_irrefl _ h
  · next hlow =>
      split at h
      · linarith
      · next hhigh => linarith

namespace ScaledProgram

/-- The factors of the rows are positive, two present bounds of a row are in order, and the limit stands in the place of
absent ones. -/
structure Bounded (S : ScaledProgram K n m) : Prop where
  e_pos : ∀ i, 0 < S.scaling.e.get i
  bmin_le_bmax : ∀ i, S.lowerFinite.get i = true → S.upperFinite.get i = true → S.bmin.get i ≤ S.bmax.get i
  lower_absent : 0 ≤ S.limit → ∀ i, S.lowerFinite.get i = false → S.bmin.get i = -S.limit
  upper_absent : 0 ≤ S.limit → ∀ i, S.upperFinite.get i = false → S.bmax.get i = S.limit

theorem clamp_get_le {lower upper : Vector K m} {limit : K} (hle : ∀ i, lower.get i ≤ upper.get i) (hlimit : 0 ≤ limit)
    (i : Fin m) : (Vec.clamp lower (-limit) limit).get i ≤ (Vec.clamp upper (-limit) limit).get i := by
  rw [Vec.get_clamp, Vec.get_clamp]
  exact Scalar.clamp_le_clamp (by linarith) (hle i)

/-! ## New bounds -/

/-- Where the limit is negative, bounds may be put in that are out of order, since none of them will be present. -/
theorem bounded_setBounds {S : ScaledProgram K n m} (he : ∀ i, 0 < S.scaling.e.get i) {lower upper : Vector K m}
    (hle : 0 ≤ S.limit → ∀ i, lower.get i ≤ upper.get i) : (S.setBounds lower upper).Bounded where
  e_pos := he
  bmin_le_bmax i hlower hupper := by
    simp only [setBounds, Vec.get_map, Vec.get_clamp, Vec.get_zipWith, decide_eq_true_eq] at hlower hupper ⊢
    have hlimit := (Scalar.limit_pos_of_lt_clamp hlower).le
    rw [if_pos hlower, if_pos hupper]
    exact mul_le_mul_of_nonneg_right (Scalar.clamp_le_clamp (by linarith) (hle hlimit i)) (he i).le
  lower_absent _ i habsent := by
    simp only [setBounds, Vec.get_map, Vec.get_clamp, Vec.get_zipWith, decide_eq_false_iff_not] at habsent ⊢
    rw [if_neg habsent]
  upper_absent _ i habsent := by
    simp only [setBounds, Vec.get_map, Vec.get_clamp, Vec.get_zipWith, decide_eq_false_iff_not] at habsent ⊢
    rw [if_neg habsent]

/-! ## Setup -/

variable {L : QuadraticProgram K n m} {lower upper : Vector K m} {c : Settings K}

theorem bounded_ofProgram (hlower : L.bmin = Vec.clamp lower (-L.limit) L.limit)
    (hupper : L.bmax = Vec.clamp upper (-L.limit) L.limit) (hle : ∀ i, lower.get i ≤ upper.get i) :
    (ofProgram L).Bounded where
  e_pos i := by simp [ofProgram, Scaling.identity]
  bmin_le_bmax i hpresent _ := by
    simp only [ofProgram, Vec.get_map, decide_eq_true_eq, hlower, Vec.get_clamp] at hpresent
    show L.bmin.get i ≤ L.bmax.get i
    rw [hlower, hupper]
    exact clamp_get_le hle (Scalar.limit_pos_of_lt_clamp hpresent).le i
  lower_absent hlimit i habsent := by
    have hnonneg : 0 ≤ L.limit := hlimit
    simp only [ofProgram, Vec.get_map, decide_eq_false_iff_not, hlower, Vec.get_clamp] at habsent ⊢
    exact le_antisymm (not_lt.mp habsent) (Scalar.le_clamp (by linarith))
  upper_absent hlimit i habsent := by
    have hnonneg : 0 ≤ L.limit := hlimit
    simp only [ofProgram, Vec.get_map, decide_eq_false_iff_not, hupper, Vec.get_clamp] at habsent ⊢
    exact le_antisymm (Scalar.clamp_le (by linarith)) (not_lt.mp habsent)

theorem e_pos_rounds (hpos : ∀ s, 0 < limitNorm c s) (l : List Nat) {S : ScaledProgram K n m}
    (h : ∀ i, 0 < S.scaling.e.get i) (i : Fin m) :
    0 < (l.foldl (fun S _ => equilibrateRound c S) S).scaling.e.get i := by
  induction l generalizing S with
  | nil => exact h i
  | cons k l ih =>
      refine ih fun i => ?_
      simp only [equilibrateRound, Vec.get_hadamard, Vec.get_map]
      exact mul_pos (h i) (roundFactor_pos hpos _)

theorem Bounded.equilibrate (hc : c.validate = .ok ()) (hlower : L.bmin = Vec.clamp lower (-L.limit) L.limit)
    (hupper : L.bmax = Vec.clamp upper (-L.limit) L.limit) (hle : ∀ i, lower.get i ≤ upper.get i) :
    ((ofProgram L).equilibrate c).Bounded := by
  have hplain := bounded_ofProgram hlower hupper hle
  unfold ScaledProgram.equilibrate
  split
  · exact hplain
  · have hpos := limitNorm_pos (Settings.scalingMin_pos hc) (Settings.scalingMax_pos hc)
    have hlimit := (rounds_keep (S := ofProgram L) (c := c) (List.range c.scalingIter)).1
    refine bounded_setBounds (S := scaleCost c _) (e_pos_rounds hpos _ hplain.e_pos) fun hnonneg => ?_
    have hnonneg' : 0 ≤ L.limit := hnonneg.trans_eq hlimit
    show ∀ i, L.bmin.get i ≤ L.bmax.get i
    rw [hlower, hupper]
    exact clamp_get_le hle hnonneg'

end ScaledProgram

theorem ProblemInput.bounded_equilibrate {problem : ProblemInput K} {c : Settings K}
    (hvalid : problem.validate c = .ok (n, m)) (limit : K) :
    ((ScaledProgram.ofProgram (problem.normalize n m limit).1).equilibrate c).Bounded := by
  have hP := valid_of_validate hvalid
  exact ScaledProgram.Bounded.equilibrate hP.settings rfl rfl hP.read_le

end AugLag
