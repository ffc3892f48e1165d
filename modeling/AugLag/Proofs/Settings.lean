import AugLag.Proofs.Exact.Scalar
import AugLag.Scalar.Machine
import AugLag.Settings.Validate

/-!
# Settings that pass validation

What the solver relies on: limits on counts are at least one, tolerances are not negative, and penalties, weights
and norm limits are positive. No time exceeds an infinite limit.
-/

namespace AugLag

/-! ## Time -/

theorem unpack_infinity : (Scalar.infinity : Float).toModel.unpack = .infinity .positive := rfl

/-- No double exceeds infinity. -/
theorem not_infinity_lt (x : Float) : ¬(Scalar.infinity : Float) < x := by
  intro h
  have hmodel : Float.Model.lt (Scalar.infinity : Float).toModel x.toModel = true :=
    of_decide_eq_true (p := (Scalar.infinity : Float).toModel < x.toModel) h
  rw [Float.Model.lt, unpack_infinity] at hmodel
  generalize x.toModel.unpack = u at hmodel
  cases u with
  | infinity sign =>
      cases sign with
      | positive => exact absurd hmodel (by decide)
      | negative => exact absurd hmodel (by decide)
  | notANumber => exact absurd hmodel (by decide)
  | zero sign => cases hmodel
  | finite sign mantissa exponent hpos => cases hmodel

/-! ## Legal values -/

theorem Setting.mem_all (s : Setting) : s ∈ Setting.all := by cases s <;> decide

namespace Settings

/-- Settings into which all values of others are copied are the others. -/
theorem foldl_set_get {T : Type} (c c' : Settings T) :
    Setting.all.foldl (fun c' s => c'.set s (c.get s)) c' = c := by
  cases c
  cases c'
  rfl

section General

variable {T : Type} [Scalar T] {c : Settings T}

/-- Settings are legal if every one is, together with the conditions on several of them. -/
theorem validate_eq_ok :
    c.validate = .ok () ↔ (∀ s : Setting, s.range.contains (c.get s) = true) ∧ ∀ p ∈ c.jointConditions, p.2 = true := by
  unfold validate
  constructor
  · intro h
    split at h
    · cases h
    · next hrange =>
        split at h
        · cases h
        · next hjoint =>
            refine ⟨fun s => ?_, fun p hp => ?_⟩
            · simpa using List.find?_eq_none.mp hrange s s.mem_all
            · simpa using List.find?_eq_none.mp hjoint p hp
  · rintro ⟨hrange, hjoint⟩
    have hsettings : Setting.all.find? (fun s => !s.range.contains (c.get s)) = none :=
      List.find?_eq_none.mpr fun s _ => by simp [hrange s]
    have hpairs : c.jointConditions.find? (fun p => !p.2) = none :=
      List.find?_eq_none.mpr fun p hp => by simp [hjoint p hp]
    rw [hsettings]
    simp only [hpairs]

theorem contains_of_validate (h : c.validate = .ok ()) (s : Setting) : s.range.contains (c.get s) = true :=
  (validate_eq_ok.mp h).1 s

theorem validate_of_validateAsUpdate {previous : Settings T} (h : c.validateAsUpdate previous = .ok ()) :
    c.validate = .ok () := by
  unfold validateAsUpdate at h
  cases hc : c.validate with
  | ok u => rfl
  | error e =>
      rw [hc] at h
      cases h

/-- The settings that may not change are what they were. -/
theorem fixed_of_validateAsUpdate {previous : Settings T} (h : c.validateAsUpdate previous = .ok ()) :
    ∀ p ∈ c.fixedSettings previous, p.2 = true := by
  unfold validateAsUpdate at h
  cases hc : c.validate with
  | error e =>
      rw [hc] at h
      cases h
  | ok u =>
      rw [hc] at h
      simp only [bind, Except.bind] at h
      split at h
      · cases h
      · next hnone =>
          intro p hp
          simpa using List.find?_eq_none.mp hnone p hp

theorem method_of_validateAsUpdate {previous : Settings T} (h : c.validateAsUpdate previous = .ok ()) :
    c.factorizationMethod = previous.factorizationMethod := by
  have hmem := fixed_of_validateAsUpdate h
    (.factorizationMethod, c.factorizationMethod == previous.factorizationMethod) (by simp [fixedSettings])
  exact eq_of_beq hmem

theorem scalingEnable_of_validateAsUpdate {previous : Settings T} (h : c.validateAsUpdate previous = .ok ()) :
    c.scalingEnable = previous.scalingEnable := by
  have hmem := fixed_of_validateAsUpdate h (.scalingEnable, c.scalingEnable == previous.scalingEnable)
    (by simp [fixedSettings])
  exact eq_of_beq hmem

theorem nonconvex_of_validateAsUpdate {previous : Settings T} (h : c.validateAsUpdate previous = .ok ()) :
    c.nonconvex = previous.nonconvex := by
  have hmem := fixed_of_validateAsUpdate h (.nonconvex, c.nonconvex == previous.nonconvex) (by simp [fixedSettings])
  exact eq_of_beq hmem

theorem maxOuterIter_pos (h : c.validate = .ok ()) : 0 < c.maxOuterIter :=
  of_decide_eq_true (contains_of_validate h .maxOuterIter)

theorem pos_of_positive {v : T} (h : SettingRange.positive.contains v = true) : 0 < v := by
  simp only [SettingRange.contains, Bool.and_eq_true, decide_eq_true_eq] at h
  exact h.1

theorem one_lt_of_aboveOne {v : T} (h : SettingRange.aboveOne.contains v = true) : 1 < v := by
  simp only [SettingRange.contains, Bool.and_eq_true, decide_eq_true_eq] at h
  exact h.1

theorem proximalRegularizationFactor_gt (h : c.validate = .ok ()) : 1 < c.proximalRegularizationFactor :=
  one_lt_of_aboveOne (contains_of_validate h .proximalRegularizationFactor)

theorem minProximal_pos (h : c.validate = .ok ()) : 0 < c.minProximal :=
  pos_of_positive (contains_of_validate h .minProximal)

theorem initialPenalty_pos (h : c.validate = .ok ()) : 0 < c.initialPenalty :=
  pos_of_positive (contains_of_validate h .initialPenalty)

theorem maxPenalty_pos (h : c.validate = .ok ()) : 0 < c.maxPenalty :=
  pos_of_positive (contains_of_validate h .maxPenalty)

theorem not_maxPenalty_lt (h : c.validate = .ok ()) : ¬c.maxPenalty < c.initialPenalty := by
  have hjoint := (validate_eq_ok.mp h).2 (.initialPenalty, !(c.maxPenalty < c.initialPenalty))
    (by simp [jointConditions])
  simpa using hjoint

end General

variable {K : Type} [ExactScalar K] {c : Settings K}

theorem nonneg_of_nonnegative {v : K} (h : SettingRange.nonnegative.contains v = true) : 0 ≤ v := by
  simpa [SettingRange.contains] using h

theorem le_one_of_ratio {v : K} (h : SettingRange.ratio.contains v = true) : v ≤ 1 := by
  simp only [SettingRange.contains, Bool.and_eq_true, decide_eq_true_eq] at h
  exact h.2

theorem pos_of_fraction {v : K} (h : SettingRange.fraction.contains v = true) : 0 < v := by
  simp only [SettingRange.contains, Bool.and_eq_true, decide_eq_true_eq] at h
  exact h.1

theorem linesearchArmijo_pos (h : c.validate = .ok ()) : 0 < c.linesearchArmijo :=
  pos_of_fraction (contains_of_validate h .linesearchArmijo)

theorem linesearchBacktrackStep_pos (h : c.validate = .ok ()) : 0 < c.linesearchBacktrackStep :=
  pos_of_fraction (contains_of_validate h .linesearchBacktrackStep)

theorem proximalShrink_le_one (h : c.validate = .ok ()) : c.proximalShrink ≤ 1 :=
  le_one_of_ratio (contains_of_validate h .proximalShrink)

theorem scalingMin_pos (h : c.validate = .ok ()) : 0 < c.scalingMin :=
  pos_of_positive (contains_of_validate h .scalingMin)

theorem scalingMax_pos (h : c.validate = .ok ()) : 0 < c.scalingMax :=
  pos_of_positive (contains_of_validate h .scalingMax)

theorem epsAbs_nonneg (h : c.validate = .ok ()) : 0 ≤ c.epsAbs :=
  nonneg_of_nonnegative (contains_of_validate h .epsAbs)

theorem epsRel_nonneg (h : c.validate = .ok ()) : 0 ≤ c.epsRel :=
  nonneg_of_nonnegative (contains_of_validate h .epsRel)

theorem epsPrimInf_nonneg (h : c.validate = .ok ()) : 0 ≤ c.epsPrimInf :=
  nonneg_of_nonnegative (contains_of_validate h .epsPrimInf)

theorem reducedEpsPrimInf_nonneg (h : c.validate = .ok ()) : 0 ≤ c.reducedEpsPrimInf :=
  nonneg_of_nonnegative (contains_of_validate h .reducedEpsPrimInf)

end Settings
end AugLag
