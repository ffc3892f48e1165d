import AugLag.Proofs.Settings
import AugLag.Settings.Draft

/-!
# Drafts against finished settings

A draft checks the settings that are filled in, but not all of them: some tolerances and a limit pass with any value.
The settings that it builds hold what is filled in, and the defaults elsewhere.
-/

namespace AugLag

/-! ## Reading and writing single settings -/

namespace Settings

variable {T : Type}

@[simp]
theorem get_set_self (c : Settings T) (s : Setting) (v : s.kind.Value T) : (c.set s v).get s = v := by
  cases s <;> rfl

theorem get_set_of_ne (c : Settings T) {s t : Setting} (v : s.kind.Value T) (h : s ≠ t) :
    (c.set s v).get t = c.get t := by
  cases s <;> cases t <;> first | rfl | exact absurd rfl h

/-- Settings are what their values are. -/
theorem ext_get {c c' : Settings T} (h : ∀ s : Setting, c.get s = c'.get s) : c = c' := by
  calc
    c = Setting.all.foldl (fun e s => e.set s (c.get s)) c := (foldl_set_get c c).symm
    _ = Setting.all.foldl (fun e s => e.set s (c'.get s)) c := by simp only [h]
    _ = c' := foldl_set_get c' c

theorem validate_default_float : (Settings.default : Settings Float).validate = .ok () := by decide +kernel

/-- A refusal names a setting whose value is illegal, or else one to which a condition on several settings is charged. -/
theorem error_of_validate [Scalar T] {c : Settings T} {e : SettingsError} (h : c.validate = .error e) :
    (∃ s : Setting, s.range.contains (c.get s) = false ∧ e = .badValue s) ∨
      (∀ s : Setting, s.range.contains (c.get s) = true) ∧ ∃ p ∈ c.jointConditions, p.2 = false ∧ e = .badValue p.1 := by
  unfold validate at h
  split at h
  · next s hfind =>
      cases h
      left
      exact ⟨s, by simpa using List.find?_some hfind, rfl⟩
  · next hnone =>
      right
      split at h
      · next p hfind =>
          cases h
          refine ⟨fun s => ?_, p, List.mem_of_find?_eq_some hfind, by simpa using List.find?_some hfind, rfl⟩
          simpa using List.find?_eq_none.mp hnone s s.mem_all
      · cases h

end Settings

namespace SettingsDraft

section Filled

variable {T : Type}

theorem get_foldl (draft : SettingsDraft T) (s : Setting) (l : List Setting) (c : Settings T) :
    (l.foldl (fun c t =>
      match draft t with
      | some v => c.set t v
      | none => c) c).get s = if s ∈ l then (draft s).getD (c.get s) else c.get s := by
  induction l generalizing c with
  | nil => simp
  | cons t l ih =>
      simp only [List.foldl_cons, ih, List.mem_cons]
      by_cases hst : s = t
      · subst hst
        cases hs : draft s with
        | none => simp
        | some v => simp
      · have hkept : (match draft t with
            | some v => c.set t v
            | none => c).get s = c.get s := by
          cases draft t with
          | none => rfl
          | some v => exact c.get_set_of_ne v (Ne.symm hst)
        simp only [hst, false_or, hkept]

@[simp]
theorem get_overwrite (draft : SettingsDraft T) (c : Settings T) (s : Setting) :
    (draft.overwrite c).get s = (draft s).getD (c.get s) := by
  have h := draft.get_foldl s Setting.all c
  simp only [Setting.mem_all, if_true] at h
  exact h

end Filled

/-! ## What a draft checks -/

/-- The settings that have a range but pass a draft with any value. -/
def unchecked : List Setting :=
  [.epsAbsIn, .epsRelIn, .epsPrimInf, .epsDualInf, .reducedEpsAbs, .reducedEpsRel, .reducedEpsPrimInf,
   .reducedEpsDualInf, .maxRankUpdateFraction]

theorem not_mem_unchecked {s : Setting} (h : s ∈ checked) : s ∉ unchecked := by
  revert s
  decide

variable {T : Type} [Scalar T] {draft : SettingsDraft T} {c : Settings T}

/-- What is neither checked nor left out has no illegal value. -/
theorem contains_of_not_mem {s : Setting} (h : s ∉ checked) (hleft : s ∉ unchecked) (v : s.kind.Value T) :
    s.range.contains v = true := by
  cases s <;> first | rfl | exact absurd (by decide) h | exact absurd (by decide) hleft

/-- The values that are filled in are legal, those that pass unchecked aside. -/
def Passes (draft : SettingsDraft T) : Prop :=
  ∀ s ∉ unchecked, ∀ v, draft s = some v → s.range.contains v = true

/-- The values that pass unchecked are legal. -/
def RestLegal (draft : SettingsDraft T) : Prop :=
  ∀ s ∈ unchecked, ∀ v, draft s = some v → s.range.contains v = true

theorem validate_eq_ok : draft.validate = .ok () ↔ draft.Passes := by
  unfold validate
  constructor
  · intro h
    split at h
    · cases h
    · next hnone =>
        intro s hs v hv
        by_cases hmem : s ∈ checked
        · have hs := List.find?_eq_none.mp hnone s hmem
          simpa [hv] using hs
        · exact contains_of_not_mem hmem hs v
  · intro h
    have hnone : checked.find? (fun s => !(draft s).all s.range.contains) = none := by
      apply List.find?_eq_none.mpr
      intro s hs
      cases hv : draft s with
      | none => simp
      | some v => simp [h s (not_mem_unchecked hs) v hv]
    simp only [hnone]

/-- The settings that are built hold what is filled in, and the defaults elsewhere. -/
theorem build_eq_ok :
    draft.build = .ok c ↔ draft.Passes ∧ ∀ s : Setting, c.get s = (draft s).getD (Settings.default.get s) := by
  unfold build
  cases hv : draft.validate with
  | error e =>
      have hnot : ¬draft.Passes := by
        intro hpasses
        rw [validate_eq_ok.mpr hpasses] at hv
        cases hv
      simp [Except.map, hnot]
  | ok u =>
      have hpasses : draft.Passes := validate_eq_ok.mp hv
      simp only [Except.map, Except.ok.injEq, hpasses, true_and]
      constructor
      · rintro rfl
        exact draft.get_overwrite _
      · intro h
        apply Settings.ext_get
        intro s
        rw [h s, get_overwrite]

theorem build_eq_error {e : SettingsError} : draft.build = .error e ↔ draft.validate = .error e := by
  unfold build
  cases draft.validate with
  | error e' => simp [Except.map]
  | ok u => simp [Except.map]

/-- A draft that is refused names a setting that is filled in with an illegal value. -/
theorem filled_of_build {e : SettingsError} (h : draft.build = .error e) :
    ∃ s ∉ unchecked, ∃ v, draft s = some v ∧ s.range.contains v = false ∧ e = .badValue s := by
  have hrefused := build_eq_error.mp h
  unfold validate at hrefused
  split at hrefused
  · next s hfind =>
      cases hrefused
      refine ⟨s, not_mem_unchecked (List.mem_of_find?_eq_some hfind), ?_⟩
      have hs := List.find?_some hfind
      cases hv : draft s with
      | none => simp [hv] at hs
      | some v => exact ⟨v, rfl, by simpa [hv] using hs, rfl⟩
  · cases hrefused

theorem passes_ofSettings (h : c.validate = .ok ()) : (ofSettings c).Passes := by
  rintro s - v hv
  cases hv
  exact Settings.contains_of_validate h s

/-! ## The settings that are built -/

section Built

variable (hdefault : (Settings.default : Settings T).validate = .ok ())

include hdefault

theorem contains_iff_of_build (h : draft.build = .ok c) (s : Setting) :
    s.range.contains (c.get s) = true ↔ ∀ v, draft s = some v → s.range.contains v = true := by
  rw [(build_eq_ok.mp h).2 s]
  cases draft s with
  | none => simp [Settings.contains_of_validate hdefault s]
  | some v => simp

theorem contains_of_build (h : draft.build = .ok c) {s : Setting} (hs : s ∉ unchecked) :
    s.range.contains (c.get s) = true :=
  (contains_iff_of_build hdefault h s).mpr ((build_eq_ok.mp h).1 s hs)

theorem forall_contains_of_build (h : draft.build = .ok c) :
    (∀ s : Setting, s.range.contains (c.get s) = true) ↔ draft.RestLegal := by
  constructor
  · intro hall s _
    exact (contains_iff_of_build hdefault h s).mp (hall s)
  · intro hrest s
    by_cases hs : s ∈ unchecked
    · exact (contains_iff_of_build hdefault h s).mpr (hrest s hs)
    · exact contains_of_build hdefault h hs

/-- A refusal of built settings is due to a value that passed unchecked or to a condition on several settings. -/
theorem error_of_build (h : draft.build = .ok c) {e : SettingsError} (he : c.validate = .error e) :
    (∃ s ∈ unchecked, ∃ v, draft s = some v ∧ s.range.contains v = false ∧ e = .badValue s) ∨
      draft.RestLegal ∧ ∃ p ∈ c.jointConditions, p.2 = false ∧ e = .badValue p.1 := by
  rcases Settings.error_of_validate he with ⟨s, hs, rfl⟩ | ⟨hall, hjoint⟩
  · left
    have hmem : s ∈ unchecked := by
      by_contra hmem
      rw [contains_of_build hdefault h hmem] at hs
      cases hs
    rw [(build_eq_ok.mp h).2 s] at hs
    cases hv : draft s with
    | none =>
        rw [hv, Option.getD_none, Settings.contains_of_validate hdefault s] at hs
        cases hs
    | some v =>
        rw [hv] at hs
        exact ⟨s, hmem, v, hv, hs, rfl⟩
  · right
    exact ⟨(forall_contains_of_build hdefault h).mp hall, hjoint⟩

end Built

theorem build_ofSettings (h : c.validate = .ok ()) : (ofSettings c).build = .ok c :=
  build_eq_ok.mpr ⟨passes_ofSettings h, fun _ => rfl⟩

theorem exists_build : (∃ c, draft.build = .ok c) ↔ draft.Passes := by
  constructor
  · rintro ⟨c, h⟩
    exact (build_eq_ok.mp h).1
  · intro h
    exact ⟨draft.overwrite Settings.default, build_eq_ok.mpr ⟨h, draft.get_overwrite _⟩⟩

/-- A draft builds settings exactly if the values are legal that it checks, and otherwise names one of them that is not.
The built settings are then legal if also those values are that pass unchecked, and the conditions on several settings
hold. Legal settings are built again from the draft of all their values. -/
theorem build_against_validate (hdefault : (Settings.default : Settings T).validate = .ok ()) :
    (∀ draft : SettingsDraft T, (∃ c, draft.build = .ok c) ↔ draft.Passes) ∧
      (∀ (draft : SettingsDraft T) (e : SettingsError), draft.build = .error e →
        ∃ s ∉ unchecked, ∃ v, draft s = some v ∧ s.range.contains v = false ∧ e = .badValue s) ∧
      (∀ (draft : SettingsDraft T) (c : Settings T), draft.build = .ok c →
        (∀ s ∉ unchecked, s.range.contains (c.get s) = true) ∧
          (c.validate = .ok () ↔ draft.RestLegal ∧ ∀ p ∈ c.jointConditions, p.2 = true) ∧
            ∀ e, c.validate = .error e →
              (∃ s ∈ unchecked, ∃ v, draft s = some v ∧ s.range.contains v = false ∧ e = .badValue s) ∨
                draft.RestLegal ∧ ∃ p ∈ c.jointConditions, p.2 = false ∧ e = .badValue p.1) ∧
        ∀ c : Settings T, c.validate = .ok () → (ofSettings c).build = .ok c := by
  refine ⟨fun draft => exists_build, fun draft e => filled_of_build, fun draft c h => ⟨?_, ?_, ?_⟩,
    fun c => build_ofSettings⟩
  · intro s hs
    exact contains_of_build hdefault h hs
  · rw [Settings.validate_eq_ok, forall_contains_of_build hdefault h]
  · intro e he
    exact error_of_build hdefault h he

/-- Settings with a tolerance that is given and other tolerances by default are built and pass. -/
theorem build_against_validate_absolute :
    ((empty : SettingsDraft Float).set .epsAbs (0 : Float)).Passes ∧
      ∃ c : Settings Float, ((empty : SettingsDraft Float).set .epsAbs (0 : Float)).build = .ok c ∧
        (c.validate = .ok () ↔ ((empty : SettingsDraft Float).set .epsAbs (0 : Float)).RestLegal ∧
          ∀ p ∈ c.jointConditions, p.2 = true) := by
  have hvalid : ((empty : SettingsDraft Float).set .epsAbs (0 : Float)).validate = .ok () := by decide +kernel
  obtain ⟨hbuilds, -, hbuilt, -⟩ := build_against_validate Settings.validate_default_float
  have hpasses := validate_eq_ok.mp hvalid
  obtain ⟨c, hc⟩ := (hbuilds _).mpr hpasses
  exact ⟨hpasses, c, hc, (hbuilt _ c hc).2.1⟩

/-- A negative tolerance for certificates passes a draft, though all conditions on several settings hold. -/
theorem negative_tolerance_built :
    ∃ c : Settings Float, ((empty : SettingsDraft Float).set .epsPrimInf (-1 : Float)).build = .ok c ∧
      (∀ p ∈ c.jointConditions, p.2 = true) ∧ c.validate = .error (.badValue .epsPrimInf) := by
  have hvalid : ((empty : SettingsDraft Float).set .epsPrimInf (-1 : Float)).validate = .ok () := by decide +kernel
  refine ⟨_, build_eq_ok.mpr ⟨validate_eq_ok.mp hvalid, get_overwrite _ _⟩, ?_, ?_⟩
  · decide +kernel
  · decide +kernel

end SettingsDraft
end AugLag
