import AugLag.Proofs.Newton.AugmentedFresh
import AugLag.Proofs.Newton.ReducedFresh
import AugLag.Newton.Engine

/-!
# Engines without factors in place

An engine that has no factors in place answers as any other one for the same data, whatever either of them went through
before. Nothing here depends on how the scalars calculate.
-/

namespace AugLag.NewtonEngine

open SparseMatrix Factorization

variable {T : Type} [Scalar T] {Q A : SparseMatrix T} {n m : Nat} {e e' e'' : NewtonEngine T n m}

/-- Of its matrices a new engine uses the patterns only. -/
theorem ofProblem_of_samePattern [Elimination.Rule] {Q' A' : SparseMatrix T} (hQ : SamePattern Q' Q)
    (hA : SamePattern A' A) (n m : Nat) (method : Method) : ofProblem Q' A' n m method = ofProblem Q A n m method := by
  rw [← hQ.eq_withValues, ← hA.eq_withValues]
  rfl

/-- The factors belong to the state that the engine records. -/
def factored : NewtonEngine T n m → Bool
  | .augmented S => S.factored
  | .reduced S => S.factored

/-- The engine stores the places of its data, and its factors fit. Nothing is said about values. -/
def Built (Q A : SparseMatrix T) : NewtonEngine T n m → Prop
  | .augmented S => AugmentedSystem.Built Q A S
  | .reduced S => ReducedSystem.Built Q A S

/-- Engines of one form for the same data, in whatever states. -/
inductive Siblings : NewtonEngine T n m → NewtonEngine T n m → Prop
  | augmented {S S' : AugmentedSystem T n m} : AugmentedSystem.Siblings S S' → Siblings (.augmented S) (.augmented S')
  | reduced {S S' : ReducedSystem T n m} : ReducedSystem.Siblings S S' → Siblings (.reduced S) (.reduced S')

namespace Siblings

omit [Scalar T] in
theorem refl (e : NewtonEngine T n m) : Siblings e e := by
  cases e with
  | augmented S => exact .augmented (AugmentedSystem.Siblings.refl S)
  | reduced S => exact .reduced (ReducedSystem.Siblings.refl S)

omit [Scalar T] in
theorem symm (h : Siblings e e') : Siblings e' e := by
  cases h with
  | augmented hs => exact .augmented hs.symm
  | reduced hs => exact .reduced hs.symm

omit [Scalar T] in
theorem trans (h : Siblings e e') (h' : Siblings e' e'') : Siblings e e'' := by
  cases h with
  | augmented hs =>
      cases h' with
      | augmented hs' => exact .augmented (hs.trans hs')
  | reduced hs =>
      cases h' with
      | reduced hs' => exact .reduced (hs.trans hs')

end Siblings

theorem Built.update (h : e.Built Q A) (active : Vector Bool m) (sigma : Vector T m) (rho : T) (c : Settings T) :
    (e.update Q A active sigma rho c).1.Built Q A ∧ Siblings e (e.update Q A active sigma rho c).1 := by
  cases e with
  | augmented S =>
      obtain ⟨hbuilt, hs⟩ := AugmentedSystem.Built.update h active sigma rho
      exact ⟨hbuilt, .augmented hs⟩
  | reduced S =>
      obtain ⟨hbuilt, hs⟩ := ReducedSystem.Built.update h active sigma rho c
      exact ⟨hbuilt, .reduced hs⟩

/-- The engine and the outcome of an update. -/
def updated (e : NewtonEngine T n m) (Q A : SparseMatrix T) (active : Vector Bool m) (sigma : Vector T m) (rho : T)
    (c : Settings T) : NewtonEngine T n m × Except NewtonError Unit :=
  ((e.update Q A active sigma rho c).1, (e.update Q A active sigma rho c).2.1)

/-- Without factors in place an update ends in the same way, whatever the engines held before. -/
theorem Built.updated_congr (h : e.Built Q A) (h' : e'.Built Q A) (hs : Siblings e e') (he : e.factored = false)
    (he' : e'.factored = false) (active : Vector Bool m) (sigma : Vector T m) (rho : T) (c : Settings T) :
    SameEnd factored (e.updated Q A active sigma rho c) (e'.updated Q A active sigma rho c) := by
  cases hs with
  | @augmented S S' hs =>
      have hend := AugmentedSystem.Built.update_congr h h' hs he he' active sigma rho
      simp only [updated, NewtonEngine.update]
      generalize S.update Q A active sigma rho = out at hend ⊢
      generalize S'.update Q A active sigma rho = out' at hend ⊢
      cases hend with
      | done S₁ => exact .done _
      | failed err hS hS' => exact .failed err hS hS'
  | @reduced S S' hs =>
      have hend := ReducedSystem.Built.refactor_congr h h' hs active sigma rho
      simp only [updated, NewtonEngine.update, ReducedSystem.update_of_not_factored he,
        ReducedSystem.update_of_not_factored he']
      generalize S.refactor Q A active sigma rho = out at hend ⊢
      generalize S'.refactor Q A active sigma rho = out' at hend ⊢
      cases hend with
      | done S₁ => exact .done _
      | failed err hS hS' => exact .failed err hS hS'

/-! ## Indistinguishable engines -/

/-- Engines that no update can tell apart: one and the same, or two for the same data without factors in place. -/
inductive Indistinct (Q A : SparseMatrix T) : NewtonEngine T n m → NewtonEngine T n m → Prop
  | same {e : NewtonEngine T n m} : e.Built Q A → Indistinct Q A e e
  | cleared {e e' : NewtonEngine T n m} : e.Built Q A → e'.Built Q A → Siblings e e' → e.factored = false →
      e'.factored = false → Indistinct Q A e e'

theorem Indistinct.update (h : Indistinct Q A e e') (active : Vector Bool m) (sigma : Vector T m) (rho : T)
    (c : Settings T) :
    Indistinct Q A (e.update Q A active sigma rho c).1 (e'.update Q A active sigma rho c).1 ∧
      (e'.update Q A active sigma rho c).2.1 = (e.update Q A active sigma rho c).2.1 ∧
      ((e.update Q A active sigma rho c).2.1 = .ok () →
        (e'.update Q A active sigma rho c).1 = (e.update Q A active sigma rho c).1) := by
  cases h with
  | same h => exact ⟨.same (h.update active sigma rho c).1, rfl, fun _ => rfl⟩
  | cleared h h' hs he he' =>
      obtain ⟨hbuilt, hsib⟩ := h.update active sigma rho c
      obtain ⟨hbuilt', hsib'⟩ := h'.update active sigma rho c
      have hend := h.updated_congr h' hs he he' active sigma rho c
      simp only [updated] at hend
      generalize e.update Q A active sigma rho c = out at hend hbuilt hsib ⊢
      generalize e'.update Q A active sigma rho c = out' at hend hbuilt' hsib' ⊢
      obtain ⟨e₁, outcome, log⟩ := out
      obtain ⟨e₁', outcome', log'⟩ := out'
      cases hend with
      | done => exact ⟨.same hbuilt, rfl, fun _ => rfl⟩
      | failed err he₁ he₁' =>
          exact ⟨.cleared hbuilt hbuilt' ((hsib.symm.trans hs).trans hsib') he₁ he₁', rfl, nofun⟩

omit [Scalar T] in
/-- Factors that are out of date are as good as none. -/
theorem Built.invalidate (h : e.Built Q A) :
    e.invalidate.Built Q A ∧ Siblings e e.invalidate ∧ e.invalidate.factored = false := by
  cases e with
  | augmented S =>
      obtain ⟨hbuilt, hs⟩ := AugmentedSystem.Built.invalidate h
      exact ⟨hbuilt, .augmented hs, rfl⟩
  | reduced S =>
      obtain ⟨hbuilt, hs⟩ := ReducedSystem.Built.invalidate h
      exact ⟨hbuilt, .reduced hs, rfl⟩

omit [Scalar T] in
theorem Siblings.indistinct (hs : Siblings e e') (h : e.Built Q A) (h' : e'.Built Q A) :
    Indistinct Q A e.invalidate e'.invalidate := by
  obtain ⟨hbuilt, hsib, he⟩ := h.invalidate
  obtain ⟨hbuilt', hsib', he'⟩ := h'.invalidate
  exact .cleared hbuilt hbuilt' ((hsib.symm.trans hs).trans hsib') he he'

/-! ## Construction -/

theorem built_of_ofProblem [Elimination.Rule] (h : NewtonData Q A n m) {method : Method}
    (he : ofProblem Q A n m method = .ok e) :
    e.Built Q A := by
  unfold ofProblem at he
  split at he
  · obtain ⟨S, hS, rfl⟩ := map_eq_ok.mp he
    exact ReducedSystem.built_of_ofProblem h hS
  · obtain ⟨S, hS, rfl⟩ := map_eq_ok.mp he
    exact AugmentedSystem.built_of_ofProblem h hS

end AugLag.NewtonEngine
