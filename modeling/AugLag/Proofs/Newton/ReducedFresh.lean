import AugLag.Proofs.Factor.Scratch
import AugLag.Proofs.Newton.ReducedPattern

/-!
# The reduced system from scratch

A factorization from scratch assembles all values of the system from zero. What the system held before leaves no trace
in the outcome, nor in the system if the factorization succeeds. Nothing here depends on how the scalars calculate.
-/

namespace AugLag.ReducedSystem

open SparseMatrix Factorization

variable {T : Type} [Scalar T] {Q A : SparseMatrix T} {n m : Nat} {S S' S'' : ReducedSystem T n m}
variable {active : Vector Bool m} {sigma : Vector T m} {rho : T} {values : Array T}

/-- The system stores the places of its data, and its factors fit. Nothing is said about values. -/
structure Built (Q A : SparseMatrix T) (S : ReducedSystem T n m) : Prop where
  frame : Frame Q A S
  fitted : Fitted S.matrix S.factors

/-- Systems for the same data, in whatever states. -/
structure Siblings (S S' : ReducedSystem T n m) : Prop where
  matrix : ∃ values, values.size = S.matrix.values.size ∧ S'.matrix = { S.matrix with values }
  slotOfCost : S'.slotOfCost = S.slotOfCost
  diagonal : S'.diagonal = S.diagonal
  slotsOfPairs : S'.slotsOfPairs = S.slotsOfPairs
  rows : S'.rows = S.rows
  columnOf : S'.columnOf = S.columnOf
  factors : SamePattern S.factors S'.factors

namespace Siblings

omit [Scalar T] in
theorem refl (S : ReducedSystem T n m) : Siblings S S :=
  ⟨⟨_, rfl, rfl⟩, rfl, rfl, rfl, rfl, rfl, SamePattern.refl _⟩

omit [Scalar T] in
theorem symm (h : Siblings S S') : Siblings S' S := by
  obtain ⟨values, hsize, hmatrix⟩ := h.matrix
  exact ⟨⟨S.matrix.values, by rw [hmatrix, hsize], by rw [hmatrix]⟩, h.slotOfCost.symm, h.diagonal.symm,
    h.slotsOfPairs.symm, h.rows.symm, h.columnOf.symm, h.factors.symm⟩

omit [Scalar T] in
theorem trans (h : Siblings S S') (h' : Siblings S' S'') : Siblings S S'' := by
  obtain ⟨values, hsize, hmatrix⟩ := h.matrix
  obtain ⟨values', hsize', hmatrix'⟩ := h'.matrix
  rw [hmatrix] at hsize' hmatrix'
  exact ⟨⟨values', hsize'.trans hsize, hmatrix'⟩, h'.slotOfCost.trans h.slotOfCost, h'.diagonal.trans h.diagonal,
    h'.slotsOfPairs.trans h.slotsOfPairs, h'.rows.trans h.rows, h'.columnOf.trans h.columnOf,
    h.factors.trans h'.factors⟩

end Siblings

/-! ## Assembly -/

theorem size_addRow (S : ReducedSystem T n m) (A : SparseMatrix T) (sigma : Vector T m) (values : Array T) (r : Fin m) :
    (S.addRow A sigma values r).size = values.size :=
  size_foldl_modify _ Prod.fst (fun (e : Nat × Nat × Nat) x => x + sigma.get r * A.valueAt e.2.1 * A.valueAt e.2.2) values

theorem size_addRows (S : ReducedSystem T n m) (A : SparseMatrix T) (sigma : Vector T m) (l : List (Fin m))
    (values : Array T) : (l.foldl (S.addRow A sigma) values).size = values.size := by
  induction l generalizing values with
  | nil => rfl
  | cons r l ih => rw [List.foldl_cons, ih, size_addRow]

theorem size_assemble (S : ReducedSystem T n m) (Q A : SparseMatrix T) (active : Vector Bool m) (sigma : Vector T m)
    (rho : T) : (S.assemble Q A active sigma rho).size = S.matrix.values.size := by
  simp only [assemble]
  rw [size_addRows, ← Array.foldl_toList]
  refine (size_foldl_modify _ id (fun _ x => x + rho) _).trans ?_
  rw [size_foldl_modify _ Prod.fst fun (e : Nat × T) x => x + e.2, Array.size_map]

/-- Assembly begins with zeros, whatever the values were before. -/
theorem assemble_congr (hs : Siblings S S') (active : Vector Bool m) (sigma : Vector T m) (rho : T) :
    S'.assemble Q A active sigma rho = S.assemble Q A active sigma rho := by
  obtain ⟨matrix', slotOfCost', diagonal', slotsOfPairs', rows', columnOf', factors', active', sigma', rho', factored',
    modified'⟩ := S'
  obtain ⟨⟨values, hsize, hmatrix⟩, hcost, hdiagonal, hpairs, hrows, hcolumn, -⟩ := hs
  dsimp only at hmatrix hcost hdiagonal hpairs hrows hcolumn
  subst hmatrix hcost hdiagonal hpairs hrows hcolumn
  have hzero : values.map (fun _ => (0 : T)) = S.matrix.values.map fun _ => (0 : T) := by
    refine array_ext_getD 0 (by rw [Array.size_map, Array.size_map, hsize]) fun p hp => ?_
    rw [Array.size_map] at hp
    have hp' : p < S.matrix.values.size := hsize ▸ hp
    simp [Array.getD_eq_getD_getElem?, hp, hp']
  simp only [assemble, hzero]
  rfl

/-! ## Updates -/

omit [Scalar T] in
theorem Built.withFactors (h : Built Q A S) (hs : values.size = S.matrix.values.size)
    (hmatrix : S'.matrix = { S.matrix with values }) (hcost : S'.slotOfCost = S.slotOfCost)
    (hdiagonal : S'.diagonal = S.diagonal) (hpairs : S'.slotsOfPairs = S.slotsOfPairs) (hrows : S'.rows = S.rows)
    (hcolumn : S'.columnOf = S.columnOf) (hfactors : SamePattern S.factors S'.factors)
    (hfitted : Fitted S.matrix S'.factors) : Built Q A S' ∧ Siblings S S' := by
  refine ⟨{ frame := h.frame.of_same hs hmatrix hcost hdiagonal hpairs hrows hcolumn, fitted := ?_ }, ?_⟩
  · rw [hmatrix]
    exact hfitted.withValues hs
  · exact
      { matrix := ⟨values, hs, hmatrix⟩
        slotOfCost := hcost
        diagonal := hdiagonal
        slotsOfPairs := hpairs
        rows := hrows
        columnOf := hcolumn
        factors := hfactors }

/-- All that a factorization from scratch can do. -/
theorem refactor_cases {F : Factorization T} {outcome : Except NewtonError Unit}
    (hF : S.factors.updateValues (List.range S.matrix.nnz) (S.assemble Q A active sigma rho).toList = F)
    (heq : S.refactor Q A active sigma rho = (S', outcome)) :
    S' = { S with
        matrix := { S.matrix with values := S.assemble Q A active sigma rho }, factors := F.refactor.1, active, sigma, rho,
        factored := outcome.toBool, modified := 0 } ∧
      (F.refactor.2 = .ok () ∧ outcome = S'.checkInertia ∨
        ∃ e, F.refactor.2 = .error e ∧ outcome = .error (.factor e)) := by
  simp only [refactor, hF] at heq
  cases hr : F.refactor.2 with
  | error e =>
      simp only [hr] at heq
      obtain ⟨rfl, rfl⟩ := Prod.mk.inj heq
      exact ⟨rfl, .inr ⟨e, rfl, rfl⟩⟩
  | ok _ =>
      simp only [hr] at heq
      split at heq
      · next e he =>
        obtain ⟨rfl, rfl⟩ := Prod.mk.inj heq
        exact ⟨rfl, .inl ⟨rfl, he.symm⟩⟩
      · next he =>
        obtain ⟨rfl, rfl⟩ := Prod.mk.inj heq
        exact ⟨rfl, .inl ⟨rfl, he.symm⟩⟩

theorem Built.refactor (h : Built Q A S) (active : Vector Bool m) (sigma : Vector T m) (rho : T) :
    Built Q A (S.refactor Q A active sigma rho).1 ∧ Siblings S (S.refactor Q A active sigma rho).1 := by
  generalize hout : S.refactor Q A active sigma rho = out
  obtain ⟨S₁, outcome⟩ := out
  obtain ⟨rfl, -⟩ := refactor_cases rfl hout
  obtain ⟨hfitted, hsame⟩ :=
    (h.fitted.updateValues (List.range S.matrix.nnz) (S.assemble Q A active sigma rho).toList).refactor
  exact h.withFactors (size_assemble S Q A active sigma rho) rfl rfl rfl rfl rfl rfl
    ((samePattern_updateValues _ _ _).trans hsame.pattern) hfitted

omit [Scalar T] in
theorem checkInertia_congr (h : S'.factors = S.factors) : S'.checkInertia = S.checkInertia := by
  rw [checkInertia, checkInertia, h]

/-- Whatever the systems held before, a factorization from scratch has one outcome. -/
theorem Built.refactor_congr (h : Built Q A S) (h' : Built Q A S') (hs : Siblings S S') (active : Vector Bool m)
    (sigma : Vector T m) (rho : T) :
    SameEnd ReducedSystem.factored (S.refactor Q A active sigma rho) (S'.refactor Q A active sigma rho) := by
  have hassemble := assemble_congr (Q := Q) (A := A) hs active sigma rho
  have hnnz : S.matrix.nnz = S.matrix.values.size := h.frame.matrix.nnz_eq
  have hsize : S.matrix.values.size ≤ (S.assemble Q A active sigma rho).toList.length := by
    rw [Array.length_toList, size_assemble]
  obtain ⟨old, hold, hmatrix⟩ := hs.matrix
  have hfitted : Fitted S.matrix S'.factors := by
    have hback : S.matrix = { S'.matrix with values := S.matrix.values } := by rw [hmatrix]
    rw [hback]
    exact h'.fitted.withValues (by rw [hmatrix, hold])
  have hanalysis := h.fitted.sameAnalysis_updateValues hfitted hs.factors hsize
  rw [← hnnz] at hanalysis
  obtain ⟨hF, -, -, hok⟩ := (h.fitted.updateValues (List.range S.matrix.nnz) _).shape.refactor_congr
    (hfitted.updateValues (List.range S.matrix.nnz) _).shape hanalysis
  generalize hr : S.refactor Q A active sigma rho = out
  generalize hr' : S'.refactor Q A active sigma rho = out'
  obtain ⟨S₁, outcome⟩ := out
  obtain ⟨S₁', outcome'⟩ := out'
  obtain ⟨hS₁, hcases⟩ := refactor_cases rfl hr
  obtain ⟨hS₁', hcases'⟩ := refactor_cases rfl hr'
  have hnnz' : S'.matrix.nnz = S.matrix.nnz := by rw [hmatrix]; rfl
  rw [hassemble, hnnz'] at hS₁' hcases'
  rcases hcases with ⟨hdone, houtcome⟩ | ⟨e, herror, rfl⟩
  · rcases hcases' with ⟨-, houtcome'⟩ | ⟨e, herror, -⟩
    · have hfactors : S₁'.factors = S₁.factors := by
        rw [hS₁, hS₁']
        exact hok hdone
      obtain rfl : outcome' = outcome := houtcome'.trans ((checkInertia_congr hfactors).trans houtcome.symm)
      have heq : S₁' = S₁ := by
        rw [hS₁, hS₁', hok hdone, hmatrix, hs.slotOfCost, hs.diagonal, hs.slotsOfPairs, hs.rows, hs.columnOf]
      subst heq
      cases outcome' with
      | ok _ => exact .done _
      | error e => exact .failed e (by rw [hS₁]; rfl) (by rw [hS₁]; rfl)
    · rw [hF, hdone] at herror
      cases herror
  · rcases hcases' with ⟨hdone, -⟩ | ⟨e', herror', rfl⟩
    · rw [hF, herror] at hdone
      cases hdone
    · rw [hF, herror] at herror'
      cases herror'
      exact .failed _ (by rw [hS₁]; rfl) (by rw [hS₁']; rfl)

/-- Modifications keep the factors fitting, also where one of them fails. -/
theorem Built.modify (h : Built Q A S) (changes : List (Change T)) :
    Built Q A (S.modify A changes).1 ∧ Siblings S (S.modify A changes).1 := by
  induction changes generalizing S with
  | nil => exact ⟨h, Siblings.refl S⟩
  | cons c rest ih =>
      obtain ⟨hfitted, hsame⟩ := h.fitted.rankOne (S.rowEntries A c.row) c.weight
      unfold ReducedSystem.modify
      generalize S.factors.rankOne (S.rowEntries A c.row) c.weight = out at hfitted hsame ⊢
      obtain ⟨F, step⟩ := out
      obtain ⟨hbuilt, hsib⟩ : Built Q A { S with factors := F } ∧ Siblings S { S with factors := F } :=
        h.withFactors rfl rfl rfl rfl rfl rfl rfl hsame.pattern hfitted
      cases step with
      | ok _ => exact ⟨(ih hbuilt).1, hsib.trans (ih hbuilt).2⟩
      | error _ => exact ⟨hbuilt, hsib⟩

/-- Without factors in place an update factors from scratch. -/
theorem update_of_not_factored (h : S.factored = false) (Q A : SparseMatrix T) (active : Vector Bool m)
    (sigma : Vector T m) (rho : T) (c : Settings T) :
    S.update Q A active sigma rho c =
      ((S.refactor Q A active sigma rho).1, (S.refactor Q A active sigma rho).2, []) := by
  rw [update, h]
  rfl

/-- Whatever an update does, the factors still fit. -/
theorem Built.update (h : Built Q A S) (active : Vector Bool m) (sigma : Vector T m) (rho : T) (c : Settings T) :
    Built Q A (S.update Q A active sigma rho c).1 ∧ Siblings S (S.update Q A active sigma rho c).1 := by
  unfold ReducedSystem.update
  simp only
  split
  · exact h.refactor active sigma rho
  · split
    · exact ⟨h, Siblings.refl S⟩
    · split
      · exact h.refactor active sigma rho
      · obtain ⟨hbuilt, hsib⟩ := h.modify (changes S.active S.sigma active sigma)
        split
        · next S₁ hmodify =>
          rw [hmodify] at hbuilt hsib
          obtain ⟨hbuilt', hsib'⟩ : Built Q A { S₁ with
              active, sigma, modified := S₁.modified + (changes S.active S.sigma active sigma).length } ∧ Siblings S₁ _ :=
            hbuilt.withFactors rfl rfl rfl rfl rfl rfl rfl (SamePattern.refl _) hbuilt.fitted
          exact ⟨hbuilt', hsib.trans hsib'⟩
        · next S₁ e hmodify =>
          rw [hmodify] at hbuilt hsib
          obtain ⟨hbuilt', hsib'⟩ := hbuilt.refactor active sigma rho
          exact ⟨hbuilt', hsib.trans hsib'⟩

omit [Scalar T] in
theorem Built.invalidate (h : Built Q A S) : Built Q A S.invalidate ∧ Siblings S S.invalidate :=
  h.withFactors rfl rfl rfl rfl rfl rfl rfl (SamePattern.refl _) h.fitted

/-! ## Construction -/

theorem built_of_ofProblem [Elimination.Rule] (h : NewtonData Q A n m) (hS : ofProblem Q A n m = .ok S) :
    Built Q A S := by
  obtain ⟨F, hF, rfl⟩ := ofProblem_eq_ok.mp hS
  exact { frame := frame_start h F, fitted := fitted_of_ofMatrix (frame_start h F).matrix.toLayout hF }

end AugLag.ReducedSystem
