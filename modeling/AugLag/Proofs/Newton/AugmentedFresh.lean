import AugLag.Proofs.Factor.Scratch
import AugLag.Proofs.Newton.AugmentedPattern

/-!
# The augmented system from scratch

A system that is not factored writes all its values anew and factors them. What it held before leaves no trace in the
outcome, nor in the system if the factorization succeeds. Nothing here depends on how the scalars calculate.
-/

namespace AugLag.AugmentedSystem

open SparseMatrix Factorization

variable {T : Type} [Scalar T] {Q A : SparseMatrix T} {n m : Nat} {S S' S'' : AugmentedSystem T n m}
variable {active : Vector Bool m} {sigma : Vector T m} {rho : T} {values values' : Array T}

/-- The system stores the places of its data, and its factors fit. Nothing is said about values. -/
structure Built (Q A : SparseMatrix T) (S : AugmentedSystem T n m) : Prop where
  frame : Frame Q A S
  fitted : Fitted S.matrix S.factors

/-- Systems for the same data, in whatever states. -/
structure Siblings (S S' : AugmentedSystem T n m) : Prop where
  matrix : ∃ values, values.size = S.matrix.values.size ∧ S'.matrix = { S.matrix with values }
  slotOfCost : S'.slotOfCost = S.slotOfCost
  slotOfRow : S'.slotOfRow = S.slotOfRow
  rows : S'.rows = S.rows
  factors : SamePattern S.factors S'.factors

namespace Siblings

omit [Scalar T] in
theorem refl (S : AugmentedSystem T n m) : Siblings S S := ⟨⟨_, rfl, rfl⟩, rfl, rfl, rfl, SamePattern.refl _⟩

omit [Scalar T] in
theorem symm (h : Siblings S S') : Siblings S' S := by
  obtain ⟨values, hsize, hmatrix⟩ := h.matrix
  exact ⟨⟨S.matrix.values, by rw [hmatrix, hsize], by rw [hmatrix]⟩, h.slotOfCost.symm, h.slotOfRow.symm, h.rows.symm,
    h.factors.symm⟩

omit [Scalar T] in
theorem trans (h : Siblings S S') (h' : Siblings S' S'') : Siblings S S'' := by
  obtain ⟨values, hsize, hmatrix⟩ := h.matrix
  obtain ⟨values', hsize', hmatrix'⟩ := h'.matrix
  rw [hmatrix] at hsize' hmatrix'
  exact ⟨⟨values', hsize'.trans hsize, hmatrix'⟩, h'.slotOfCost.trans h.slotOfCost, h'.slotOfRow.trans h.slotOfRow,
    h'.rows.trans h.rows, h.factors.trans h'.factors⟩

end Siblings

/-! ## The sizes of values -/

theorem size_writeRow (S : AugmentedSystem T n m) (A : SparseMatrix T) (active : Vector Bool m) (sigma : Vector T m)
    (values : Array T) (r : Fin m) : (S.writeRow A active sigma values r).size = values.size := by
  rw [writeRow, Array.size_setIfInBounds, size_foldl_setIfInBounds]

theorem size_writeRows (S : AugmentedSystem T n m) (A : SparseMatrix T) (active : Vector Bool m) (sigma : Vector T m)
    (l : List (Fin m)) (values : Array T) : (l.foldl (S.writeRow A active sigma) values).size = values.size := by
  induction l generalizing values with
  | nil => rfl
  | cons r l ih => rw [List.foldl_cons, ih, size_writeRow]

theorem size_writeCost (S : AugmentedSystem T n m) (Q : SparseMatrix T) :
    (S.writeCost Q).size = S.matrix.values.size := by
  rw [writeCost, size_foldl_setIfInBounds, size_foldl_setIfInBounds]

theorem size_assemble (S : AugmentedSystem T n m) (Q A : SparseMatrix T) (active : Vector Bool m)
    (sigma : Vector T m) (rho : T) : (S.assemble Q A active sigma rho).1.size = S.matrix.values.size := by
  simp only [assemble]
  rw [size_writeRows, size_foldl_modify _ (diagonalSlot S.matrix) fun _ x => x + rho, size_writeCost]

theorem size_reassemble (S : AugmentedSystem T n m) (A : SparseMatrix T) (active : Vector Bool m)
    (sigma : Vector T m) (rho : T) : (S.reassemble A active sigma rho).1.size = S.matrix.values.size := by
  simp only [reassemble]
  rw [size_writeRows, size_foldl_setIfInBounds]

/-! ## Assembly -/

/-- The system with other values. -/
def withValues (S : AugmentedSystem T n m) (values : Array T) : AugmentedSystem T n m :=
  { S with matrix := { S.matrix with values } }

/-- Assembly writes each slot of the cost. -/
theorem writeCost_congr (h : Frame Q A S) (hs : values.size = S.matrix.values.size) {j p : Nat} (hj : j < n)
    (hp : p ∈ S.matrix.slots j) :
    ((S.withValues values).writeCost Q).getD p 0 = (S.writeCost Q).getD p 0 := by
  unfold writeCost
  rcases h.cost_cases j hj p hp with rfl | ⟨k, hk, rfl⟩
  · refine getD_foldl_set_congr _ _ _ 0 ?_ (.inr ?_)
    · rw [size_foldl_setIfInBounds, size_foldl_setIfInBounds]
      exact hs
    · exact getD_foldl_set_congr _ _ _ 0 hs (.inl ⟨j, List.mem_range.mpr hj, rfl⟩)
  · refine getD_foldl_set_congr _ _ _ 0 ?_ (.inl ⟨_, h.mem_zip_slotOfCost (h.cost_lt hj hk), rfl⟩)
    rw [size_foldl_setIfInBounds, size_foldl_setIfInBounds]
    exact hs

/-- A row is written into all slots of its column. -/
theorem writeRow_congr (h : Frame Q A S) (hs : values'.size = values.size) {r : Fin m} {p : Nat}
    (hp : p ∈ S.matrix.slots (n + r) ∨ values'.getD p 0 = values.getD p 0) :
    (S.writeRow A active sigma values' r).getD p 0 = (S.writeRow A active sigma values r).getD p 0 := by
  have hentries : (p ∈ S.matrix.slots (n + r) ∧ p ≠ diagonalSlot S.matrix (n + r)) ∨
      values'.getD p 0 = values.getD p 0 →
        ((S.rows.row r).foldl
          (fun v k => v.setIfInBounds (S.slotOfRow.getD k 0) (if active.get r then A.valueAt k else 0)) values').getD p 0 =
        ((S.rows.row r).foldl
          (fun v k => v.setIfInBounds (S.slotOfRow.getD k 0) (if active.get r then A.valueAt k else 0)) values).getD p
            0 := by
    rintro (⟨hmem, hne⟩ | heq)
    · obtain ⟨k, hk, hslot⟩ := (h.row_cases r r.isLt p hmem).resolve_left hne
      exact getD_foldl_set_congr _ _ _ 0 hs (.inl ⟨k, h.rows_eq ▸ hk, hslot⟩)
    · exact getD_foldl_set_congr _ _ _ 0 hs (.inr heq)
  rw [writeRow, writeRow, getD_setIfInBounds, getD_setIfInBounds, size_foldl_setIfInBounds, size_foldl_setIfInBounds, hs]
  by_cases hdiag : diagonalSlot S.matrix (n + r) = p ∧ p < values.size
  · rw [if_pos hdiag, if_pos hdiag]
  · rw [if_neg hdiag, if_neg hdiag]
    by_cases hlt : p < values.size
    · exact hentries (hp.imp_left fun hmem => ⟨hmem, fun heq => hdiag ⟨heq.symm, hlt⟩⟩)
    · refine hentries (.inr ?_)
      rw [getD_of_size_le _ (not_lt.mp hlt), getD_of_size_le _ (hs.trans_le (not_lt.mp hlt))]

theorem writeRows_congr (h : Frame Q A S) (l : List (Fin m)) (hs : values'.size = values.size) {p : Nat}
    (hp : (∃ r ∈ l, p ∈ S.matrix.slots (n + r)) ∨ values'.getD p 0 = values.getD p 0) :
    (l.foldl (S.writeRow A active sigma) values').getD p 0 = (l.foldl (S.writeRow A active sigma) values).getD p 0 := by
  induction l generalizing values values' with
  | nil => exact hp.resolve_left fun ⟨_, hr, _⟩ => List.not_mem_nil hr
  | cons r l ih =>
      rw [List.foldl_cons, List.foldl_cons]
      refine ih (by rw [size_writeRow, size_writeRow, hs]) ?_
      by_cases hl : ∃ r' ∈ l, p ∈ S.matrix.slots (n + r')
      · exact .inl hl
      · refine .inr (writeRow_congr h hs ?_)
        rcases hp with ⟨r', hr', hmem⟩ | heq
        · rcases List.mem_cons.mp hr' with rfl | hr'
          · exact .inl hmem
          · exact absurd ⟨r', hr', hmem⟩ hl
        · exact .inr heq

/-- Assembly writes all slots, so that no old value is left. -/
theorem assemble_congr (h : Frame Q A S) (hs : values.size = S.matrix.values.size) :
    (S.withValues values).assemble Q A active sigma rho = S.assemble Q A active sigma rho := by
  refine Prod.ext ?_ ?_
  · refine array_ext_getD 0 ?_ fun p hp => ?_
    · rw [size_assemble, size_assemble]
      exact hs
    · rw [size_assemble] at hp
      obtain ⟨c, hc, hpc⟩ := h.matrix.exists_column (hp.trans_eq hs)
      rw [h.matrix_cols] at hc
      refine writeRows_congr h (List.finRange m) ?_ ?_
      · rw [size_foldl_modify _ (diagonalSlot (S.withValues values).matrix) fun _ x => x + rho,
          size_foldl_modify _ (diagonalSlot S.matrix) fun _ x => x + rho, size_writeCost, size_writeCost]
        exact hs
      · by_cases hcn : c < n
        · refine .inr ?_
          have hp' : p < (S.writeCost Q).size := by
            rw [size_writeCost]
            exact hp.trans_eq hs
          have hp'' : p < ((S.withValues values).writeCost Q).size := by
            rw [size_writeCost]
            exact hp
          rw [getD_foldl_modify _ (diagonalSlot S.matrix) (fun _ x => x + rho) _ hp', ← writeCost_congr h hs hcn hpc]
          exact getD_foldl_modify _ (diagonalSlot S.matrix) (fun _ x => x + rho) _ hp'' 0
        · obtain ⟨r, rfl⟩ := Nat.exists_eq_add_of_le (not_lt.mp hcn)
          exact .inl ⟨⟨r, by omega⟩, List.mem_finRange _, hpc⟩
  · refine Array.map_congr_left fun j hj => ?_
    have hjn : j < n := Array.mem_range.mp hj
    exact writeCost_congr h hs hjn (h.diagonal_slot j (by omega)).1

/-! ## Updates -/

/-- All that an attempt to factor the system can do. -/
theorem factorChanged_cases {slots : List Nat} {F : Factorization T} {outcome : Except NewtonError Unit}
    (hF : S.factors.updateValues slots (slots.map S.matrix.valueAt) = F)
    (heq : S.factorChanged slots = (S', outcome)) :
    S' = { S with factors := F.refactor.1, factored := outcome.toBool } ∧
      (F.refactor.2 = .ok () ∧
          (F.refactor.1.positive = n ∧ outcome = .ok () ∨
            F.refactor.1.positive ≠ n ∧ outcome = .error .notPositiveDefinite) ∨
        ∃ e, F.refactor.2 = .error e ∧ outcome = .error (.factor e)) := by
  simp only [factorChanged, hF] at heq
  obtain ⟨hS', houtcome⟩ := Prod.mk.inj heq
  rw [houtcome] at hS'
  refine ⟨hS'.symm, ?_⟩
  cases hr : F.refactor.2 with
  | ok _ =>
      rw [hr] at houtcome
      by_cases hpos : F.refactor.1.positive = n
      · exact .inl ⟨rfl, .inl ⟨hpos, houtcome.symm.trans (if_pos hpos)⟩⟩
      · exact .inl ⟨rfl, .inr ⟨hpos, houtcome.symm.trans (if_neg hpos)⟩⟩
  | error e =>
      rw [hr] at houtcome
      exact .inr ⟨e, rfl, houtcome.symm⟩

/-- Only the stored values of the factors count, not the way they got there. -/
theorem factorChanged_of_stored {slots slots' : List Nat}
    (h : S.factors.updateValues slots (slots.map S.matrix.valueAt) =
      S.factors.updateValues slots' (slots'.map S.matrix.valueAt)) :
    S.factorChanged slots = S.factorChanged slots' := by
  unfold AugmentedSystem.factorChanged
  rw [h]

theorem Built.factorChanged (h : Built Q A S) (slots : List Nat) :
    Built Q A (S.factorChanged slots).1 ∧ Siblings S (S.factorChanged slots).1 := by
  obtain ⟨hfitted, hsame⟩ := (h.fitted.updateValues slots (slots.map S.matrix.valueAt)).refactor
  refine ⟨{ frame := h.frame.of_same rfl rfl rfl rfl rfl, fitted := hfitted }, ?_⟩
  exact
    { matrix := ⟨_, rfl, rfl⟩
      slotOfCost := rfl
      slotOfRow := rfl
      rows := rfl
      factors := (samePattern_updateValues _ _ _).trans hsame.pattern }

omit [Scalar T] in
theorem Built.withState (h : Built Q A S) (hs : values.size = S.matrix.values.size)
    (hmatrix : S'.matrix = { S.matrix with values }) (hcost : S'.slotOfCost = S.slotOfCost)
    (hrow : S'.slotOfRow = S.slotOfRow) (hrows : S'.rows = S.rows) (hfactors : S'.factors = S.factors) :
    Built Q A S' ∧ Siblings S S' := by
  refine ⟨{ frame := h.frame.of_same hs hmatrix hcost hrow hrows, fitted := ?_ }, ?_⟩
  · rw [hmatrix, hfactors]
    exact h.fitted.withValues hs
  · exact
      { matrix := ⟨values, hs, hmatrix⟩
        slotOfCost := hcost
        slotOfRow := hrow
        rows := hrows
        factors := hfactors ▸ SamePattern.refl _ }

/-- The system with all values of a new state, still with its old factors. -/
def assembled (S : AugmentedSystem T n m) (Q A : SparseMatrix T) (active : Vector Bool m) (sigma : Vector T m) (rho : T) :
    AugmentedSystem T n m :=
  { S with
    matrix := { S.matrix with values := (S.assemble Q A active sigma rho).1 }
    costDiag := (S.assemble Q A active sigma rho).2
    active, sigma, rho }

theorem update_of_not_factored (hS : S.factored = false) :
    S.update Q A active sigma rho =
      (S.assembled Q A active sigma rho).factorChanged (List.range (S.assembled Q A active sigma rho).matrix.nnz) := by
  rw [update, hS]
  rfl

theorem Built.assembled (h : Built Q A S) (active : Vector Bool m) (sigma : Vector T m) (rho : T) :
    Built Q A (S.assembled Q A active sigma rho) ∧ Siblings S (S.assembled Q A active sigma rho) :=
  h.withState (size_assemble S Q A active sigma rho) rfl rfl rfl rfl rfl

/-- What is assembled differs in its factors only. -/
theorem assembled_congr (h : Frame Q A S) (hs : Siblings S S') (active : Vector Bool m) (sigma : Vector T m) (rho : T) :
    S'.assembled Q A active sigma rho =
      { S.assembled Q A active sigma rho with factors := S'.factors, factored := S'.factored } := by
  obtain ⟨matrix', slotOfCost', slotOfRow', rows', factors', costDiag', active', sigma', rho', factored'⟩ := S'
  obtain ⟨⟨values, hsize, hmatrix⟩, hcost, hrow, hrows, -⟩ := hs
  dsimp only at hmatrix hcost hrow hrows
  subst hmatrix hcost hrow hrows
  have hassemble : assemble ⟨{ S.matrix with values }, S.slotOfCost, S.slotOfRow, S.rows, factors', costDiag', active',
      sigma', rho', factored'⟩ Q A active sigma rho = S.assemble Q A active sigma rho := assemble_congr h hsize
  simp only [AugmentedSystem.assembled, hassemble]

/-- Whatever an update does, the factors still fit. -/
theorem Built.update (h : Built Q A S) (active : Vector Bool m) (sigma : Vector T m) (rho : T) :
    Built Q A (S.update Q A active sigma rho).1 ∧ Siblings S (S.update Q A active sigma rho).1 := by
  cases hS : S.factored with
  | false =>
      obtain ⟨hstate, hsib⟩ := h.assembled active sigma rho
      rw [update_of_not_factored hS]
      exact ⟨(hstate.factorChanged _).1, hsib.trans (hstate.factorChanged _).2⟩
  | true =>
      rw [AugmentedSystem.update, if_pos hS]
      simp only
      split
      · exact ⟨h, Siblings.refl S⟩
      · generalize hre : S.reassemble A active sigma rho = re
        have hsize : re.1.size = S.matrix.values.size := hre ▸ size_reassemble S A active sigma rho
        have hstate : Built Q A { S with matrix := { S.matrix with values := re.1 }, active, sigma, rho } ∧
            Siblings S _ := h.withState hsize rfl rfl rfl rfl rfl
        obtain ⟨hbuilt, hsib⟩ := hstate.1.factorChanged re.2
        exact ⟨hbuilt, hstate.2.trans hsib⟩

omit [Scalar T] in
theorem Built.invalidate (h : Built Q A S) : Built Q A S.invalidate ∧ Siblings S S.invalidate :=
  h.withState rfl rfl rfl rfl rfl rfl

/-- Systems that agree but for their factors do not differ after a factorization of all values, if it succeeds. -/
theorem Built.factorChanged_congr (h : Built Q A S) (h' : Built Q A S') (hs : Siblings S S')
    (heq : S' = { S with factors := S'.factors, factored := S'.factored }) :
    SameEnd AugmentedSystem.factored (S.factorChanged (List.range S.matrix.nnz))
      (S'.factorChanged (List.range S.matrix.nnz)) := by
  have hnnz : S.matrix.nnz = S.matrix.values.size := h.frame.matrix.nnz_eq
  have hmatrix : S'.matrix = S.matrix := by rw [heq]
  have hfitted := h'.fitted
  rw [hmatrix] at hfitted
  generalize hvalues : (List.range S.matrix.nnz).map S.matrix.valueAt = l
  have hlen : S.matrix.values.size ≤ l.length := by
    rw [← hvalues, List.length_map, List.length_range, hnnz]
  have hanalysis := h.fitted.sameAnalysis_updateValues hfitted hs.factors hlen
  rw [← hnnz] at hanalysis
  obtain ⟨hout, -, -, hok⟩ := (h.fitted.updateValues (List.range S.matrix.nnz) l).shape.refactor_congr
    (hfitted.updateValues (List.range S.matrix.nnz) l).shape hanalysis
  unfold AugmentedSystem.factorChanged
  simp only [hmatrix, hvalues, hout]
  cases hr : (S.factors.updateValues (List.range S.matrix.nnz) l).refactor.2 with
  | error e => exact .failed _ rfl rfl
  | ok u =>
      rw [hok hr, heq]
      by_cases hpositive : (S.factors.updateValues (List.range S.matrix.nnz) l).refactor.1.positive = n
      · simp only [if_pos hpositive]
        exact .done _
      · simp only [if_neg hpositive]
        exact .failed _ rfl rfl

/-- From systems that are not factored, whatever they held before, an update ends in the same way. -/
theorem Built.update_congr (h : Built Q A S) (h' : Built Q A S') (hs : Siblings S S') (hS : S.factored = false)
    (hS' : S'.factored = false) (active : Vector Bool m) (sigma : Vector T m) (rho : T) :
    SameEnd AugmentedSystem.factored (S.update Q A active sigma rho) (S'.update Q A active sigma rho) := by
  obtain ⟨hbuilt, hsib⟩ := h.assembled active sigma rho
  obtain ⟨hbuilt', hsib'⟩ := h'.assembled active sigma rho
  have heq := assembled_congr h.frame hs active sigma rho
  have hmatrix : (S'.assembled Q A active sigma rho).matrix = (S.assembled Q A active sigma rho).matrix := by rw [heq]
  rw [update_of_not_factored hS, update_of_not_factored hS', hmatrix]
  exact hbuilt.factorChanged_congr hbuilt' ((hsib.symm.trans hs).trans hsib') heq

/-! ## Construction -/

theorem built_of_ofProblem [Elimination.Rule] (h : NewtonData Q A n m) (hS : ofProblem Q A n m = .ok S) :
    Built Q A S := by
  obtain ⟨F, hF, rfl⟩ := ofProblem_eq_ok.mp hS
  exact { frame := frame_start h F, fitted := fitted_of_ofMatrix (frame_start h F).matrix.toLayout hF }

end AugLag.AugmentedSystem
