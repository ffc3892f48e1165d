import AugLag.Proofs.Newton.AugmentedValues

/-!
# Updates of the augmented system

Whatever happened before, a system that calls itself factored has the factors of the state it records. An update ends
with the factors of the state that was asked for, or fails. It does not fail if the cost with its proximal weight is
positive definite, because then the signs of all pivots are known.
-/

namespace AugLag.AugmentedSystem

open SparseMatrix Factorization
open scoped Matrix

variable {K : Type} [ExactScalar K] {Q A : SparseMatrix K} {n m : Nat} {S S' : AugmentedSystem K n m}
variable {active : Vector Bool m} {sigma : Vector K m} {rho : K}

/-- The factors are those of a state. -/
structure Serves (Q A : SparseMatrix K) (S : AugmentedSystem K n m) (active : Vector Bool m) (sigma : Vector K m)
    (rho : K) : Prop where
  entries : Entries Q A S active sigma rho S.matrix.values
  represents : S.factors.Represents S.matrix.sym
  positive : S.factors.positive = n

/-- The factors of a system that is factored are those of the state it records. -/
structure Consistent (Q A : SparseMatrix K) (S : AugmentedSystem K n m) : Prop where
  frame : Frame Q A S
  analysis : Analysis S.matrix S.factors
  holds : S.factored = true → S.factors.stored.Holds S.matrix
  costDiag : S.factored = true → ∀ j < n, S.costDiag.getD j 0 = Q.entry j j
  serves : S.factored = true → Serves Q A S S.active S.sigma S.rho

theorem Entries.of_same {values values' : Array K} (he : Entries Q A S active sigma rho values)
    (hmatrix : S'.matrix = { S.matrix with values := values' }) (hcost : S'.slotOfCost = S.slotOfCost)
    (hrow : S'.slotOfRow = S.slotOfRow) : Entries Q A S' active sigma rho values := by
  obtain ⟨matrix', slotOfCost', slotOfRow', rows', factors', costDiag', active', sigma', rho', factored'⟩ := S'
  subst hmatrix hcost hrow
  exact
    { entries := he.entries
      diagonal := he.diagonal
      rows := fun r =>
        { entries := (he.rows r).entries
          diagonal := (he.rows r).diagonal } }

/-! ## Factors of a state -/

omit [ExactScalar K] in
theorem Frame.dim_eq (h : Frame Q A S) (hA : Analysis S.matrix S.factors) : S.factors.dim = n + m :=
  hA.dim_eq.trans h.matrix_cols

section Signs

variable {F : Factorization K} {M : SparseMatrix K} {P : Matrix (Fin n) (Fin n) K} {B : Matrix (Fin m) (Fin n) K}
variable {W : Fin m → K}

omit [ExactScalar K] in
theorem exists_order (hA : Analysis M F) {N : Nat} (hdim : F.dim = N) (T : Nat → Nat → K) :
    ∃ π : Equiv.Perm (Fin N), leading N (F.reordered T) = (leading N T).submatrix π π := by
  subst hdim
  exact ⟨_, hA.leading_reordered T⟩

/-- The pivots of a system with a positive definite cost are not zero. -/
theorem pivot_ne_zero (h : Saddle M.sym P B W) (hP : PosDef P) (hW : ∀ r, 0 < W r) (hA : Analysis M F)
    (hdim : F.dim = n + m) (k : Fin F.dim) (v : Fin F.dim → K) :
    ¬PivotVector (leading F.dim (F.reordered M.sym)) k 0 v := by
  obtain ⟨π, hπ⟩ := exists_order hA hdim M.sym
  revert k v
  rw [hdim, hπ]
  intro k v hv
  have hsign := h.pivot_sign hP hW hv
  split at hsign
  · exact lt_irrefl 0 hsign
  · exact lt_irrefl 0 hsign

theorem positive_eq_card (hF : F.Represents M.sym) {N : Nat} (hdim : F.dim = N) :
    F.positive = Nat.card { t : Fin N // 0 < F.diag.getD t 0 } := by
  rw [hF.positive_eq, hdim]
  exact countP_range_eq_card (fun t => 0 < F.diag.getD t 0) N

/-- Factors of a system with a positive definite cost have a positive pivot for each variable. -/
theorem positive_eq (h : Saddle M.sym P B W) (hP : PosDef P) (hW : ∀ r, 0 < W r) (hA : Analysis M F)
    (hF : F.Represents M.sym) (hdim : F.dim = n + m) : F.positive = n := by
  obtain ⟨π, hπ⟩ := exists_order hA hdim M.sym
  have helim := hF.elim
  rw [hdim] at helim
  exact (positive_eq_card hF hdim).trans (h.card_pos hP hW hπ helim (Full.unitLower hF.full))

/-- The condensed matrix of a system with a positive pivot for each variable is positive definite. -/
theorem posDef_of_positive (h : Saddle M.sym P B W) (hW : ∀ r, 0 < W r) (hA : Analysis M F) (hF : F.Represents M.sym)
    (hdim : F.dim = n + m) (hpos : F.positive = n) : PosDef (condensed P B W) := by
  obtain ⟨π, hπ⟩ := exists_order hA hdim M.sym
  have helim := hF.elim
  rw [hdim] at helim
  have hcompl := Fintype.card_subtype_compl fun t : Fin (n + m) => 0 < F.diag.getD t 0
  rw [Fintype.card_fin, ← Nat.card_eq_fintype_card, ← Nat.card_eq_fintype_card, ← positive_eq_card hF hdim, hpos,
    Nat.add_sub_cancel_left] at hcompl
  exact h.posDef_condensed hW hπ helim (Full.unitLower hF.full) hcompl.le

end Signs

theorem Serves.posDef (hs : Serves Q A S active sigma rho) (h : Frame Q A S) (hA : Analysis S.matrix S.factors)
    (hsigma : ∀ r, 0 < sigma.get r) : PosDef (hessian Q A n active sigma rho) := by
  rw [← condensed_eq_hessian]
  exact posDef_of_positive (hs.entries.saddle h) (activeWeights_pos hsigma) hA hs.represents (h.dim_eq hA) hs.positive

/-- The right hand side of the large system is zero in the rows of the constraints. -/
theorem values_append (rhs : Vector K n) :
    Factorization.values (n + m) (rhs.toArray ++ Array.replicate m 0) = Fin.append rhs.get 0 := by
  funext i
  refine Fin.addCases (fun i => ?_) (fun r => ?_) i
  · rw [Fin.append_left]
    simp [Factorization.values, Array.getD_eq_getD_getElem?, Array.getElem?_append, Vector.get]
  · rw [Fin.append_right]
    simp [Factorization.values, Array.getD_eq_getD_getElem?]

theorem Serves.mulVec_solve (hs : Serves Q A S active sigma rho) (h : Frame Q A S) (hA : Analysis S.matrix S.factors)
    (hsigma : ∀ r, 0 < sigma.get r) (rhs : Vector K n) :
    hessian Q A n active sigma rho *ᵥ (S.solve rhs).get = rhs.get := by
  have hsolve := hs.represents.mulVec_solve hA (rhs.toArray ++ Array.replicate m 0)
  rw [h.dim_eq hA, values_append] at hsolve
  generalize hx : S.factors.solve (rhs.toArray ++ Array.replicate m 0) = x at hsolve
  have hsplit : Factorization.values (n + m) x =
      Fin.append (S.solve rhs).get (fun r : Fin m => Factorization.values (n + m) x (Fin.natAdd n r)) := by
    conv_lhs => rw [← Fin.append_castAdd_natAdd (f := Factorization.values (n + m) x)]
    refine congrArg₂ _ (funext fun i => ?_) rfl
    rw [solve, hx, Vec.read, Vec.get_ofFn]
    rfl
  rw [hsplit] at hsolve
  rw [← condensed_eq_hessian]
  exact (hs.entries.saddle h).mulVec_condensed (fun r => (activeWeights_pos hsigma r).ne') hsolve

/-! ## Updates -/

/-- The system after an attempt to factor it. -/
theorem factorChanged_spec {slots : List Nat} {F : Factorization K} {outcome : Except NewtonError Unit}
    (hF : S.factors.updateValues slots (slots.map S.matrix.valueAt) = F) (heq : S.factorChanged slots = (S', outcome))
    (h : Frame Q A S) (hA : Analysis S.matrix F) (hholds : F.stored.Holds S.matrix)
    (he : Entries Q A S S.active S.sigma S.rho S.matrix.values) (hcost : ∀ j < n, S.costDiag.getD j 0 = Q.entry j j)
    (hsigma : ∀ r, 0 < S.sigma.get r) :
    Consistent Q A S' ∧ (outcome = .ok () → Serves Q A S' S.active S.sigma S.rho) ∧
      (PosDef (proximal Q n S.rho) → outcome = .ok ()) := by
  obtain ⟨hS', houtcome⟩ := factorChanged_cases hF heq
  obtain ⟨hA', hsame, hcases⟩ := hA.refactor hholds
  have hframe : Frame Q A S' := by
    subst hS'
    exact h.of_same rfl rfl rfl rfl rfl
  have hserves : outcome = .ok () → Serves Q A S' S.active S.sigma S.rho := by
    rintro rfl
    rcases houtcome with ⟨hok, ⟨hpos, -⟩ | ⟨-, hne⟩⟩ | ⟨e, -, hne⟩
    · have hrepresents : F.refactor.1.Represents S.matrix.sym := by
        rcases hcases with ⟨-, hrepresents⟩ | ⟨herror, -⟩
        · exact hrepresents
        · rw [hok] at herror
          cases herror
      subst hS'
      exact { entries := he.of_same rfl rfl rfl, represents := hrepresents, positive := hpos }
    · cases hne
    · cases hne
  refine ⟨?_, hserves, fun hP => ?_⟩
  · have hfactored : S'.factored = true → outcome = .ok () := by
      rw [hS']
      intro htrue
      cases outcome with
      | ok _ => rfl
      | error e => cases htrue
    refine { frame := hframe, analysis := ?_, holds := fun _ => ?_, costDiag := fun _ => ?_, serves := fun htrue => ?_ }
    · subst hS'
      exact hA'
    · subst hS'
      show F.refactor.1.stored.Holds S.matrix
      rw [hsame.stored]
      exact hholds
    · subst hS'
      exact hcost
    · have hs := hserves (hfactored htrue)
      subst hS'
      exact hs
  · have hsaddle := he.saddle h
    have hW := @activeWeights_pos _ _ _ S.active _ hsigma
    have hdim : F.dim = n + m := hA.dim_eq.trans h.matrix_cols
    rcases hcases with ⟨hok, hrepresents⟩ | ⟨-, k, v, hpivot⟩
    · have hpos := positive_eq hsaddle hP hW hA' hrepresents (hsame.dim.trans hdim)
      rcases houtcome with ⟨-, ⟨-, heq⟩ | ⟨hne, -⟩⟩ | ⟨e, herror, -⟩
      · exact heq
      · exact absurd hpos hne
      · rw [hok] at herror
        cases herror
    · exact absurd hpivot (pivot_ne_zero hsaddle hP hW hA hdim k v)

/-- The factors take over all values of a state. -/
theorem Consistent.analysis_assemble (h : Consistent Q A S) (active : Vector Bool m) (sigma : Vector K m) (rho : K) :
    Analysis { S.matrix with values := (S.assemble Q A active sigma rho).1 }
        (S.factors.updateValues (List.range S.matrix.nnz)
          ((List.range S.matrix.nnz).map ((S.assemble Q A active sigma rho).1.getD · 0))) ∧
      (S.factors.updateValues (List.range S.matrix.nnz)
          ((List.range S.matrix.nnz).map ((S.assemble Q A active sigma rho).1.getD · 0))).stored.Holds
        { S.matrix with values := (S.assemble Q A active sigma rho).1 } := by
  have hnnz : S.matrix.nnz = S.matrix.values.size := h.frame.matrix.nnz_eq
  exact h.analysis.updateValues (size_assemble S Q A active sigma rho) (fun p hp => hnnz ▸ List.mem_range.mp hp)
    fun p hp hmem => absurd (List.mem_range.mpr (hnnz.symm ▸ hp)) hmem

/-- An update ends with the factors of the state that was asked for, or fails. -/
theorem update_spec (h : Consistent Q A S) (hsigma : ∀ r, 0 < sigma.get r) {outcome : Except NewtonError Unit}
    (heq : S.update Q A active sigma rho = (S', outcome)) :
    Consistent Q A S' ∧ (outcome = .ok () → Serves Q A S' active sigma rho) ∧
      (PosDef (proximal Q n rho) → outcome = .ok ()) := by
  unfold update at heq
  by_cases hfactored : S.factored = true
  · rw [if_pos hfactored] at heq
    generalize hre : S.reassemble A active sigma rho = re at heq
    obtain ⟨values, slots⟩ := re
    have hserves := h.serves hfactored
    obtain ⟨hs, he, hslots, hrest⟩ := reassemble_spec h.frame hserves.entries (h.costDiag hfactored) hre
    by_cases hempty : slots.isEmpty = true
    · simp only [if_pos hempty] at heq
      obtain ⟨rfl, rfl⟩ := Prod.mk.inj heq
      have hvalues : values = S.matrix.values := by
        rw [List.isEmpty_iff] at hempty
        refine array_ext_getD 0 hs fun p _ => hrest p ?_
        rw [hempty]
        exact List.not_mem_nil
      rw [hvalues] at he
      exact ⟨h, fun _ => { hserves with entries := he }, fun _ => rfl⟩
    · simp only [if_neg hempty] at heq
      obtain ⟨hA, hholds⟩ := h.analysis.updateValues hs hslots fun p hp hmem =>
        (h.holds hfactored p hp).trans (hrest p hmem).symm
      exact factorChanged_spec rfl heq (h.frame.of_same hs rfl rfl rfl rfl) hA hholds (he.of_same rfl rfl rfl)
        (h.costDiag hfactored) hsigma
  · rw [if_neg hfactored] at heq
    obtain ⟨he, hcost⟩ := @assemble_spec _ _ _ _ _ _ _ active sigma rho h.frame
    have hs := size_assemble S Q A active sigma rho
    obtain ⟨hA, hholds⟩ := h.analysis_assemble active sigma rho
    exact factorChanged_spec rfl heq (h.frame.of_same hs rfl rfl rfl rfl) hA hholds (he.of_same rfl rfl rfl)
      hcost hsigma

theorem Consistent.invalidate (h : Consistent Q A S) : Consistent Q A S.invalidate where
  frame := h.frame.of_same rfl rfl rfl rfl rfl
  analysis := h.analysis
  holds := nofun
  costDiag := nofun
  serves := nofun

/-! ## Construction -/

/-- Before the first update the system is that of the identity without constraints. -/
theorem saddle_start (h : NewtonData Q A n m) (F : Factorization K) :
    Saddle (start Q A n m F).matrix.sym (1 : Matrix (Fin n) (Fin n) K) 0 fun _ : Fin m => 1 := by
  have hframe := frame_start h F
  have hdiag := fun j => valueAt_start_diagonal (j := j) h F
  have hzero := fun p => valueAt_start_of_ne (p := p) h F
  refine hframe.saddle (fun i j => ?_) (fun j => ?_) (fun i j hij k hk hki => ?_) (fun i j hij _ => ?_)
    (fun r j k hk hkr => ?_) (fun r j _ => rfl) fun r => ?_
  · rw [Matrix.one_apply, Matrix.one_apply]
    exact if_congr eq_comm rfl rfl
  · rw [hdiag j (by omega), if_pos j.isLt, Matrix.one_apply_eq]
  · rw [Matrix.one_apply_ne hij.ne]
    refine hzero _ fun c hc heq => ?_
    have hmem := (hframe.cost_slot j j.isLt k hk).1
    obtain rfl := hframe.column_unique hc (by omega) (hframe.diagonal_slot c hc).1 (heq ▸ hmem)
    have := (hframe.slotOfCost_eq_diagonal j.isLt hk).mp heq.symm
    have hij' : (i : Nat) < j := hij
    omega
  · exact Matrix.one_apply_ne hij.ne
  · obtain ⟨-, hmemRow, -⟩ := h.mem_row_of_slot j.isLt hk
    rw [hkr] at hmemRow
    refine hzero _ fun c hc heq => ?_
    have hmem := (hframe.row_slot r r.isLt k hmemRow).1
    obtain rfl := hframe.column_unique hc (by omega) (hframe.diagonal_slot c hc).1 (heq ▸ hmem)
    exact hframe.slotOfRow_ne_diagonal hmemRow heq.symm
  · rw [hdiag _ (by omega), if_neg (by omega)]

/-- The pattern can be factored whatever the problem is, provided that the order of elimination lists all indices. -/
theorem exists_ofProblem [Elimination.Rule] (h : NewtonData Q A n m)
    (horder : (Elimination.Rule.order (Elimination.graph (pattern Q A A.rowIndex)) 1.0).Perm (List.range (n + m))) :
    ∃ S, ofProblem Q A n m = .ok S ∧ Consistent Q A S := by
  have hcols : (pattern Q A A.rowIndex).cols = n + m := by
    rw [cols_pattern, h.constraint_cols, h.constraint_rows]
  have hwell := (wellFormed_pattern h).withValues (size_foldl_setIfInBounds _ _ _ _ : (initialValues Q A).size = _)
  have hsquare : (pattern Q A A.rowIndex).rows = (pattern Q A A.rowIndex).cols := by
    rw [hcols, pattern_eq, h.constraint_cols, h.constraint_rows]
    rfl
  have hcolumns : ∀ j < (pattern Q A A.rowIndex).cols,
      (pattern Q A A.rowIndex).first j ≠ (pattern Q A A.rowIndex).stop j := by
    intro j hj heq
    have hrows := rows_pattern Q A (cols_pattern Q A ▸ hj)
    rw [slots, heq, Nat.sub_self] at hrows
    have hlast := getLast_rowsOfColumn Q A j
    rw [← hrows] at hlast
    cases hlast
  obtain ⟨F, hF, hA⟩ := Factorization.exists_ofMatrix hwell hsquare (upper_pattern h) hcolumns (hcols ▸ horder)
    fun F hA => pivot_ne_zero (saddle_start h F) posDef_one (fun _ => one_pos) hA (hA.dim_eq.trans hcols)
  refine ⟨start Q A n m F, ofProblem_eq_ok.mpr ⟨F, hF, rfl⟩, ?_⟩
  exact
    { frame := frame_start h F
      analysis := hA
      holds := fun hfactored => by cases hfactored
      costDiag := fun hfactored => by cases hfactored
      serves := fun hfactored => by cases hfactored }

end AugLag.AugmentedSystem
