import AugLag.Proofs.Newton.ReducedChanges
import AugLag.Proofs.Newton.ReducedValues

/-!
# Updates of the reduced system

The factors of a system that is factored are those of the state it records, whether they were computed from scratch or
modified. Modifications follow the changes of the rows, and succeed as long as the matrices on the way are positive
definite.
-/

namespace AugLag.ReducedSystem

open SparseMatrix Factorization
open scoped Matrix

variable {K : Type} [ExactScalar K] {Q A : SparseMatrix K} {n m : Nat} {S S' : ReducedSystem K n m}
variable {active : Vector Bool m} {sigma : Vector K m} {rho : K} {M : Nat → Nat → K}

/-- The factors are those of a state, and all pivots are positive. -/
structure Serves (Q A : SparseMatrix K) (S : ReducedSystem K n m) (active : Vector Bool m) (sigma : Vector K m)
    (rho : K) : Prop where
  represents : S.factors.Represents (hessianTable Q A active sigma rho)
  positive : S.factors.Positive

/-- The factors fit the pattern, whatever matrix they are of. -/
structure Fits (Q A : SparseMatrix K) (S : ReducedSystem K n m) : Prop where
  frame : Frame Q A S
  analysis : Analysis S.matrix S.factors

/-- The factors of a system that is factored are those of the state it records. -/
structure Consistent (Q A : SparseMatrix K) (S : ReducedSystem K n m) : Prop extends Fits Q A S where
  serves : S.factored = true → Serves Q A S S.active S.sigma S.rho

omit [ExactScalar K] in
theorem Fits.dim_eq (h : Fits Q A S) : S.factors.dim = n := h.analysis.dim_eq.trans h.frame.matrix_cols

theorem Fits.posDef_iff (h : Fits Q A S) (hM : S.factors.Represents M) : PosDef (leading n M) ↔ S.factors.Positive := by
  have hiff := hM.posDef_iff h.analysis
  rw [h.dim_eq] at hiff
  exact hiff

theorem Serves.of_factors (hs : Serves Q A S active sigma rho) (heq : S'.factors = S.factors) :
    Serves Q A S' active sigma rho :=
  { represents := heq ▸ hs.represents, positive := heq ▸ hs.positive }

theorem Serves.posDef (hs : Serves Q A S active sigma rho) (h : Fits Q A S) :
    PosDef (hessian Q A n active sigma rho) := by
  rw [← leading_hessianTable, h.posDef_iff hs.represents]
  exact hs.positive

theorem Serves.mulVec_solve (hs : Serves Q A S active sigma rho) (h : Fits Q A S) (rhs : Vector K n) :
    hessian Q A n active sigma rho *ᵥ (S.solve rhs).get = rhs.get := by
  have hsolve := hs.represents.mulVec_solve h.analysis rhs.toArray
  rw [h.dim_eq, leading_hessianTable] at hsolve
  have hrhs : Factorization.values n rhs.toArray = rhs.get := by
    funext i
    simp [Factorization.values, Array.getD_eq_getD_getElem?, Vector.get]
  have hx : (S.solve rhs).get = Factorization.values n (S.factors.solve rhs.toArray) := by
    funext i
    rw [solve, Vec.read, Vec.get_ofFn]
    rfl
  rw [hx, hsolve, hrhs]

/-! ## Factorization from scratch -/

theorem checkInertia_eq (h : Fits Q A S) (hM : S.factors.Represents M) :
    S.checkInertia = .ok () ∧ S.factors.Positive ∨
      S.checkInertia = .error .notPositiveDefinite ∧ ¬S.factors.Positive := by
  rw [← hM.positive_iff, h.dim_eq, checkInertia]
  by_cases hpos : S.factors.positive = n
  · exact .inl ⟨if_pos hpos, hpos⟩
  · exact .inr ⟨if_neg hpos, hpos⟩

/-- The factors take over all values of a state. -/
theorem Fits.analysis_assemble (h : Fits Q A S) {F : Factorization K}
    (hF : S.factors.updateValues (List.range S.matrix.nnz) (S.assemble Q A active sigma rho).toList = F) :
    Analysis { S.matrix with values := S.assemble Q A active sigma rho } F ∧
      F.stored.Holds { S.matrix with values := S.assemble Q A active sigma rho } := by
  have hs := size_assemble S Q A active sigma rho
  have hnnz : S.matrix.nnz = S.matrix.values.size := h.frame.matrix.nnz_eq
  have hvalues : (S.assemble Q A active sigma rho).toList =
      (List.range S.matrix.nnz).map fun p => (S.assemble Q A active sigma rho).getD p 0 := by
    refine List.ext_getElem (by simp [hs, hnnz]) fun p hp _ => ?_
    rw [Array.length_toList] at hp
    simp [Array.getD_eq_getD_getElem?, hp]
  rw [← hF, hvalues]
  exact h.analysis.updateValues hs (fun p hp => hnnz ▸ List.mem_range.mp hp) fun p hp hmem =>
    absurd (List.mem_range.mpr (hnnz.symm ▸ hp)) hmem

/-- A factorization from scratch succeeds exactly if the matrix is positive definite. -/
theorem refactor_spec (h : Fits Q A S) {outcome : Except NewtonError Unit}
    (heq : S.refactor Q A active sigma rho = (S', outcome)) :
    Consistent Q A S' ∧ SamePattern S.factors S'.factors ∧ S'.factored = outcome.toBool ∧
      (outcome = .ok () ∧ Serves Q A S' active sigma rho ∨
        (∃ e, outcome = .error e) ∧ ¬PosDef (hessian Q A n active sigma rho)) := by
  obtain ⟨hS', houtcome⟩ := refactor_cases rfl heq
  have hs := size_assemble S Q A active sigma rho
  have hpattern := samePattern_updateValues S.factors (List.range S.matrix.nnz) (S.assemble Q A active sigma rho).toList
  generalize hF : S.factors.updateValues (List.range S.matrix.nnz) (S.assemble Q A active sigma rho).toList = F at *
  obtain ⟨hanalysis, hholds⟩ := h.analysis_assemble hF
  obtain ⟨hanalysis', hsame, hcases⟩ := hanalysis.refactor hholds
  have hdim : F.dim = n := hanalysis.dim_eq.trans h.frame.matrix_cols
  have hfits : Fits Q A S' := by
    subst hS'
    exact { frame := h.frame.of_same hs rfl rfl rfl rfl rfl rfl, analysis := hanalysis' }
  have hfactored : S'.factored = outcome.toBool := by rw [hS']
  have hfactors : S'.factors = F.refactor.1 := by rw [hS']
  have hend : outcome = .ok () ∧ Serves Q A S' active sigma rho ∨
      (∃ e, outcome = .error e) ∧ ¬PosDef (hessian Q A n active sigma rho) := by
    rcases hcases with ⟨hok, hrep⟩ | ⟨herror, k, v, hpivot⟩
    · have hrep' : S'.factors.Represents (hessianTable Q A active sigma rho) := by
        rw [hfactors]
        refine hrep.congr hanalysis' fun i hi k hk => ?_
        rw [hsame.dim, hdim] at hi hk
        exact sym_assemble h.frame hi hk
      have houtcome' : outcome = S'.checkInertia := by
        rcases houtcome with ⟨-, heq⟩ | ⟨e, herror, -⟩
        · exact heq
        · rw [hok] at herror
          cases herror
      rw [houtcome']
      rcases checkInertia_eq hfits hrep' with ⟨hcheck, hpos⟩ | ⟨hcheck, hneg⟩
      · exact .inl ⟨hcheck, hrep', hpos⟩
      · refine .inr ⟨⟨_, hcheck⟩, fun hpd => hneg ?_⟩
        rwa [← leading_hessianTable, hfits.posDef_iff hrep'] at hpd
    · rcases houtcome with ⟨hok, -⟩ | ⟨e, -, heq⟩
      · rw [herror] at hok
        cases hok
      · refine .inr ⟨⟨_, heq⟩, fun hpd => ?_⟩
        rw [← leading_assemble h.frame] at hpd
        exact hanalysis.pivot_ne_zero (hdim.symm ▸ hpd) k v hpivot
  refine ⟨{ hfits with serves := fun htrue => ?_ }, ?_, hfactored, hend⟩
  · rcases hend with ⟨-, hserves⟩ | ⟨⟨e, rfl⟩, -⟩
    · subst hS'
      exact hserves
    · rw [hfactored] at htrue
      cases htrue
  · rw [hfactors]
    exact hpattern.trans hsame.pattern

/-! ## Modification -/

/-- One modification, by a row of the constraints. -/
theorem rankOne_spec (h : Fits Q A S) (hM : S.factors.Represents M) (hpos : S.factors.Positive) {r : Nat} (hr : r < m)
    (weight : K) {F : Factorization K} {step : Except FactorError Unit}
    (heq : S.factors.rankOne (S.rowEntries A r) weight = (F, step)) :
    Fits Q A ({ S with factors := F } : ReducedSystem K n m) ∧ SamePattern S.factors F ∧
      (step = .ok () ∧ F.Represents (plusSquare M weight (A.entry r)) ∧ F.Positive ∨
        step = .error .notPositiveDefinite ∧ ¬PosDef (leading n (plusSquare M weight (A.entry r)))) := by
  have hdim := h.dim_eq
  have hrankOne := hM.rankOne h.analysis hpos weight (fun e he => hdim.symm ▸ rowEntries_lt h.frame hr he)
    fun e he e' he' hlt => rowEntries_linked h.frame hr he he' hlt
  rw [heq] at hrankOne
  obtain ⟨hanalysis, hsame, hcases⟩ := hrankOne
  have htable : ∀ i < n, ∀ k < n, plusSquare M weight (fun i => sumAt i (S.rowEntries A r)) i k =
      plusSquare M weight (A.entry r) i k := by
    intro i hi k hk
    simp only [plusSquare, sumAt_rowEntries h.frame hr hi, sumAt_rowEntries h.frame hr hk]
  refine ⟨{ frame := h.frame.of_same rfl rfl rfl rfl rfl rfl rfl, analysis := hanalysis }, hsame.pattern, ?_⟩
  rcases hcases with ⟨hok, hrep, hpos'⟩ | ⟨herror, hnot⟩
  · refine .inl ⟨hok, hrep.congr hanalysis fun i hi k hk => ?_, hpos'⟩
    rw [hsame.dim, hdim] at hi hk
    exact htable i hi k hk
  · have hleading : leading n (plusSquare M weight fun i => sumAt i (S.rowEntries A r)) =
        leading n (plusSquare M weight (A.entry r)) := by
      ext i k
      exact htable i i.isLt k k.isLt
    rw [hdim, hleading] at hnot
    exact .inr ⟨herror, hnot⟩

/-- Modifications lead to the factors of the changed matrix, unless a matrix on the way is not positive definite. -/
theorem modify_spec (h : Fits Q A S) (hM : S.factors.Represents M) (hpos : S.factors.Positive)
    {changes : List (Change K)} (hrows : ∀ c ∈ changes, c.row < m) {outcome : Except NewtonError Unit}
    (heq : S.modify A changes = (S', outcome)) :
    S' = { S with factors := S'.factors } ∧ Fits Q A S' ∧ SamePattern S.factors S'.factors ∧
      (outcome = .ok () ∧ S'.factors.Represents (plusChanges A M changes) ∧ S'.factors.Positive ∨
        (∃ e, outcome = .error e) ∧ ∃ before c after, changes = before ++ c :: after ∧
          ¬PosDef (leading n (plusChanges A M (before ++ [c])))) := by
  induction changes generalizing S M with
  | nil =>
      obtain ⟨rfl, rfl⟩ := Prod.mk.inj heq
      refine ⟨rfl, h, SamePattern.refl _, .inl ⟨?_, ?_, hpos⟩⟩
      · rcases checkInertia_eq h hM with ⟨hcheck, -⟩ | ⟨-, hneg⟩
        · exact hcheck
        · exact absurd hpos hneg
      · rw [plusChanges_nil]
        exact hM
  | cons c rest ih =>
      rw [modify] at heq
      generalize hout : S.factors.rankOne (S.rowEntries A c.row) c.weight = out at heq
      obtain ⟨F, step⟩ := out
      obtain ⟨hfits, hsame, ⟨rfl, hrep, hpos'⟩ | ⟨rfl, hnot⟩⟩ :=
        rankOne_spec h hM hpos (hrows c List.mem_cons_self) c.weight hout
      · obtain ⟨hS', hfits', hpattern, hend⟩ := ih hfits hrep hpos' (fun c hc => hrows c (List.mem_cons_of_mem _ hc)) heq
        refine ⟨hS', hfits', hsame.trans hpattern, ?_⟩
        rcases hend with ⟨hok, hrep, hpos⟩ | ⟨herror, before, c', after, rfl, hnot⟩
        · exact .inl ⟨hok, (plusChanges_cons A M c rest).symm ▸ hrep, hpos⟩
        · refine .inr ⟨herror, c :: before, c', after, rfl, ?_⟩
          rw [List.cons_append, plusChanges_cons]
          exact hnot
      · obtain ⟨rfl, rfl⟩ := Prod.mk.inj heq
        refine ⟨rfl, hfits, hsame, .inr ⟨⟨_, rfl⟩, [], c, rest, rfl, ?_⟩⟩
        rwa [List.nil_append, plusChanges_cons, plusChanges_nil]

/-- From one state to another the modifications succeed exactly if the new matrix is positive definite. -/
theorem modify_changes_spec (h : Consistent Q A S) (hfactored : S.factored = true) {outcome : Except NewtonError Unit}
    (heq : S.modify A (changes S.active S.sigma active sigma) = (S', outcome)) :
    S' = { S with factors := S'.factors } ∧ Fits Q A S' ∧ SamePattern S.factors S'.factors ∧
      (outcome = .ok () ∧ Serves Q A S' active sigma S.rho ∨
        (∃ e, outcome = .error e) ∧ ¬PosDef (hessian Q A n active sigma S.rho)) := by
  have hserves := h.serves hfactored
  obtain ⟨hS', hfits, hpattern, hend⟩ := modify_spec h.toFits hserves.represents hserves.positive
    (fun _ hc => row_lt_of_mem_changes hc) heq
  refine ⟨hS', hfits, hpattern, ?_⟩
  have htable := plusChanges_hessianTable Q A S.active S.sigma active sigma S.rho
  rcases hend with ⟨hok, hrep, hpos⟩ | ⟨herror, before, c, after, hsplit, hnot⟩
  · rw [htable] at hrep
    exact .inl ⟨hok, hrep, hpos⟩
  · refine .inr ⟨herror, fun hpd => hnot ?_⟩
    have hsorted := sorted_changes S.active S.sigma active sigma
    have hfirst := hserves.posDef h.toFits
    rw [← leading_hessianTable] at hfirst hpd
    rw [← htable] at hpd
    rw [hsplit] at hsorted hpd
    exact posDef_prefix hsorted hfirst hpd

/-! ## Updates -/

/-- Why an update does not modify the factors. -/
def NeedsRefactor (S : ReducedSystem K n m) (active : Vector Bool m) (sigma : Vector K m) (rho : K) (c : Settings K) :
    Prop :=
  S.factored = false ∨ rho ≠ S.rho ∨
    changes S.active S.sigma active sigma ≠ [] ∧ S.tooMany c (changes S.active S.sigma active sigma).length = true

theorem not_needsRefactor_iff {c : Settings K} : ¬NeedsRefactor S active sigma rho c ↔
    S.factored = true ∧ rho = S.rho ∧ (changes S.active S.sigma active sigma ≠ [] →
      ¬S.tooMany c (changes S.active S.sigma active sigma).length = true) := by
  simp only [NeedsRefactor, not_or, not_and, Bool.not_eq_false, not_not]

theorem update_of_needsRefactor {c : Settings K} (h : NeedsRefactor S active sigma rho c) :
    S.update Q A active sigma rho c =
      ((S.refactor Q A active sigma rho).1, (S.refactor Q A active sigma rho).2, []) := by
  rw [update]
  by_cases hkeep : S.factored = true ∧ rho = S.rho
  · obtain ⟨hfactored, rfl⟩ := hkeep
    obtain ⟨hempty, hmany⟩ := (h.resolve_left (by simp [hfactored])).resolve_left (not_not.mpr rfl)
    rw [if_neg (by simp [hfactored]), if_neg (by rwa [List.isEmpty_iff]), if_pos hmany]
  · rw [if_pos]
    cases hf : S.factored with
    | false => rfl
    | true => simpa using fun hrho => hkeep ⟨hf, hrho⟩

/-- All that an update can do: nothing, a factorization from scratch, or modifications, which may fail and then are
followed by a factorization from scratch. -/
theorem update_cases {c : Settings K} {outcome : Except NewtonError Unit} {log : List (Event K)}
    (heq : S.update Q A active sigma rho c = (S', outcome, log)) :
    (NeedsRefactor S active sigma rho c ∧ S.refactor Q A active sigma rho = (S', outcome) ∧ log = []) ∨
      ¬NeedsRefactor S active sigma rho c ∧ S.factored = true ∧ rho = S.rho ∧
        ((changes S.active S.sigma active sigma = [] ∧ S' = S ∧ outcome = .ok () ∧ log = []) ∨
          (∃ S₁, S.modify A (changes S.active S.sigma active sigma) = (S₁, .ok ()) ∧
            S' = { S₁ with active, sigma, modified := S₁.modified + (changes S.active S.sigma active sigma).length } ∧
              outcome = .ok () ∧ log = []) ∨
          ∃ S₁ e, S.modify A (changes S.active S.sigma active sigma) = (S₁, .error e) ∧
            S₁.refactor Q A active sigma rho = (S', outcome) ∧ log = [.lowRankFailed e]) := by
  by_cases hneeds : NeedsRefactor S active sigma rho c
  · rw [update_of_needsRefactor hneeds, Prod.mk.injEq, Prod.mk.injEq] at heq
    obtain ⟨rfl, rfl, rfl⟩ := heq
    exact .inl ⟨hneeds, rfl, rfl⟩
  · obtain ⟨hfactored, rfl, hfew⟩ := not_needsRefactor_iff.mp hneeds
    refine .inr ⟨hneeds, hfactored, rfl, ?_⟩
    rw [update, if_neg (by simp [hfactored])] at heq
    by_cases hempty : changes S.active S.sigma active sigma = []
    · rw [if_pos (by rw [hempty]; rfl), Prod.mk.injEq, Prod.mk.injEq] at heq
      obtain ⟨rfl, rfl, rfl⟩ := heq
      exact .inl ⟨hempty, rfl, rfl, rfl⟩
    · rw [if_neg (by rwa [List.isEmpty_iff]), if_neg (hfew hempty)] at heq
      split at heq
      · next S₁ hmodify =>
        rw [Prod.mk.injEq, Prod.mk.injEq] at heq
        obtain ⟨rfl, rfl, rfl⟩ := heq
        exact .inr (.inl ⟨S₁, hmodify, rfl, rfl, rfl⟩)
      · next S₁ e hmodify =>
        rw [Prod.mk.injEq, Prod.mk.injEq] at heq
        obtain ⟨rfl, rfl, rfl⟩ := heq
        exact .inr (.inr ⟨S₁, e, hmodify, rfl, rfl⟩)

/-- An update ends with the factors of the state that was asked for exactly if its matrix is positive definite. -/
theorem update_spec (h : Consistent Q A S) {c : Settings K} {outcome : Except NewtonError Unit} {log : List (Event K)}
    (heq : S.update Q A active sigma rho c = (S', outcome, log)) :
    Consistent Q A S' ∧ SamePattern S.factors S'.factors ∧ S'.factored = outcome.toBool ∧
      (outcome = .ok () ∧ Serves Q A S' active sigma rho ∨
        (∃ e, outcome = .error e) ∧ ¬PosDef (hessian Q A n active sigma rho)) := by
  rcases update_cases heq with ⟨-, hrefactor, -⟩ |
    ⟨-, hfactored, rfl, ⟨hempty, rfl, rfl, -⟩ | ⟨S₁, hmodify, hS', rfl, -⟩ | ⟨S₁, e, hmodify, hrefactor, -⟩⟩
  · exact refactor_spec h.toFits hrefactor
  · refine ⟨h, SamePattern.refl _, hfactored, .inl ⟨rfl, ?_⟩⟩
    have hserves := h.serves hfactored
    have htable := plusChanges_hessianTable Q A S'.active S'.sigma active sigma S'.rho
    rw [hempty, plusChanges_nil] at htable
    exact { hserves with represents := htable ▸ hserves.represents }
  · obtain ⟨hS₁, hfits, hpattern, hend⟩ := modify_changes_spec h hfactored hmodify
    rcases hend with ⟨-, hserves⟩ | ⟨⟨e, herror⟩, -⟩
    · have hrho : S₁.rho = S.rho ∧ S₁.factored = true := by
        rw [hS₁]
        exact ⟨rfl, hfactored⟩
      have hserves' : Serves Q A S' active sigma S.rho := hserves.of_factors (by rw [hS'])
      subst hS'
      refine ⟨{ frame := hfits.frame.of_same rfl rfl rfl rfl rfl rfl rfl, analysis := hfits.analysis, serves := fun _ => ?_ },
        hpattern, hrho.2, .inl ⟨rfl, hserves'⟩⟩
      rw [← hrho.1] at hserves'
      exact hserves'
    · cases herror
  · obtain ⟨-, hfits, hpattern, -⟩ := modify_changes_spec h hfactored hmodify
    obtain ⟨hconsistent, hpattern', hrest⟩ := refactor_spec hfits hrefactor
    exact ⟨hconsistent, hpattern.trans hpattern', hrest⟩

theorem Consistent.invalidate (h : Consistent Q A S) : Consistent Q A S.invalidate where
  frame := h.frame.of_same rfl rfl rfl rfl rfl rfl rfl
  analysis := h.analysis
  serves := nofun

/-! ## Construction -/

theorem valueAt_pattern (h : NewtonData Q A n m) {j p : Nat} (hj : j < n)
    (hp : p ∈ (pattern Q A A.rowIndex A.columnOfSlot).slots j) :
    (pattern Q A A.rowIndex A.columnOfSlot).valueAt p = 0 := by
  refine valueAt_pattern_spec (p := fun x : K => x = 0) rfl (fun a b ha hb => ?_) h hj hp
  rw [ha, hb, add_zero]

/-- Before the first update the system is that of the identity. -/
theorem leading_start (h : NewtonData Q A n m) (F : Factorization K) :
    leading n (start Q A n m F).matrix.sym = 1 := by
  have hframe := frame_start h F
  have hupper : ∀ i j, i ≤ j → j < n → (start Q A n m F).matrix.sym i j = if i = j then 1 else 0 := by
    intro i j hij hj
    have hnodup := hframe.matrix.nodup_rows (show j < _ by rw [hframe.matrix_cols]; exact hj)
    rw [sym_of_le hij]
    by_cases hex : ∃ p ∈ (start Q A n m F).matrix.slots j, (start Q A n m F).matrix.rowAt p = i
    · obtain ⟨p, hp, rfl⟩ := hex
      rw [entry_rowAt hnodup hp]
      exact (getD_initialValues h F hj hp).trans (by rw [valueAt_pattern h hj hp])
    · rw [entry_eq_zero fun p hp heq => hex ⟨p, hp, heq⟩, if_neg]
      rintro rfl
      exact hex ⟨_, (hframe.diagonal_place i hj).mem, (hframe.diagonal_place i hj).row⟩
  ext i j
  show (start Q A n m F).matrix.sym i j = _
  rw [Matrix.one_apply]
  rcases le_total i j with hij | hji
  · rw [hupper i j hij j.isLt]
    exact if_congr Fin.ext_iff.symm rfl rfl
  · rw [sym_comm, hupper j i hji i.isLt]
    exact if_congr (eq_comm.trans Fin.ext_iff.symm) rfl rfl

/-- The pattern can be factored whatever the problem is, provided that the order of elimination lists all indices. -/
theorem exists_ofProblem [Elimination.Rule] (h : NewtonData Q A n m)
    (horder : (Elimination.Rule.order (Elimination.graph (pattern Q A A.rowIndex A.columnOfSlot)) 1.0).Perm (List.range n)) :
    ∃ S, ofProblem Q A n m = .ok S ∧ Consistent Q A S := by
  have hcols : (pattern Q A A.rowIndex A.columnOfSlot).cols = n := by rw [cols_pattern, h.constraint_cols]
  have hwell := (wellFormed_pattern h).withValues (size_initialValues Q A)
  have hcolumns : ∀ j < (pattern Q A A.rowIndex A.columnOfSlot).cols,
      (pattern Q A A.rowIndex A.columnOfSlot).first j ≠ (pattern Q A A.rowIndex A.columnOfSlot).stop j := by
    intro j hj heq
    rw [hcols] at hj
    have hmem := (hasPlace_pattern h ((mem_places h).mpr (.inl ⟨hj, .inr rfl⟩))).mem
    rw [mem_slots, heq] at hmem
    omega
  have hsquare : (pattern Q A A.rowIndex A.columnOfSlot).rows = (pattern Q A A.rowIndex A.columnOfSlot).cols :=
    (cols_pattern Q A).symm
  obtain ⟨F, hF, hA⟩ := Factorization.exists_ofMatrix hwell hsquare (upper_pattern h) hcolumns (hcols.symm ▸ horder)
    fun F hA => hA.pivot_ne_zero (by
      rw [hA.dim_eq.trans hcols]
      exact (leading_start h F).symm ▸ posDef_one)
  refine ⟨start Q A n m F, ofProblem_eq_ok.mpr ⟨F, hF, rfl⟩, ?_⟩
  exact { frame := frame_start h F, analysis := hA, serves := nofun }

end AugLag.ReducedSystem
