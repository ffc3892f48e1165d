import AugLag.Proofs.Checks
import AugLag.Proofs.Factor.RankOne
import AugLag.Proofs.Factor.Solve

/-!
# Factors of a matrix

The analysis of a matrix makes arrays that fit its pattern, and the values of the matrix can be replaced afterwards.
Factorization, modification and solution are described in terms of the matrix itself, whose rows and columns the
factors see in the order of elimination.
-/

namespace AugLag.Factorization

open EliminationTree SparseMatrix PermutedUpper
open scoped Matrix

variable {K : Type} [ExactScalar K] {A : SparseMatrix K} {F F' : Factorization K} {M : Nat → Nat → K} {N : Nat}

/-- The arrays of the factors fit the pattern of the matrix, whose rows and columns are permuted. -/
structure Analysis (A : SparseMatrix K) (F : Factorization K) : Prop extends Fitted A F where
  distinct : Distinct A
  order : Permutes F.perm F.inverse A.cols

/-- A table with its rows and columns in the order of elimination. -/
def reordered (F : Factorization K) (M : Nat → Nat → K) (i k : Nat) : K := M (F.perm.getD i 0) (F.perm.getD k 0)

/-- The factors are those of the table `M`. -/
def Represents (F : Factorization K) (M : Nat → Nat → K) : Prop := F.Factors (F.reordered M)

namespace Analysis

omit [ExactScalar K] in
theorem mirrors (h : Analysis A F) : Mirrors A F.perm F.inverse F.stored := { h.sorted with permutes := h.order }

omit [ExactScalar K] in
theorem permutes (h : Analysis A F) : Permutes F.perm F.inverse F.dim := h.dim_eq ▸ h.order

omit [ExactScalar K] in
/-- The stored matrix holds no place twice. -/
theorem upperPattern (h : Analysis A F) : UpperPattern F.stored.matrix :=
  ⟨h.shape.upper, fun _ hj => h.mirrors.nodup_matrix h.distinct (h.sorted.cols_eq ▸ hj)⟩

omit [ExactScalar K] in
theorem leading_reordered (h : Analysis A F) (M : Nat → Nat → K) :
    leading F.dim (F.reordered M) = (leading F.dim M).submatrix h.permutes.equiv h.permutes.equiv := rfl

theorem posDef_reordered (h : Analysis A F) (M : Nat → Nat → K) :
    PosDef (leading F.dim (F.reordered M)) ↔ PosDef (leading F.dim M) := by
  rw [h.leading_reordered]
  exact posDef_submatrix _

/-- A positive definite matrix has no pivot that is zero. -/
theorem pivot_ne_zero (h : Analysis A F) (hM : PosDef (leading F.dim M)) (k : Fin F.dim) (v : Fin F.dim → K) :
    ¬PivotVector (leading F.dim (F.reordered M)) k 0 v :=
  fun hv => lt_irrefl 0 (hv.pos ((h.posDef_reordered M).mpr hM))

omit [ExactScalar K] in
/-- The same analysis serves other factors. -/
theorem of_same (h : Analysis A F) (hs : SameAnalysis F F') (hF' : Shape F') : Analysis A F' :=
  { h.toFitted.of_same hs hF' with distinct := h.distinct, order := by rw [hs.perm, hs.inverse]; exact h.order }

end Analysis

omit [ExactScalar K] in
theorem SameAnalysis.reordered_eq (hs : SameAnalysis F F') (M : Nat → Nat → K) : F'.reordered M = F.reordered M := by
  unfold reordered
  rw [hs.perm]

/-! ## The analysis of a matrix -/

theorem Distinct.analysis_analyze (hA : Distinct A) (hupper : A.Upper) {perm inverse : Array Nat}
    (hinv : Permutes perm inverse A.cols) :
    Analysis A (analyze A perm inverse) ∧ (analyze A perm inverse).stored.Holds A :=
  ⟨{ fitted_analyze hA.toLayout hupper hinv.inverse_lt with distinct := hA, order := hinv },
    holds_ofMatrix hA.toLayout hupper hinv.inverse_lt⟩

theorem analysis_analyze (hA : WellFormed A) (hupper : A.Upper) {perm inverse : Array Nat}
    (hinv : Permutes perm inverse A.cols) :
    Analysis A (analyze A perm inverse) ∧ (analyze A perm inverse).stored.Holds A :=
  Distinct.analysis_analyze hA.distinct hupper hinv

/-! ## New values -/

/-- Replacing the values of some slots brings the stored values in line with the matrix, if they were elsewhere. -/
theorem Analysis.updateValues (h : Analysis A F) {values : Array K} (hs : values.size = A.values.size) {slots : List Nat}
    (hslots : ∀ k ∈ slots, k < A.values.size)
    (hrest : ∀ k < A.values.size, k ∉ slots → F.stored.matrix.valueAt (F.stored.slotOf.getD k 0) = values.getD k 0) :
    Analysis { A with values } (F.updateValues slots (slots.map fun k => values.getD k 0)) ∧
      (F.updateValues slots (slots.map fun k => values.getD k 0)).stored.Holds { A with values } :=
  ⟨{ (h.toFitted.updateValues _ _).withValues hs with distinct := h.distinct.withValues hs, order := h.order },
    h.toFitted.holds_updateValues hs hslots hrest⟩

/-! ## Factorization -/

theorem Factors.congr {a b : Nat → Nat → K} (h : F.Factors a) (hab : ∀ i < F.dim, ∀ k < F.dim, a i k = b i k) :
    F.Factors b :=
  { h with
    elim := by
      intro i hi k hk
      rw [← hab i hi k hk]
      exact h.elim i hi k hk }

theorem Represents.congr {M' : Nat → Nat → K} (h : F.Represents M) (hA : Analysis A F)
    (hM : ∀ i < F.dim, ∀ k < F.dim, M i k = M' i k) : F.Represents M' :=
  Factors.congr h fun i hi k hk => hM _ (hA.permutes.perm_lt i hi) _ (hA.permutes.perm_lt k hk)

theorem Analysis.stored_eq (h : Analysis A F) (hv : F.stored.Holds A) :
    leading F.dim F.stored.matrix.sym = leading F.dim (F.reordered A.sym) := by
  ext i k
  have hdim := h.dim_eq
  exact h.mirrors.sym_matrix h.distinct hv (by omega) (by omega)

/-- A factorization succeeds with factors of the matrix, or meets a pivot zero of its leading rows. -/
theorem Analysis.refactor (h : Analysis A F) (hv : F.stored.Holds A) :
    Analysis A F.refactor.1 ∧ SameAnalysis F F.refactor.1 ∧
      (F.refactor.2 = .ok () ∧ F.refactor.1.Represents A.sym ∨
        F.refactor.2 = .error .zeroPivot ∧ ∃ k v, PivotVector (leading F.dim (F.reordered A.sym)) k 0 v) := by
  obtain ⟨hshape, hsame, hcases⟩ := h.shape.refactor_spec h.upperPattern
  refine ⟨h.of_same hsame hshape, hsame, ?_⟩
  rcases hcases with ⟨hok, hfactors⟩ | ⟨herror, k, v, hpivot⟩
  · refine .inl ⟨hok, ?_⟩
    rw [Represents, hsame.reordered_eq]
    refine hfactors.congr fun i hi k hk => ?_
    rw [hsame.dim] at hi hk
    exact congrFun (congrFun (h.stored_eq hv) ⟨i, hi⟩) ⟨k, hk⟩
  · refine .inr ⟨herror, k, v, ?_⟩
    rw [h.stored_eq hv] at hpivot
    exact hpivot

/-- The pivots tell whether the matrix is positive definite. -/
theorem Represents.posDef_iff (h : F.Represents M) (hA : Analysis A F) :
    PosDef (leading F.dim M) ↔ F.Positive := by
  have hunit := Full.unitLower h.full
  rw [← hA.posDef_reordered]
  refine ⟨fun hpos c hc => ?_, fun hpos => h.elim.posDef hunit hpos⟩
  obtain ⟨v, hv⟩ := @Eliminated.exists_pivotVector _ _ F.dim _ _ _ ⟨c, hc⟩ (h.elim.mono hunit hc) hunit
  exact hv.pos hpos

/-- The number of positive pivots is the dimension if and only if all are positive. -/
theorem Represents.positive_iff (h : F.Represents M) : F.positive = F.dim ↔ F.Positive := by
  have hcount := @List.countP_eq_length _ (List.range F.dim) fun c => decide (0 < F.diag.getD c 0)
  rw [List.length_range] at hcount
  rw [h.positive_eq, hcount]
  simp only [List.mem_range, decide_eq_true_eq]
  rfl

theorem Represents.mulVec_solve (h : F.Represents M) (hA : Analysis A F) (b : Array K) :
    leading F.dim M *ᵥ values F.dim (F.solve b) = values F.dim b :=
  Factors.mulVec_solve h hA.shape hA.permutes rfl b

/-! ## Modification -/

/-- The vector of a modification, in the order of elimination. -/
theorem Analysis.permutedVector_eq (hA : Analysis A F) {entries : List (Nat × K)} (hin : ∀ e ∈ entries, e.1 < F.dim)
    {i : Nat} (hi : i < F.dim) : (F.permutedVector entries).getD i 0 = sumAt (F.perm.getD i 0) entries := by
  rw [getD_permutedVector F entries hi, sumAt]
  refine congrArg (fun l : List (Nat × K) => (l.map Prod.snd).sum) (List.filter_congr fun e he => ?_)
  refine decide_eq_decide.mpr ⟨fun heq => ?_, fun heq => ?_⟩
  · rw [← heq, hA.permutes.perm_inverse e.1 (hin e he)]
  · rw [heq, hA.permutes.inverse_perm i hi]

omit [ExactScalar K] in
/-- Two places that the matrix links are linked in the factors. -/
theorem Analysis.reaches_of_slot (hA : Analysis A F) {i j k : Nat} (hj : j < F.dim) (hk : k ∈ A.slots j)
    (hrow : A.rowAt k = i) (hne : F.inverse.getD i 0 ≠ F.inverse.getD j 0) :
    Reaches F.stored.matrix F.tree (max (F.inverse.getD i 0) (F.inverse.getD j 0))
      (min (F.inverse.getD i 0) (F.inverse.getD j 0)) := by
  rw [hA.dim_eq] at hj
  have hmem := hA.mirrors.mem_slots j hj k hk
  have hplace := hA.mirrors.row_eq j hj k hk
  subst hrow
  have hentry := @Reaches.entry _ F.stored.matrix F.tree _ _ hmem (by
    rw [hplace]
    exact min_lt_max.mpr hne)
  rw [hplace] at hentry
  exact hentry

/-- A modification by a row whose entries are linked pairwise either succeeds, and then it is exact, or it meets a pivot
that rules out that the result is positive definite. -/
theorem Represents.rankOne_cases (h : F.Represents M) (hA : Analysis A F) {entries : List (Nat × K)} (weight : K)
    (hin : ∀ e ∈ entries, e.1 < F.dim)
    (hlinked : ∀ e ∈ entries, ∀ e' ∈ entries, e.1 < e'.1 → ∃ k ∈ A.slots e'.1, A.rowAt k = e.1) :
    Analysis A (F.rankOne entries weight).1 ∧ SameAnalysis F (F.rankOne entries weight).1 ∧
      ((F.rankOne entries weight).2 = .ok () ∧
          (F.rankOne entries weight).1.Represents (plusSquare M weight fun r => sumAt r entries) ∧
          (F.Positive → (F.rankOne entries weight).1.Positive) ∨
        (F.rankOne entries weight).2 = .error .notPositiveDefinite ∧
          ¬PosDef (leading F.dim (plusSquare M weight fun r => sumAt r entries))) := by
  have hreach : ∀ e ∈ entries, ∀ e' ∈ entries, F.inverse.getD e.1 0 < F.inverse.getD e'.1 0 →
      Reaches F.stored.matrix F.tree (F.inverse.getD e'.1 0) (F.inverse.getD e.1 0) := by
    intro e he e' he' hlt
    rcases Nat.lt_trichotomy e.1 e'.1 with hlt' | heq | hgt
    · obtain ⟨k, hk, hrow⟩ := hlinked e he e' he' hlt'
      have := hA.reaches_of_slot (hin e' he') hk hrow hlt.ne
      rwa [max_eq_right hlt.le, min_eq_left hlt.le] at this
    · rw [heq] at hlt
      exact absurd hlt (lt_irrefl _)
    · obtain ⟨k, hk, hrow⟩ := hlinked e' he' e he hgt
      have := hA.reaches_of_slot (hin e he) hk hrow hlt.ne'
      rwa [max_eq_left hlt.le, min_eq_right hlt.le] at this
  obtain ⟨hshape, hsame, hcases⟩ := Factors.rankOne_cases h hA.shape entries weight
    (fun e he => hA.permutes.inverse_lt e.1 (hin e he)) hreach
  have htarget : ∀ i < F.dim, ∀ k < F.dim, plusSquare (F.reordered M) weight ((F.permutedVector entries).getD · 0) i k =
      F.reordered (plusSquare M weight fun r => sumAt r entries) i k := by
    intro i hi k hk
    simp only [plusSquare, reordered, hA.permutedVector_eq hin hi, hA.permutedVector_eq hin hk]
  refine ⟨hA.of_same hsame hshape, hsame, ?_⟩
  rcases hcases with ⟨hok, hfactors, hpos'⟩ | ⟨herror, hnot⟩
  · refine .inl ⟨hok, ?_, hpos'⟩
    rw [Represents, hsame.reordered_eq]
    refine hfactors.congr fun i hi k hk => ?_
    rw [hsame.dim] at hi hk
    exact htarget i hi k hk
  · refine .inr ⟨herror, fun hpd => hnot ?_⟩
    rw [← hA.posDef_reordered] at hpd
    have hleading : leading F.dim (plusSquare (F.reordered M) weight ((F.permutedVector entries).getD · 0)) =
        leading F.dim (F.reordered (plusSquare M weight fun r => sumAt r entries)) := by
      ext i k
      exact htarget i i.isLt k k.isLt
    rw [hleading]
    exact hpd

/-- A modification by a row whose entries are linked pairwise succeeds if the result is positive definite. -/
theorem Represents.rankOne (h : F.Represents M) (hA : Analysis A F) (hpos : F.Positive) {entries : List (Nat × K)}
    (weight : K) (hin : ∀ e ∈ entries, e.1 < F.dim)
    (hlinked : ∀ e ∈ entries, ∀ e' ∈ entries, e.1 < e'.1 → ∃ k ∈ A.slots e'.1, A.rowAt k = e.1) :
    Analysis A (F.rankOne entries weight).1 ∧ SameAnalysis F (F.rankOne entries weight).1 ∧
      ((F.rankOne entries weight).2 = .ok () ∧
          (F.rankOne entries weight).1.Represents (plusSquare M weight fun r => sumAt r entries) ∧
          (F.rankOne entries weight).1.Positive ∨
        (F.rankOne entries weight).2 = .error .notPositiveDefinite ∧
          ¬PosDef (leading F.dim (plusSquare M weight fun r => sumAt r entries))) := by
  obtain ⟨hanalysis, hsame, hcases⟩ := h.rankOne_cases hA weight hin hlinked
  refine ⟨hanalysis, hsame, hcases.imp_left ?_⟩
  rintro ⟨hok, hrepresents, hkept⟩
  exact ⟨hok, hrepresents, hkept hpos⟩

/-! ## Uniqueness -/

/-- Full factors of one pattern with equal entries are equal. -/
theorem Full.ext {tree : EliminationTree} {L L' : SparseMatrix K} (h : Full A tree L) (h' : Full A tree L')
    (hentry : ∀ i < A.cols, ∀ c < A.cols, L.entry i c = L'.entry i c) : L = L' := by
  refine h.toRoom.ext h'.toRoom fun c hc => ?_
  have hslots := h.slots_eq h'.toRoom hc
  have hmap := (h.rows_eq c hc).trans (h'.rows_eq c hc).symm
  rw [← hslots] at hmap
  rw [column, column, ← hslots]
  refine List.map_congr_left fun p hp => ?_
  have hrow : L.rowAt p = L'.rowAt p := List.map_inj_left.mp hmap p hp
  have heq := hentry (L.rowAt p) (h.row_reaches hc hp).1 c hc
  rw [entry_rowAt (h.nodup_rows hc) hp, hrow, entry_rowAt (h'.nodup_rows hc) (hslots ▸ hp)] at heq
  rw [hrow, heq]

omit [ExactScalar K] in
/-- Which rows a column has room for does not depend on the values. -/
theorem Full.of_values {tree : EliminationTree} {L : SparseMatrix K} {values : Array K}
    (h : Full { A with values } tree L) : Full A tree L :=
  { h.toLayout with
    square := h.square
    cols_eq := h.cols_eq
    stop_eq := fun c hc => (h.stop_eq c hc).trans (by rw [rowsOf_withValues])
    rows_eq := fun c hc => (h.rows_eq c hc).trans (rowsOf_withValues ..) }

/-- Factors of one matrix by one analysis are equal. -/
theorem Represents.unique (h : F.Represents M) (h' : F'.Represents M) (hF : Shape F) (hF' : Shape F')
    (hs : SamePattern F F') : F'.lower = F.lower ∧ F'.diag = F.diag ∧ F'.diagInv = F.diagInv := by
  have hfull' := h'.full
  have helim' := h'.elim
  obtain ⟨values, hvalues⟩ := hs.stored
  rw [hvalues, hs.tree] at hfull'
  replace hfull' := Full.of_values hfull'
  have hreordered : F'.reordered M = F.reordered M := by
    unfold reordered
    rw [hs.perm]
  rw [hs.dim, hreordered] at helim'
  have hunique := h.elim.unique helim' (Full.unitLower h.full) (Full.unitLower hfull') h.ne_zero
  have hcols : F.stored.matrix.cols = F.dim := hF.size_diag.symm
  refine ⟨Full.ext hfull' h.full fun i hi c hc => ?_, array_ext_getD 0 hs.dim fun c hc => ?_,
    array_ext_getD 0 ?_ fun c hc => ?_⟩
  · rw [hcols] at hi hc
    have hunit := (hunique c hc).2 i hi
    by_cases hic : i = c
    · rw [hic, Full.entry_of_le hfull' le_rfl, Full.entry_of_le h.full le_rfl]
    · rwa [unit_of_ne _ hic, unit_of_ne _ hic, eq_comm] at hunit
  · exact (hunique c (hs.dim ▸ hc)).1.symm
  · rw [hF.size_diagInv, hF'.size_diagInv, hvalues]
  · rw [hF'.size_diagInv, hvalues, hcols] at hc
    rw [h'.diagInv_eq c (hs.dim ▸ hc), h.diagInv_eq c hc]
    exact congrArg (·⁻¹) (hunique c hc).1.symm

/-! ## Construction -/

omit [ExactScalar K] in
theorem isUpper_eq_true (hupper : A.Upper) : A.isUpper = true := by
  simp only [isUpper, columnIsUpper, List.all_eq_true, List.mem_range, decide_eq_true_eq]
  exact hupper

omit [ExactScalar K] in
theorem isUpper?_eq_some (hA : Layout A) (hupper : A.Upper) : A.isUpper? = some true := by
  have hnone : ((List.range A.cols).find? fun j => !(A.rowsReadable j && A.columnIsUpper j)) = none := by
    refine List.find?_eq_none.mpr fun j hj => ?_
    rw [List.mem_range] at hj
    have hcolumn : A.columnIsUpper j = true := by
      simp only [columnIsUpper, List.all_eq_true, decide_eq_true_eq]
      exact hupper j hj
    have hreadable : A.rowsReadable j = true := by
      have hstop := hA.stop_le_size hj
      simp [rowsReadable, hasColumn, hA.size_colPtr, hA.first_le_stop j hj, hA.size_rowIdx, hj, hstop]
    simp [hcolumn, hreadable]
  rw [isUpper?, hnone]

omit [ExactScalar K] in
theorem checkStructure_eq_ok (hA : WellFormed A) (hsquare : A.rows = A.cols)
    (hcolumns : ∀ j < A.cols, A.first j ≠ A.stop j) : checkStructure A true = .ok () := by
  have hsq : A.isSquare = true := beq_iff_eq.mpr hsquare
  have hchain : chained (fun a b => a != b) A.colPtr.toList = true := by
    refine chained_iff_isChain.mpr (List.isChain_iff_getElem.mpr fun j hj => ?_)
    rw [Array.length_toList, hA.size_colPtr] at hj
    have hne := hcolumns j (by omega)
    have h₁ : j < A.colPtr.size := by rw [hA.size_colPtr]; omega
    have h₂ : j + 1 < A.colPtr.size := by rw [hA.size_colPtr]; omega
    simpa [first, stop, Array.getD_eq_getD_getElem?, h₁, h₂] using hne
  rw [checkStructure, hsq, hchain]
  rfl

omit [ExactScalar K] in
/-- A matrix with an entry in every column passes the checks, and is factored in the order that is found. -/
theorem exists_permutation [Elimination.Rule] [Scalar K] (hA : WellFormed A) (hsquare : A.rows = A.cols)
    (hupper : A.Upper) (hcolumns : ∀ j < A.cols, A.first j ≠ A.stop j) {denseScale : Float}
    (horder : (Elimination.Rule.order (Elimination.graph A) denseScale).Perm (List.range A.cols)) :
    ∃ perm inverse, Permutes perm inverse A.cols ∧ ofMatrix A none denseScale = ofPermutation A perm inverse := by
  have hcheck : checkStructure A A.isUpper = .ok () := by
    rw [isUpper_eq_true hupper]
    exact checkStructure_eq_ok hA hsquare hcolumns
  have hchoose : chooseOrder A none denseScale =
      .ok (Elimination.Rule.order (Elimination.graph A) denseScale).toArray := by
    rw [chooseOrder, if_neg fun hand => hand.2 hA.first_zero]
  have hsize : (Elimination.Rule.order (Elimination.graph A) denseScale).toArray.size = A.cols := by
    rw [List.size_toArray, horder.length_eq, List.length_range]
  obtain ⟨inverse, hinvert, hpermutes⟩ :=
    @exists_invertPermutation (Elimination.Rule.order (Elimination.graph A) denseScale).toArray (by rw [hsize]; exact horder)
  rw [hsize] at hpermutes
  refine ⟨_, inverse, hpermutes, ?_⟩
  rw [ofMatrix, hcheck, hchoose]
  simp only [bind, Except.bind, hinvert]

/-- A matrix whose pivots do not vanish has factors. -/
theorem exists_ofMatrix [Elimination.Rule] (hA : WellFormed A) (hsquare : A.rows = A.cols) (hupper : A.Upper)
    (hcolumns : ∀ j < A.cols, A.first j ≠ A.stop j) {denseScale : Float}
    (horder : (Elimination.Rule.order (Elimination.graph A) denseScale).Perm (List.range A.cols))
    (hpivot : ∀ F, Analysis A F → ∀ k v, ¬PivotVector (leading F.dim (F.reordered A.sym)) k 0 v) :
    ∃ F, ofMatrix A none denseScale = .ok F ∧ Analysis A F := by
  obtain ⟨perm, inverse, hpermutes, hmatrix⟩ := exists_permutation hA hsquare hupper hcolumns horder
  obtain ⟨hanalysis, hholds⟩ := analysis_analyze hA hupper hpermutes
  obtain ⟨hanalysis', -, hcases⟩ := hanalysis.refactor hholds
  refine ⟨(analyze A perm inverse).refactor.1, hmatrix.trans ?_, hanalysis'⟩
  rcases hcases with ⟨hok, -⟩ | ⟨-, k, v, hvector⟩
  · exact map_eq_ok.mpr ⟨(), hok, rfl⟩
  · exact absurd hvector (hpivot _ hanalysis k v)

end AugLag.Factorization
