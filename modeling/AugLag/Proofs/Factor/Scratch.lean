import AugLag.Proofs.Checks
import AugLag.Proofs.Factor.Shape

/-!
# Factorization from scratch

A factorization reads only those entries that it has written before, and in the end it has written all of them. So what
the factors held at its start leaves no trace. The proof follows two computations with one matrix and different
leftovers; whatever they have computed so far is equal.
-/

namespace AugLag.Factorization

open EliminationTree SparseMatrix Progress PermutedUpper

variable {T : Type} [Scalar T] {A : SparseMatrix T} {tree : EliminationTree} {k : Nat}

/-! ## Two computations of one matrix -/

/-- Two computations that have come equally far: the columns are filled up to their heights, the diagonals are computed
up to `l`, and the inverses of the diagonals up to `k`. -/
structure Twins (A : SparseMatrix T) (tree : EliminationTree) (height : Nat → Nat) (k l : Nat) (s s' : Progress T) :
    Prop where
  fills : s.Fills A tree height
  fills' : s'.Fills A tree height
  size_diag : s.diag.size = A.cols
  size_diag' : s'.diag.size = A.cols
  size_diagInv : s.diagInv.size = A.cols
  size_diagInv' : s'.diagInv.size = A.cols
  filled_eq : ∀ c, s'.filled c = s.filled c
  diag_eq : ∀ c < l, s'.diag.getD c 0 = s.diag.getD c 0
  diagInv_eq : ∀ c < k, s'.diagInv.getD c 0 = s.diagInv.getD c 0
  positive_eq : s'.positive = s.positive

namespace Twins

variable {height : Nat → Nat} {l : Nat} {s s' : Progress T}

theorem congr (h : Twins A tree height k l s s') {height' : Nat → Nat} (heq : ∀ c, height c = height' c) :
    Twins A tree height' k l s s' :=
  funext heq ▸ h

theorem eliminateColumn (h : Twins A tree height k l s s') (hk : k < A.cols) {c : Nat} (hreach : Reaches A tree k c)
    (hheight : height c = k) (r : Row T) :
    Twins A tree (Function.update height c (k + 1)) k l (eliminateColumn k (s, r) c).1 (eliminateColumn k (s', r) c).1 ∧
      (Factorization.eliminateColumn k (s', r) c).2 = (Factorization.eliminateColumn k (s, r) c).2 := by
  have hc : c < A.cols := hreach.lt.trans hk
  have hslot := h.fills.next_mem_slots hc hk hheight hreach
  have hslot' := h.fills'.next_mem_slots hc hk hheight hreach
  rw [eliminateColumn_eq, eliminateColumn_eq, h.filled_eq, h.diagInv_eq c hreach.lt]
  refine ⟨?_, rfl⟩
  refine { h with fills := ?_, fills' := ?_, filled_eq := fun t => ?_ }
  · exact h.fills.push_fills hc hk hheight hreach _
  · exact h.fills'.push_fills hc hk hheight hreach _
  · by_cases htc : t = c
    · subst htc
      rw [h.fills.filled_push_self hc hslot, h.fills'.filled_push_self hc hslot', h.filled_eq]
    · rw [h.fills.filled_push_of_ne hc hslot _ htc, h.fills'.filled_push_of_ne hc hslot' _ htc, h.filled_eq]

theorem foldl (hk : k < A.cols) (rest : List Nat) {done : List Nat} {r : Row T}
    (h : Twins A tree (fun c => if c ∈ done then k + 1 else k) k l s s') (hreach : ∀ c ∈ rest, Reaches A tree k c)
    (hnodup : (done ++ rest).Nodup) :
    Twins A tree (fun c => if c ∈ done ++ rest then k + 1 else k) k l
        (rest.foldl (Factorization.eliminateColumn k) (s, r)).1 (rest.foldl (Factorization.eliminateColumn k) (s', r)).1 ∧
      (rest.foldl (Factorization.eliminateColumn k) (s', r)).2 =
        (rest.foldl (Factorization.eliminateColumn k) (s, r)).2 := by
  induction rest generalizing done s s' r with
  | nil =>
      rw [List.append_nil]
      exact ⟨h, rfl⟩
  | cons c rest ih =>
      have hnew : c ∉ done := fun hc => (List.nodup_append.mp hnodup).2.2 c hc c List.mem_cons_self rfl
      obtain ⟨hstep, hrow⟩ := h.eliminateColumn hk (hreach c List.mem_cons_self) (if_neg hnew) r
      rw [update_height] at hstep
      rw [List.append_cons] at hnodup ⊢
      rw [List.foldl_cons, List.foldl_cons]
      generalize Factorization.eliminateColumn k (s, r) c = acc at hstep hrow ⊢
      generalize Factorization.eliminateColumn k (s', r) c = acc' at hstep hrow ⊢
      obtain ⟨t, row⟩ := acc
      obtain ⟨t', row'⟩ := acc'
      obtain rfl : row' = row := hrow
      exact ih hstep (fun t ht => hreach t (List.mem_cons_of_mem _ ht)) hnodup

theorem computeRow (hupper : A.Upper) (htree : Accounts A tree A.cols) (hk : k < A.cols)
    (h : Twins A tree (fun _ => k) k k s s') :
    Twins A tree (fun _ => k + 1) k (k + 1) (computeRow A tree s k).1 (computeRow A tree s' k).1 ∧
      (Factorization.computeRow A tree s' k).2 = (Factorization.computeRow A tree s k).2 := by
  obtain ⟨hnodup, hdone, -⟩ := htree.reach_spec hupper hk
  have hstart : Twins A tree (fun c => if c ∈ ([] : List Nat) then k + 1 else k) k k s s' :=
    h.congr fun c => (if_neg List.not_mem_nil).symm
  obtain ⟨hrow, hpivot⟩ := foldl hk (tree.reach k (rowsAbove A k)) (r := spread A k) hstart
    (fun c hc => (hdone c).mp hc) hnodup
  rw [List.nil_append] at hrow
  rw [computeRow_eq, computeRow_eq]
  dsimp only
  rw [hpivot]
  generalize (tree.reach k (rowsAbove A k)).foldl (Factorization.eliminateColumn k) (s, spread A k) = acc at hrow ⊢
  generalize (tree.reach k (rowsAbove A k)).foldl (Factorization.eliminateColumn k) (s', spread A k) = acc' at hrow ⊢
  have hle : ∀ c < A.cols, k + 1 ≤ A.cols := fun _ _ => hk
  refine ⟨{ hrow with fills := ?_, fills' := ?_, size_diag := ?_, size_diag' := ?_, diag_eq := fun c hc => ?_ }, rfl⟩
  · exact (hrow.fills.of_rowsOf hle (rowsOf_height hdone)).withDiag _ _ _
  · exact (hrow.fills'.of_rowsOf hle (rowsOf_height hdone)).withDiag _ _ _
  · exact Array.size_setIfInBounds.trans hrow.size_diag
  · exact Array.size_setIfInBounds.trans hrow.size_diag'
  · by_cases hck : k = c
    · subst hck
      rw [getD_setIfInBounds_self _ (by rw [hrow.size_diag']; exact hk),
        getD_setIfInBounds_self _ (by rw [hrow.size_diag]; exact hk)]
    · rw [getD_setIfInBounds_of_ne _ _ _ hck, getD_setIfInBounds_of_ne _ _ _ hck]
      exact hrow.diag_eq c (by omega)

/-- The inverse of a pivot is stored, and the pivot is counted. -/
theorem store (h : Twins A tree height k (k + 1) s s') (hk : k < A.cols) (pivot : T) :
    Twins A tree height (k + 1) (k + 1)
      { s with
        diagInv := s.diagInv.setIfInBounds k (Scalar.recip pivot)
        positive := if 0 < pivot then s.positive + 1 else s.positive }
      { s' with
        diagInv := s'.diagInv.setIfInBounds k (Scalar.recip pivot)
        positive := if 0 < pivot then s'.positive + 1 else s'.positive } := by
  refine { h with fills := h.fills.withDiag _ _ _, fills' := h.fills'.withDiag _ _ _, size_diagInv := ?_,
                  size_diagInv' := ?_, diagInv_eq := fun c hc => ?_, positive_eq := ?_ }
  · exact Array.size_setIfInBounds.trans h.size_diagInv
  · exact Array.size_setIfInBounds.trans h.size_diagInv'
  · by_cases hck : k = c
    · subst hck
      rw [getD_setIfInBounds_self _ (by rw [h.size_diagInv']; exact hk),
        getD_setIfInBounds_self _ (by rw [h.size_diagInv]; exact hk)]
    · rw [getD_setIfInBounds_of_ne _ _ _ hck, getD_setIfInBounds_of_ne _ _ _ hck]
      exact h.diagInv_eq c (by omega)
  · simp only [h.positive_eq]

/-- The computations end in the same way: with all rows, or in the same row. -/
theorem computeRows (hupper : A.Upper) (htree : Accounts A tree A.cols) (m : Nat) (hkm : k + m = A.cols)
    (h : Twins A tree (fun _ => k) k k s s') :
    let out := computeRows A tree (List.range' k m) s
    let out' := Factorization.computeRows A tree (List.range' k m) s'
    (out.2 = .ok () ∧ out'.2 = .ok () ∧ Twins A tree (fun _ => A.cols) A.cols A.cols out.1 out'.1) ∨
      (out.2 = .error .zeroPivot ∧ out'.2 = .error .zeroPivot ∧
        ∃ j, Twins A tree (fun _ => j + 1) j (j + 1) out.1 out'.1) := by
  induction m generalizing k s s' with
  | zero =>
      obtain rfl : k = A.cols := hkm
      exact .inl ⟨rfl, rfl, h⟩
  | succ m ih =>
      have hk : k < A.cols := by omega
      obtain ⟨hrow, hpivot⟩ := h.computeRow hupper htree hk
      rw [List.range'_succ, Factorization.computeRows, Factorization.computeRows]
      generalize Factorization.computeRow A tree s k = acc at hrow hpivot ⊢
      generalize Factorization.computeRow A tree s' k = acc' at hrow hpivot ⊢
      obtain ⟨t, pivot⟩ := acc
      obtain ⟨t', pivot'⟩ := acc'
      obtain rfl : pivot' = pivot := hpivot
      dsimp only at hrow ⊢
      split
      · exact .inr ⟨rfl, rfl, k, hrow⟩
      · exact ih (by omega) (hrow.store hk pivot')

end Twins

/-! ## Complete factors -/

variable {F F' : Factorization T}

/-- Before the first row two factorizations of one matrix have come equally far. -/
theorem Shape.twins_beginning (h : Shape F) (h' : Shape F') (hstored : F'.stored = F.stored) (htree : F'.tree = F.tree) :
    Twins F.stored.matrix F.tree (fun _ => 0) 0 0 F.beginning F'.beginning := by
  have hfills := h.fills_beginning
  have hfills' := h'.fills_beginning
  rw [hstored, htree] at hfills'
  have hempty : ∀ {s : Progress T}, s.Fills F.stored.matrix F.tree (fun _ => 0) → ∀ c, s.filled c = [] := by
    intro s hs c
    by_cases hc : c < F.stored.matrix.cols
    · exact List.map_eq_nil_iff.mp ((hs.rows_eq c hc).trans (by simp [rowsOf]))
    · exact hs.filled_eq_nil (not_lt.mp hc)
  exact
    { fills := hfills
      fills' := hfills'
      size_diag := h.size_diag
      size_diag' := h'.size_diag.trans (by rw [hstored])
      size_diagInv := h.size_diagInv
      size_diagInv' := h'.size_diagInv.trans (by rw [hstored])
      filled_eq := fun c => (hempty hfills' c).trans (hempty hfills c).symm
      diag_eq := fun c hc => absurd hc (Nat.not_lt_zero c)
      diagInv_eq := fun c hc => absurd hc (Nat.not_lt_zero c)
      positive_eq := rfl }

/-- Complete computations have the same results. -/
theorem Twins.complete {s s' : Progress T} (h : Twins A tree (fun _ => A.cols) A.cols A.cols s s') :
    s'.lower = s.lower ∧ s'.diag = s.diag ∧ s'.diagInv = s.diagInv := by
  refine ⟨h.fills'.room.ext h.fills.room fun c hc => ?_, ?_, ?_⟩
  · rw [← h.fills'.filled_eq_column hc, ← h.fills.filled_eq_column hc, h.filled_eq]
  · refine array_ext_getD 0 (h.size_diag'.trans h.size_diag.symm) fun c hc => h.diag_eq c ?_
    rwa [← h.size_diag']
  · refine array_ext_getD 0 (h.size_diagInv'.trans h.size_diagInv.symm) fun c hc => h.diagInv_eq c ?_
    rwa [← h.size_diagInv']

/-- Factorizations of one matrix end in the same way, whatever the factors held before. If they succeed, the factors are
equal. If they fail, the arrays still fit together. -/
theorem Shape.refactor_congr (h : Shape F) (h' : Shape F') (hs : SameAnalysis F F') :
    F'.refactor.2 = F.refactor.2 ∧ Shape F.refactor.1 ∧ SameAnalysis F F.refactor.1 ∧
      (F.refactor.2 = .ok () → F'.refactor.1 = F.refactor.1) := by
  have hdim : F.dim = F.stored.matrix.cols := h.size_diag
  have hrows := (h.twins_beginning h' hs.stored hs.tree).computeRows h.upper h.accounts F.dim (by omega)
  rw [refactor_eq, refactor_eq, hs.stored, hs.tree, hs.dim, List.range_eq_range']
  dsimp only at hrows ⊢
  generalize computeRows F.stored.matrix F.tree (List.range' 0 F.dim) F.beginning = out at hrows ⊢
  generalize computeRows F.stored.matrix F.tree (List.range' 0 F.dim) F'.beginning = out' at hrows ⊢
  obtain ⟨s, outcome⟩ := out
  obtain ⟨s', outcome'⟩ := out'
  have hshape : ∀ {height : Nat → Nat} {k l : Nat} (positive : Nat),
      Twins F.stored.matrix F.tree height k l s s' →
        Shape { F with lower := s.lower, diag := s.diag, diagInv := s.diagInv, positive } ∧
          SameAnalysis F { F with lower := s.lower, diag := s.diag, diagInv := s.diagInv, positive } :=
    fun _ ht =>
      ⟨{ upper := h.upper, accounts := h.accounts, room := ht.fills.room, size_diag := ht.size_diag,
         size_diagInv := ht.size_diagInv },
       { perm := rfl, inverse := rfl, stored := rfl, tree := rfl, dim := ht.size_diag.trans hdim.symm }⟩
  rcases hrows with ⟨hok, hok', ht⟩ | ⟨herror, herror', j, ht⟩
  · obtain rfl : outcome = .ok () := hok
    obtain rfl : outcome' = .ok () := hok'
    obtain ⟨hlower, hdiag, hdiagInv⟩ := ht.complete
    have hpositive := ht.positive_eq
    obtain ⟨hshape, hsame⟩ := hshape s.positive ht
    refine ⟨rfl, hshape, hsame, fun _ => ?_⟩
    obtain ⟨perm, inverse, lower, diag, diagInv, stored, tree, positive⟩ := F
    obtain ⟨perm', inverse', lower', diag', diagInv', stored', tree', positive'⟩ := F'
    obtain ⟨hperm, hinverse, hstored, htree, -⟩ := hs
    dsimp only at *
    subst hperm hinverse hstored htree
    rw [hlower, hdiag, hdiagInv, hpositive]
  · obtain rfl : outcome = .error .zeroPivot := herror
    obtain rfl : outcome' = .error .zeroPivot := herror'
    obtain ⟨hshape, hsame⟩ := hshape 0 ht
    exact ⟨rfl, hshape, hsame, nofun⟩

/-- How two steps from scratch end: in one state, or with one error and both without usable factors. -/
inductive SameEnd {σ ε : Type} (factored : σ → Bool) : σ × Except ε Unit → σ × Except ε Unit → Prop
  | done (s : σ) : SameEnd factored (s, .ok ()) (s, .ok ())
  | failed {s s' : σ} (e : ε) (hs : factored s = false) (hs' : factored s' = false) :
      SameEnd factored (s, .error e) (s', .error e)

/-! ## New values -/

/-- Once all values are replaced, nothing is left of what the stored matrix held. -/
theorem Fitted.sameAnalysis_updateValues (h : Fitted A F) (h' : Fitted A F') (hs : SamePattern F F') {values : List T}
    (hlen : A.values.size ≤ values.length) :
    SameAnalysis (F.updateValues (List.range A.values.size) values)
      (F'.updateValues (List.range A.values.size) values) := by
  have hsize : F'.stored.matrix.values.size = F.stored.matrix.values.size :=
    h'.sorted.size_values.trans h.sorted.size_values.symm
  obtain ⟨old, hold⟩ := hs.stored
  refine ⟨hs.perm, hs.inverse, ?_, hs.tree, hs.dim⟩
  have hvalues : (F'.updateValues (List.range A.values.size) values).stored.matrix.values =
      (F.updateValues (List.range A.values.size) values).stored.matrix.values := by
    refine array_ext_getD 0 (by rw [size_updateValues, size_updateValues, hsize]) fun p hp => ?_
    rw [size_updateValues, hsize] at hp
    obtain ⟨k, hk, hslot⟩ := h.sorted.exists_slotOf hp
    rw [Factorization.updateValues, Factorization.updateValues, hold]
    rw [hold] at hsize
    refine getD_foldl_set_congr _ _ _ 0 hsize (.inl ⟨(k, values[k]), ?_, hslot⟩)
    exact List.mem_iff_getElem.mpr ⟨k, by simp; omega, by simp⟩
  simp only [Factorization.updateValues, hold] at hvalues ⊢
  rw [hvalues]

theorem Fitted.refactor (h : Fitted A F) : Fitted A F.refactor.1 ∧ SameAnalysis F F.refactor.1 := by
  obtain ⟨-, hshape, hsame, -⟩ := h.shape.refactor_congr h.shape (SameAnalysis.refl F)
  exact ⟨h.of_same hsame hshape, hsame⟩

/-! ## Modification -/

/-- A modification changes no more than the values of the factors. -/
structure RankOne.Keeps (s s' : RankOne T) : Prop where
  lower : ∃ values, values.size = s.lower.values.size ∧ s'.lower = { s.lower with values }
  size_diag : s'.diag.size = s.diag.size
  size_diagInv : s'.diagInv.size = s.diagInv.size

namespace RankOne.Keeps

variable {s s' s'' : RankOne T}

omit [Scalar T] in
theorem refl (s : RankOne T) : Keeps s s := ⟨⟨_, rfl, rfl⟩, rfl, rfl⟩

omit [Scalar T] in
theorem trans (h : Keeps s s') (h' : Keeps s' s'') : Keeps s s'' := by
  obtain ⟨values, hsize, hlower⟩ := h.lower
  obtain ⟨values', hsize', hlower'⟩ := h'.lower
  rw [hlower] at hsize' hlower'
  exact ⟨⟨values', hsize'.trans hsize, hlower'⟩, h'.size_diag.trans h.size_diag, h'.size_diagInv.trans h.size_diagInv⟩

theorem modifySlots (h : Keeps s s') (wj beta : T) (slots : List Nat) :
    Keeps s (slots.foldl (modifySlot wj beta) s') := by
  induction slots generalizing s' with
  | nil => exact h
  | cons p slots ih =>
      have hslot : Keeps s' (modifySlot wj beta s' p) := ⟨⟨_, Array.size_setIfInBounds, rfl⟩, rfl, rfl⟩
      exact ih (h.trans hslot)

theorem modifyColumn (s : RankOne T) (j : Nat) : Keeps s (modifyColumn s j).1 := by
  unfold Factorization.modifyColumn
  simp only
  split
  · refine modifySlots ?_ _ _ _
    exact ⟨⟨_, rfl, rfl⟩, Array.size_setIfInBounds, Array.size_setIfInBounds⟩
  · exact ⟨⟨_, rfl, rfl⟩, rfl, rfl⟩

theorem modifyPath (tree : EliminationTree) (fuel : Nat) (s : RankOne T) (next : Option Nat) :
    Keeps s (modifyPath tree fuel s next).1 := by
  induction fuel generalizing s next with
  | zero => exact refl s
  | succ fuel ih =>
      cases next with
      | none => exact refl s
      | some j =>
          have hcolumn := modifyColumn s j
          unfold Factorization.modifyPath
          split
          · next heq =>
              rw [heq] at hcolumn
              exact hcolumn.trans (ih _ _)
          · next heq =>
              rw [heq] at hcolumn
              exact hcolumn

end RankOne.Keeps

/-- Modified factors fit as well as before, also after a failure. -/
theorem Fitted.rankOne (h : Fitted A F) (entries : List (Nat × T)) (weight : T) :
    Fitted A (F.rankOne entries weight).1 ∧ SameAnalysis F (F.rankOne entries weight).1 := by
  have hkeeps := RankOne.Keeps.modifyPath F.tree F.dim
    { lower := F.lower, diag := F.diag, diagInv := F.diagInv, w := F.permutedVector entries, weight }
    (F.firstPlace entries)
  unfold Factorization.rankOne
  simp only
  generalize modifyPath F.tree F.dim
    { lower := F.lower, diag := F.diag, diagInv := F.diagInv, w := F.permutedVector entries, weight }
    (F.firstPlace entries) = out at hkeeps ⊢
  obtain ⟨s, outcome⟩ := out
  obtain ⟨⟨values, hsize, hlower⟩, hdiag, hdiagInv⟩ := hkeeps
  dsimp only at hsize hlower hdiag hdiagInv
  have hshape : ∀ positive, Shape { F with lower := s.lower, diag := s.diag, diagInv := s.diagInv, positive } := fun _ =>
    { upper := h.shape.upper
      accounts := h.shape.accounts
      room := hlower ▸
        { h.shape.room.toLayout.withValues hsize with
          square := h.shape.room.square
          cols_eq := h.shape.room.cols_eq
          stop_eq := h.shape.room.stop_eq }
      size_diag := hdiag.trans h.shape.size_diag
      size_diagInv := hdiagInv.trans h.shape.size_diagInv }
  have hsame : ∀ positive,
      SameAnalysis F { F with lower := s.lower, diag := s.diag, diagInv := s.diagInv, positive } := fun _ =>
    { perm := rfl, inverse := rfl, stored := rfl, tree := rfl, dim := hdiag }
  split
  · exact ⟨h.of_same (hsame _) (hshape _), hsame _⟩
  · exact ⟨h.of_same (hsame _) (hshape _), hsame _⟩

/-! ## Construction -/

omit [Scalar T] in
theorem upper_of_isUpper (h : A.isUpper = true) : A.Upper := by
  simp only [isUpper, columnIsUpper, List.all_eq_true, List.mem_range, decide_eq_true_eq] at h
  exact h

omit [Scalar T] in
/-- The inverse of an order of elimination stays inside of the matrix. The order need not list all indices. -/
theorem inverse_order_lt [Elimination.Rule] {denseScale : Float} {inverse : Array Nat}
    (h : invertPermutation? (Elimination.Rule.order (Elimination.graph A) denseScale).toArray = some inverse) :
    ∀ i < A.cols, inverse.getD i 0 < A.cols := by
  obtain ⟨hnodup, hcases⟩ := invertPermutation_spec h
  have hsubset : Elimination.Rule.order (Elimination.graph A) denseScale ⊆ List.range A.cols := fun v hv =>
    List.mem_range.mpr (Elimination.size_graph A ▸ Elimination.Rule.order_lt _ _ v hv)
  have hlen := (List.subperm_of_subset hnodup hsubset).length_le
  rw [List.length_range] at hlen
  intro i hi
  rcases hcases i with hzero | hlt
  · omega
  · exact hlt.trans_le (by simpa using hlen)

omit [Scalar T] in
theorem upper_of_checkStructure (h : checkStructure A A.isUpper = .ok ()) : A.Upper := by
  refine upper_of_isUpper ?_
  by_contra hnot
  rw [checkStructure, Bool.eq_false_of_not_eq_true hnot] at h
  split at h
  · cases h
  · cases h

omit [Scalar T] in
theorem eq_order_of_chooseOrder [Elimination.Rule] {denseScale : Float} {perm : Array Nat}
    (h : chooseOrder A none denseScale = .ok perm) :
    (Elimination.Rule.order (Elimination.graph A) denseScale).toArray = perm := by
  unfold chooseOrder at h
  split at h
  · next heq => cases heq
  · split at h
    · cases h
    · exact Except.ok.inj h

/-- A matrix that passes the checks is factored in the order that is chosen. -/
theorem ofMatrix_eq_ofPermutation [Elimination.Rule] {order : Option (Array Nat)} {denseScale : Float}
    {perm inverse : Array Nat}
    (hcheck : checkStructure A A.isUpper = .ok ()) (hchoose : chooseOrder A order denseScale = .ok perm)
    (hinverse : invertPermutation? perm = some inverse) : ofMatrix A order denseScale = ofPermutation A perm inverse := by
  simp only [ofMatrix, hcheck, hchoose, hinverse, bind, Except.bind]

/-- Factors that are made of a matrix fit it. -/
theorem fitted_of_ofMatrix [Elimination.Rule] (hA : Layout A) {denseScale : Float}
    (h : ofMatrix A none denseScale = .ok F) :
    Fitted A F := by
  obtain ⟨u, hcheck, h⟩ := bind_eq_ok.mp h
  obtain ⟨perm, horder, h⟩ := bind_eq_ok.mp h
  cases hinverse : invertPermutation? perm with
  | none =>
      simp only [hinverse] at h
      cases h
  | some inverse =>
      simp only [hinverse] at h
      obtain ⟨-, -, rfl⟩ := map_eq_ok.mp h
      rw [← eq_order_of_chooseOrder horder] at hinverse
      exact (fitted_analyze hA (upper_of_checkStructure hcheck) (inverse_order_lt hinverse)).refactor.1

end AugLag.Factorization
