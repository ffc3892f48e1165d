import AugLag.Proofs.Factor.Permute
import AugLag.Factor.RankOne

/-!
# The arrays of factors

The analysis of a matrix makes arrays that fit its pattern, with room for exactly those entries that the elimination
tree foresees. They fit whatever values are stored and whatever the factors hold by now, so nothing here depends on how
the scalars calculate.
-/

namespace AugLag.Factorization

open EliminationTree SparseMatrix Progress PermutedUpper

variable {T : Type} {A : SparseMatrix T} {tree : EliminationTree} {F F' : Factorization T} {k : Nat}

/-! ## Arrays that fit together -/

/-- The arrays fit together. Nothing is said about their values. -/
structure Shape (F : Factorization T) : Prop where
  upper : F.stored.matrix.Upper
  accounts : Accounts F.stored.matrix F.tree F.stored.matrix.cols
  room : Room F.stored.matrix F.tree F.lower
  size_diag : F.diag.size = F.stored.matrix.cols
  size_diagInv : F.diagInv.size = F.stored.matrix.cols

/-- The arrays of the analysis are those of other factors. -/
structure SameAnalysis (F F' : Factorization T) : Prop where
  perm : F'.perm = F.perm
  inverse : F'.inverse = F.inverse
  stored : F'.stored = F.stored
  tree : F'.tree = F.tree
  dim : F'.dim = F.dim

/-- The analysis of other factors is the same up to the values of the matrix. -/
structure SamePattern (F F' : Factorization T) : Prop where
  perm : F'.perm = F.perm
  inverse : F'.inverse = F.inverse
  stored : ∃ values, F'.stored = { F.stored with matrix := { F.stored.matrix with values } }
  tree : F'.tree = F.tree
  dim : F'.dim = F.dim

namespace SamePattern

theorem refl (F : Factorization T) : SamePattern F F := ⟨rfl, rfl, ⟨_, rfl⟩, rfl, rfl⟩

theorem trans {F₁ F₂ F₃ : Factorization T} (h : SamePattern F₁ F₂) (h' : SamePattern F₂ F₃) : SamePattern F₁ F₃ := by
  obtain ⟨values, hvalues⟩ := h'.stored
  obtain ⟨values', hvalues'⟩ := h.stored
  exact ⟨h'.perm.trans h.perm, h'.inverse.trans h.inverse, ⟨values, by rw [hvalues, hvalues']⟩, h'.tree.trans h.tree,
    h'.dim.trans h.dim⟩

theorem symm (h : SamePattern F F') : SamePattern F' F := by
  obtain ⟨values, hvalues⟩ := h.stored
  exact ⟨h.perm.symm, h.inverse.symm, ⟨F.stored.matrix.values, by rw [hvalues]⟩, h.tree.symm, h.dim.symm⟩

end SamePattern

theorem SameAnalysis.refl (F : Factorization T) : SameAnalysis F F := ⟨rfl, rfl, rfl, rfl, rfl⟩

theorem SameAnalysis.pattern (h : SameAnalysis F F') : SamePattern F F' :=
  ⟨h.perm, h.inverse, ⟨F.stored.matrix.values, by rw [h.stored]⟩, h.tree, h.dim⟩

theorem samePattern_updateValues (F : Factorization T) (slots : List Nat) (values : List T) :
    SamePattern F (F.updateValues slots values) := ⟨rfl, rfl, ⟨_, rfl⟩, rfl, rfl⟩

/-- The arrays of the factors fit the pattern of the matrix. -/
structure Fitted (A : SparseMatrix T) (F : Factorization T) : Prop where
  shape : Shape F
  sorted : Sorted A F.inverse F.stored

namespace Fitted

theorem dim_eq (h : Fitted A F) : F.dim = A.cols := h.shape.size_diag.trans h.sorted.cols_eq

/-- Nothing is said about the values of the matrix. -/
theorem withValues (h : Fitted A F) {values : Array T} (hs : values.size = A.values.size) :
    Fitted { A with values } F where
  shape := h.shape
  sorted := h.sorted.withValues hs

/-- The same analysis serves other factors. -/
theorem of_same (h : Fitted A F) (hs : SameAnalysis F F') (hF' : Shape F') : Fitted A F' where
  shape := hF'
  sorted := by
    rw [hs.inverse, hs.stored]
    exact h.sorted

end Fitted

theorem size_updateValues (F : Factorization T) (slots : List Nat) (values : List T) :
    (F.updateValues slots values).stored.matrix.values.size = F.stored.matrix.values.size :=
  size_foldl_setIfInBounds _ (fun e : Nat × T => F.stored.slotOf.getD e.1 0) Prod.snd _

theorem Fitted.updateValues (h : Fitted A F) (slots : List Nat) (replaced : List T) :
    Fitted A (F.updateValues slots replaced) := by
  have hsize := size_updateValues F slots replaced
  exact
    { shape :=
        { upper := h.shape.upper
          accounts := h.shape.accounts.withValues _
          room :=
            { h.shape.room.toLayout with
              square := h.shape.room.square
              cols_eq := h.shape.room.cols_eq
              stop_eq := fun c hc => by
                rw [Factorization.updateValues, rowsOf_withValues]
                exact h.shape.room.stop_eq c hc }
          size_diag := h.shape.size_diag
          size_diagInv := h.shape.size_diagInv }
      sorted :=
        { h.sorted with
          layout := h.sorted.layout.withValues hsize
          size_values := hsize.trans h.sorted.size_values } }

/-- Only the columns that row `k` reaches are longer than before. -/
theorem rowsOf_height {done : List Nat} (hdone : ∀ c, c ∈ done ↔ Reaches A tree k c) (c : Nat) :
    rowsOf A tree c (if c ∈ done then k + 1 else k) = rowsOf A tree c (k + 1) := by
  by_cases hc : c ∈ done
  · rw [if_pos hc]
  · rw [if_neg hc, rowsOf_succ_of_not fun hreach => hc ((hdone c).mpr hreach)]

/-- One more column is filled up to row `k`. -/
theorem update_height (done : List Nat) (c k : Nat) :
    Function.update (fun t => if t ∈ done then k + 1 else k) c (k + 1) = fun t => if t ∈ done ++ [c] then k + 1 else k := by
  funext t
  by_cases htc : t = c
  · subst htc
    rw [Function.update_self, if_pos (by simp)]
  · rw [Function.update_of_ne htc]
    simp only [List.mem_append, List.mem_singleton, htc, or_false]

/-- Room for as many entries in each column as the tree counts. -/
theorem room_of_counts (h : Accounts A tree A.cols) (values : Array T)
    (hvalues : values.size = tree.count.toList.sum) :
    Room A tree
      { rows := A.cols
        cols := A.cols
        colPtr := prefixSums tree.count.toList
        rowIdx := Array.replicate tree.count.toList.sum 0
        values } := by
  have hlen : tree.count.toList.length = A.cols := by
    rw [Array.length_toList, h.size_count]
  have hstop : ∀ c < A.cols, (prefixSums tree.count.toList).getD (c + 1) 0 =
      (prefixSums tree.count.toList).getD c 0 + tree.count.getD c 0 := by
    intro c hc
    have hc' : c < tree.count.toList.length := by omega
    have hc'' : c < tree.count.size := by rw [h.size_count]; exact hc
    rw [getD_prefixSums _ hc', getD_prefixSums _ hc'.le, List.take_succ_eq_append_getElem hc', List.sum_append]
    simp [Array.getD_eq_getD_getElem?, hc'']
  refine { size_colPtr := ?_, first_zero := ?_, first_le_stop := fun c hc => ?_, nnz_eq := ?_, size_rowIdx := ?_,
           square := rfl, cols_eq := rfl, stop_eq := fun c hc => ?_ }
  · rw [size_prefixSums, hlen]
  · exact (getD_prefixSums _ (Nat.zero_le _)).trans (by simp)
  · exact (Nat.le_add_right _ _).trans_eq (hstop c hc).symm
  · have hnnz := getD_prefixSums tree.count.toList le_rfl
    rw [List.take_length, hlen] at hnnz
    exact hnnz.trans hvalues.symm
  · exact Array.size_replicate.trans hvalues.symm
  · rw [← h.count_eq c hc]
    exact hstop c hc

variable [Scalar T]

/-! ## Rows in the making -/

theorem eliminateColumn_eq (k : Nat) (s : Progress T) (r : Row T) (c : Nat) :
    eliminateColumn k (s, r) c =
      (s.push k c (r.y.getD c 0 * s.diagInv.getD c 0),
        { y := (s.filled c).foldl (fun y e => y.modify e.1 (· - e.2 * r.y.getD c 0)) r.y
          pivot := r.pivot - r.y.getD c 0 * (r.y.getD c 0 * s.diagInv.getD c 0) }) := by
  rw [filled, List.foldl_map]
  rfl

/-- A row is the outcome of the elimination of all columns that it reaches. -/
theorem computeRow_eq (A : SparseMatrix T) (tree : EliminationTree) (s : Progress T) (k : Nat) :
    computeRow A tree s k =
      let acc := (tree.reach k (rowsAbove A k)).foldl (eliminateColumn k) (s, spread A k)
      ({ acc.1 with diag := acc.1.diag.setIfInBounds k acc.2.pivot }, acc.2.pivot) := rfl

namespace Progress.Fills

variable {s : Progress T} {height height' : Nat → Nat}

theorem of_rowsOf (h : s.Fills A tree height) (hle : ∀ c < A.cols, height' c ≤ A.cols)
    (heq : ∀ c, rowsOf A tree c (height c) = rowsOf A tree c (height' c)) : s.Fills A tree height' where
  room := h.room
  size_next := h.size_next
  height_le := hle
  next_eq c hc := by rw [← heq]; exact h.next_eq c hc
  rows_eq c hc := by rw [← heq]; exact h.rows_eq c hc

theorem withDiag (h : s.Fills A tree height) (diag diagInv : Array T) (positive : Nat) :
    ({ s with diag, diagInv, positive } : Progress T).Fills A tree height where
  room := h.room
  size_next := h.size_next
  height_le := h.height_le
  next_eq := h.next_eq
  rows_eq := h.rows_eq

/-- When all columns are full their entries are those of the matrix. -/
theorem filled_eq_column (h : s.Fills A tree fun _ => A.cols) {c : Nat} (hc : c < A.cols) :
    s.filled c = s.lower.column c := by
  rw [filled, h.next_eq c hc, ← h.room.stop_eq c hc]
  rfl

end Progress.Fills

/-- The computation of factors before its first row. -/
def beginning (F : Factorization T) : Progress T where
  lower := F.lower
  diag := F.diag
  diagInv := F.diagInv
  next := F.lower.colPtr.pop
  positive := 0

/-- Before the first row nothing is filled, whatever the arrays hold. -/
theorem Shape.fills_beginning (h : Shape F) : F.beginning.Fills F.stored.matrix F.tree fun _ => 0 := by
  have hnext : ∀ c < F.stored.matrix.cols, F.beginning.next.getD c 0 = F.beginning.lower.first c := by
    intro c hc
    have hsize : c < F.lower.colPtr.size - 1 := by
      rw [h.room.size_colPtr, h.room.cols_eq]
      omega
    have hsize' : c < F.lower.colPtr.size := by omega
    simp [beginning, first, Array.getD_eq_getD_getElem?, hsize, hsize']
  refine { room := h.room, size_next := ?_, height_le := fun _ _ => Nat.zero_le _, next_eq := hnext,
           rows_eq := fun c hc => ?_ }
  · rw [beginning, Array.size_pop, h.room.size_colPtr, h.room.cols_eq]
    rfl
  · rw [filled, hnext c hc, Nat.sub_self]
    rfl

theorem refactor_eq (F : Factorization T) :
    F.refactor =
      let out := computeRows F.stored.matrix F.tree (List.range F.dim) F.beginning
      ({ F with
          lower := out.1.lower
          diag := out.1.diag
          diagInv := out.1.diagInv
          positive := match out.2 with
            | .ok () => out.1.positive
            | .error _ => 0 }, out.2) := rfl

/-! ## New values -/

/-- Replacing the values of some slots brings the stored values in line with the matrix, if they were elsewhere. -/
theorem Fitted.holds_updateValues (h : Fitted A F) {values : Array T} (hs : values.size = A.values.size)
    {slots : List Nat} (hslots : ∀ k ∈ slots, k < A.values.size)
    (hrest : ∀ k < A.values.size, k ∉ slots → F.stored.matrix.valueAt (F.stored.slotOf.getD k 0) = values.getD k 0) :
    (F.updateValues slots (slots.map fun k => values.getD k 0)).stored.Holds { A with values } := by
  have hzip : slots.zip (slots.map fun k => values.getD k 0) = slots.map fun k => (k, values.getD k 0) := by
    have hmap := @List.zip_map' _ _ _ id (fun k => values.getD k 0) slots
    rw [List.map_id] at hmap
    exact hmap
  intro k hk
  have hk' : k < A.values.size := hs ▸ hk
  show (Array.getD _ (F.stored.slotOf.getD k 0) 0 : T) = values.getD k 0
  rw [Factorization.updateValues, hzip]
  by_cases hmem : k ∈ slots
  · refine getD_foldl_set_of_mem _ _ _ _ _ (h.sorted.slot_lt hk') ⟨(k, values.getD k 0), List.mem_map_of_mem hmem, rfl⟩
      fun e he heq => ?_
    obtain ⟨k', hk'', rfl⟩ := List.mem_map.mp he
    rw [h.sorted.slot_inj k' (hslots k' hk'') k hk' heq]
  · rw [getD_foldl_set_of_forall_ne]
    · exact hrest k hk' hmem
    · intro e he heq
      obtain ⟨k', hk'', rfl⟩ := List.mem_map.mp he
      exact hmem (h.sorted.slot_inj k' (hslots k' hk'') k hk' heq ▸ hk'')

/-- It does not matter how the stored values came to be those of a matrix. -/
theorem Fitted.updateValues_eq_of_holds (h : Fitted A F) {B : SparseMatrix T} (hB : B.values.size = A.values.size)
    {slots slots' : List Nat} {replaced replaced' : List T} (hv : (F.updateValues slots replaced).stored.Holds B)
    (hv' : (F.updateValues slots' replaced').stored.Holds B) :
    F.updateValues slots replaced = F.updateValues slots' replaced' := by
  have hvalues : (F.updateValues slots replaced).stored.matrix.values =
      (F.updateValues slots' replaced').stored.matrix.values := by
    refine array_ext_getD 0 (by rw [size_updateValues, size_updateValues]) fun p hp => ?_
    rw [size_updateValues] at hp
    obtain ⟨k, hk, rfl⟩ := h.sorted.exists_slotOf hp
    exact (hv k (hB ▸ hk)).trans (hv' k (hB ▸ hk)).symm
  simp only [Factorization.updateValues] at hvalues ⊢
  rw [hvalues]

/-! ## The analysis of a matrix -/

theorem back_prefixSums (counts : List Nat) : (prefixSums counts).back?.getD 0 = counts.sum := by
  have hlast := getD_prefixSums counts le_rfl
  rw [List.take_length] at hlast
  rw [← hlast, Array.back?_eq_getElem?, size_prefixSums, Array.getD_eq_getD_getElem?]
  rfl

theorem analyze_eq (A : SparseMatrix T) (perm inverse : Array Nat) :
    analyze A perm inverse =
      let stored := PermutedUpper.ofMatrix A inverse
      let tree := EliminationTree.ofMatrix stored.matrix
      { perm
        inverse
        lower :=
          { rows := A.cols
            cols := A.cols
            colPtr := prefixSums tree.count.toList
            rowIdx := Array.replicate tree.count.toList.sum 0
            values := Array.replicate tree.count.toList.sum 0 }
        diag := Array.replicate A.cols 0
        diagInv := Array.replicate A.cols 0
        stored
        tree
        positive := 0 } := by
  have hptr : ∀ counts : Array Nat, counts.foldl (fun ptr c => ptr.push (ptr.back?.getD 0 + c)) #[0] =
      prefixSums counts.toList := fun counts => (Array.foldl_toList _).symm
  simp only [analyze, hptr, back_prefixSums]

theorem fitted_analyze (hA : Layout A) (hupper : A.Upper) {perm inverse : Array Nat}
    (hbound : ∀ i < A.cols, inverse.getD i 0 < A.cols) : Fitted A (analyze A perm inverse) := by
  have hsorted := sorted_ofMatrix hA hupper hbound
  have hcols : (PermutedUpper.ofMatrix A inverse).matrix.cols = A.cols := hsorted.cols_eq
  have haccounts := accounts_ofMatrix hsorted.upper_matrix
  rw [analyze_eq]
  refine { sorted := hsorted, shape := ?_ }
  refine { upper := hsorted.upper_matrix, accounts := haccounts, room := ?_, size_diag := ?_, size_diagInv := ?_ }
  · have hroom := room_of_counts haccounts (Array.replicate _ (0 : T)) Array.size_replicate
    rw [hcols] at hroom
    exact hroom
  · exact Array.size_replicate.trans hcols.symm
  · exact Array.size_replicate.trans hcols.symm

end AugLag.Factorization
