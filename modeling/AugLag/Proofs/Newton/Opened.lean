import AugLag.Newton.Engine
import AugLag.Proofs.Factor.SignedOnes
import AugLag.Proofs.Newton.AugmentedWrites
import AugLag.Proofs.Newton.ReducedValues

/-!
# Engines are opened

Before its first update either form of the Newton system holds signed ones and zeros, whatever the data are. So it has
factors, and an engine is made for every problem whose pattern is put in order by a permutation.
-/

namespace AugLag

open SparseMatrix Factorization

variable {T : Type} [Scalar T] {Q A : SparseMatrix T} {n m : Nat} {method : Method}

namespace AugmentedSystem

theorem unitColumn_start [PlainZeros T] (h : NewtonData Q A n m) (F : Factorization T) {j : Nat} (hj : j < n + m) :
    UnitColumn (start Q A n m F).matrix j := by
  have hframe := frame_start h F
  have hdiagonal := hframe.diagonal_slot j hj
  refine { diagonal := ⟨_, hdiagonal⟩, one := fun p hp hrow => ?_, zero := fun p hp hrow => ?_ }
  · obtain rfl := hframe.matrix.eq_of_rowAt_eq (by rw [hframe.matrix_cols]; exact hj) hp hdiagonal.1
      (hrow.trans hdiagonal.2.symm)
    rw [valueAt_start_diagonal h F hj]
    split
    · exact .inl rfl
    · exact .inr rfl
  · rw [valueAt_start_of_ne h F fun i hi heq => hrow ?_]
    · exact PlainZeros.zero
    · obtain rfl := hframe.eq_of_diagonalSlot_eq hi hj hp heq
      rw [← heq]
      exact hdiagonal.2

theorem exists_of_plainZeros [Elimination.Rule] [PlainZeros T] (h : NewtonData Q A n m)
    (horder : (Elimination.Rule.order (Elimination.graph (pattern Q A A.rowIndex)) 1.0).Perm
      (List.range (pattern Q A A.rowIndex).cols)) : ∃ S, (ofProblem Q A n m : Except NewtonError (AugmentedSystem T n m)) = .ok S := by
  have hframe := frame_start h (analyze (pattern Q A A.rowIndex) #[] #[])
  obtain ⟨F, hF⟩ := exists_ofMatrix_of_unitColumns hframe.matrix (hframe.matrix_rows.trans hframe.matrix_cols.symm)
    hframe.matrix_upper (fun j hj => unitColumn_start h _ (hframe.matrix_cols ▸ hj)) horder
  exact ⟨start Q A n m F, ofProblem_eq_ok.mpr ⟨F, hF, rfl⟩⟩

end AugmentedSystem

namespace ReducedSystem

theorem unitColumn_start [PlainZeros T] (h : NewtonData Q A n m) (F : Factorization T) {j : Nat} (hj : j < n) :
    UnitColumn (start Q A n m F).matrix j := by
  have hframe := frame_start h F
  have hplace := hframe.diagonal_place j hj
  refine { diagonal := ⟨_, hplace.mem, hplace.row⟩, one := fun p hp hrow => ?_, zero := fun p hp hrow => ?_ }
  · exact .inl ((getD_initialValues h F hj hp).trans (if_pos hrow))
  · show Vanishes ((initialValues Q A).getD p 0)
    rw [getD_initialValues h F hj hp, if_neg hrow]
    exact valueAt_pattern_spec PlainZeros.zero (fun _ _ => PlainZeros.add) h hj hp

theorem exists_of_plainZeros [Elimination.Rule] [PlainZeros T] (h : NewtonData Q A n m)
    (horder : (Elimination.Rule.order (Elimination.graph (pattern Q A A.rowIndex A.columnOfSlot)) 1.0).Perm
      (List.range (pattern Q A A.rowIndex A.columnOfSlot).cols)) :
    ∃ S, (ofProblem Q A n m : Except NewtonError (ReducedSystem T n m)) = .ok S := by
  have hframe := frame_start h (analyze (pattern Q A A.rowIndex A.columnOfSlot) #[] #[])
  obtain ⟨F, hF⟩ := exists_ofMatrix_of_unitColumns hframe.matrix (cols_pattern Q A).symm
    hframe.matrix_upper (fun j hj => unitColumn_start h _ (hframe.matrix_cols ▸ hj)) horder
  exact ⟨start Q A n m F, ofProblem_eq_ok.mpr ⟨F, hF, rfl⟩⟩

end ReducedSystem

namespace NewtonEngine

/-- The order of elimination of the pattern that is factored is a permutation. -/
def Permuted [Elimination.Rule] (Q A : SparseMatrix T) (method : Method) : Prop :=
  let pattern := if useReduced Q A method then ReducedSystem.pattern Q A A.rowIndex A.columnOfSlot
    else AugmentedSystem.pattern Q A A.rowIndex
  (Elimination.Rule.order (Elimination.graph pattern) 1.0).Perm (List.range pattern.cols)

instance [Elimination.Rule] (Q A : SparseMatrix T) (method : Method) : Decidable (Permuted Q A method) :=
  inferInstanceAs (Decidable (List.Perm _ _))

/-- Only the patterns of the matrices count. -/
theorem Permuted.of_samePattern [Elimination.Rule] {Q' A' : SparseMatrix T} (hQ : SamePattern Q' Q)
    (hA : SamePattern A' A) (h : Permuted Q A method) : Permuted Q' A' method := by
  rw [← hQ.eq_withValues, ← hA.eq_withValues] at h
  exact h

theorem exists_of_plainZeros [Elimination.Rule] [PlainZeros T] (h : NewtonData Q A n m)
    (hpermuted : Permuted Q A method) :
    ∃ engine : NewtonEngine T n m, ofProblem Q A n m method = .ok engine := by
  unfold ofProblem
  unfold Permuted at hpermuted
  cases hreduced : useReduced Q A method with
  | true =>
      rw [hreduced] at hpermuted
      obtain ⟨S, hS⟩ := ReducedSystem.exists_of_plainZeros h hpermuted
      exact ⟨.reduced S, by rw [if_pos rfl, hS]; rfl⟩
  | false =>
      rw [hreduced] at hpermuted
      obtain ⟨S, hS⟩ := AugmentedSystem.exists_of_plainZeros h hpermuted
      exact ⟨.augmented S, by rw [if_neg Bool.false_ne_true, hS]; rfl⟩

end NewtonEngine
end AugLag
