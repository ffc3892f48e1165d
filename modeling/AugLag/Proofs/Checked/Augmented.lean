import AugLag.Proofs.Checked.Factor
import AugLag.Proofs.Newton.AugmentedWrites

/-!
# The checked augmented system

The places of the data in the system are known from its construction, and neither an update nor a solution looks for
anything elsewhere. An update that fails leaves a system that can be updated again. Nothing here depends on how the
scalars calculate.
-/

namespace AugLag.Checked.Augmented

open SparseMatrix
open AugmentedSystem (Frame)

variable {T : Type} {Q A : SparseMatrix T} {n m : Nat}

/-- The last slot of column `j`, which must not be empty. -/
def diagonalSlot (K : SparseMatrix T) (j : Nat) : Option Nat := do
  let stop ← K.colPtr[j + 1]?
  require (0 < stop)
  return stop - 1

theorem diagonalSlot_eq {K : SparseMatrix T} (h : Layout K) {j : Nat} (hj : j < K.cols)
    (hmem : AugmentedSystem.diagonalSlot K j ∈ K.slots j) : diagonalSlot K j = some (AugmentedSystem.diagonalSlot K j) := by
  have hpos : 0 < K.stop j := (Nat.zero_le _).trans_lt (mem_slots.mp hmem).2
  rw [diagonalSlot, stop_eq h hj]
  simp only [Option.bind_eq_bind, Option.bind_some, require_eq hpos]
  rfl

/-! ## Construction -/

/-- The rows of column `j` of the upper triangle of `Q + I`. -/
def costColumn (Q : SparseMatrix T) (j : Nat) : Option (List Nat) := do
  let stored ← (← slots Q j).mapM (Q.rowIdx[·]?)
  return if stored.getLast? = some j then stored else stored ++ [j]

/-- The rows of the column of row `r` of the constraints. -/
def constraintColumn (A : SparseMatrix T) (index : RowIndex) (columnOf : Array Nat) (r : Nat) : Option (List Nat) := do
  return (← (← row index r).mapM (columnOf[·]?)) ++ [A.cols + r]

/-- The pattern of the system, whose arrays are asserted to agree. -/
def pattern [Scalar T] (Q A : SparseMatrix T) (index : RowIndex) : Option (SparseMatrix T) := do
  let columnOf ← columnOfSlot A
  let cost ← (List.range A.cols).mapM (costColumn Q)
  let constraints ← (List.range A.rows).mapM (constraintColumn A index columnOf)
  let K := ofColumns (A.cols + A.rows) ((cost ++ constraints).map fun column => column.map fun i => (i, (0 : T)))
  ofArrays? (A.cols + A.rows) (A.cols + A.rows) K.colPtr K.rowIdx K.values

def assignSlots (K : SparseMatrix T) (j : Nat) (slots : List Nat) (target : Array Nat) : Option (Array Nat) := do
  let first ← K.colPtr[j]?
  (slots.zip (List.range slots.length)).foldlM (fun t e => set t e.1 (first + e.2)) target

/-- The system before its first update. -/
def ofProblem [Elimination.Rule] [Scalar T] (Q A : SparseMatrix T) (n m : Nat) :
    Option (Except NewtonError (AugmentedSystem T n m)) := do
  let index ← rowIndex A
  let K ← pattern Q A index
  let slotOfCost ← (List.range A.cols).foldlM (fun t j => do assignSlots K j (← slots Q j) t)
    (Array.replicate (← Q.nnz?) 0)
  let slotOfRow ← (List.range A.rows).foldlM (fun t r => do assignSlots K (A.cols + r) (← row index r) t)
    (Array.replicate (← A.nnz?) 0)
  let values ← (List.range K.cols).foldlM
    (fun v j => do set v (← diagonalSlot K j) (if j < A.cols then 1 else -1)) K.values
  match ← ofMatrix { K with values } 1.0 with
  | .error e => return .error (.factor e)
  | .ok factors =>
    return .ok
      { matrix := { K with values }
        slotOfCost
        slotOfRow
        rows := index
        factors
        costDiag := Array.replicate A.cols 0
        active := Vector.replicate m false
        sigma := Vec.zeros m
        rho := 0
        factored := false }

theorem assignSlots_eq {K : SparseMatrix T} (h : Layout K) {j : Nat} (hj : j ≤ K.cols) {slots : List Nat}
    {target : Array Nat} (hslots : ∀ k ∈ slots, k < target.size) :
    assignSlots K j slots target = some (AugmentedSystem.assignSlots K j slots target) ∧
      (AugmentedSystem.assignSlots K j slots target).size = target.size := by
  rw [assignSlots, first_eq h hj]
  refine ⟨foldlM_set_eq Prod.fst (fun e : Nat × Nat => K.first j + e.2) fun e he => ?_, ?_⟩
  · exact hslots e.1 (List.of_mem_zip he).1
  · exact size_foldl_setIfInBounds _ Prod.fst (fun e : Nat × Nat => K.first j + e.2) target

section Construction

variable (h : NewtonData Q A n m)

include h

theorem costColumn_eq {j : Nat} (hj : j < n) : costColumn Q j = some (AugmentedSystem.costColumn Q j) := by
  have hrows : ∀ k ∈ Q.slots j, Q.rowIdx[k]? = some (Q.rowAt k) := fun k hk =>
    rowAt_eq h.cost.toLayout (h.cost_lt hj hk)
  rw [costColumn, slots_eq h.cost.toLayout (h.cost_cols.symm ▸ hj)]
  simp only [Option.bind_eq_bind, Option.bind_some, mapM_eq hrows]
  rfl

theorem columns_eq {r : Nat} (hr : r < m) :
    (A.rowIndex.row r).mapM (A.columnOfSlot[·]?) = some ((A.rowIndex.row r).map (A.columnOfSlot.getD · 0)) :=
  mapM_get_eq (fun k hk => by
    rw [(columnOfSlot_eq h.constraints.toLayout).2]
    exact ((h.mem_row hr).mp hk).1) 0

theorem constraintColumn_eq {r : Nat} (hr : r < m) :
    constraintColumn A A.rowIndex A.columnOfSlot r =
      some ((A.rowIndex.row r).map (A.columnOfSlot.getD · 0) ++ [A.cols + r]) := by
  rw [constraintColumn, row_eq h.constraints (h.constraint_rows.symm ▸ hr)]
  simp only [Option.bind_eq_bind, Option.bind_some, columns_eq h hr]
  rfl

variable [Scalar T]

theorem pattern_eq : pattern Q A A.rowIndex = some (AugmentedSystem.pattern Q A A.rowIndex) := by
  have hcost : (List.range A.cols).mapM (costColumn Q) = some ((List.range A.cols).map (AugmentedSystem.costColumn Q)) :=
    mapM_eq fun j hj => costColumn_eq h (h.constraint_cols ▸ List.mem_range.mp hj)
  have hconstraints : (List.range A.rows).mapM (constraintColumn A A.rowIndex A.columnOfSlot) =
      some ((List.range A.rows).map fun r => (A.rowIndex.row r).map (A.columnOfSlot.getD · 0) ++ [A.cols + r]) :=
    mapM_eq fun r hr => constraintColumn_eq h (h.constraint_rows ▸ List.mem_range.mp hr)
  rw [pattern, (columnOfSlot_eq h.constraints.toLayout).1]
  simp only [Option.bind_eq_bind, Option.bind_some, hcost, hconstraints]
  exact (AugmentedSystem.layout_pattern Q A).ofArrays?_eq rfl (AugmentedSystem.cols_pattern Q A)

theorem costPlaces_eq :
    (List.range A.cols).foldlM (fun t j => do assignSlots (AugmentedSystem.pattern Q A A.rowIndex) j (← slots Q j) t)
      (Array.replicate Q.nnz 0) = some (AugmentedSystem.costPlaces Q A) ∧
        (AugmentedSystem.costPlaces Q A).size = Q.values.size := by
  refine foldlM_eq (fun t : Array Nat => t.size = Q.values.size) (Array.size_replicate.trans h.cost.nnz_eq) fun t j hj hsize => ?_
  rw [List.mem_range, h.constraint_cols] at hj
  have hcols := AugmentedSystem.cols_pattern Q A
  rw [h.constraint_cols] at hcols
  obtain ⟨hassign, hassigned⟩ := @assignSlots_eq _ _ (AugmentedSystem.layout_pattern Q A) j (by omega) (Q.slots j) t
    fun k hk => hsize.symm ▸ h.cost_lt hj hk
  rw [slots_eq h.cost.toLayout (h.cost_cols.symm ▸ hj)]
  exact ⟨hassign, hassigned.trans hsize⟩

theorem constraintPlaces_eq :
    (List.range A.rows).foldlM
      (fun t r => do assignSlots (AugmentedSystem.pattern Q A A.rowIndex) (A.cols + r) (← row A.rowIndex r) t)
      (Array.replicate A.nnz 0) = some (AugmentedSystem.constraintPlaces Q A) ∧
        (AugmentedSystem.constraintPlaces Q A).size = A.values.size := by
  refine foldlM_eq (fun t : Array Nat => t.size = A.values.size) (Array.size_replicate.trans h.constraints.nnz_eq)
    fun t r hr hsize => ?_
  rw [List.mem_range] at hr
  have hcols := AugmentedSystem.cols_pattern Q A
  obtain ⟨hassign, hassigned⟩ := @assignSlots_eq _ _ (AugmentedSystem.layout_pattern Q A) (A.cols + r) (by omega)
    (A.rowIndex.row r) t fun k hk => hsize.symm ▸ ((h.mem_row (h.constraint_rows ▸ hr)).mp hk).1
  rw [row_eq h.constraints hr]
  exact ⟨hassign, hassigned.trans hsize⟩

theorem initialValues_eq :
    (List.range (AugmentedSystem.pattern Q A A.rowIndex).cols).foldlM
      (fun v j => do
        set v (← diagonalSlot (AugmentedSystem.pattern Q A A.rowIndex) j) (if j < A.cols then 1 else -1))
      (AugmentedSystem.pattern Q A A.rowIndex).values = some (AugmentedSystem.initialValues Q A) := by
  have hlayout := AugmentedSystem.layout_pattern Q A
  have hcols := AugmentedSystem.cols_pattern Q A
  rw [h.constraint_cols, h.constraint_rows] at hcols
  refine (foldlM_eq (fun v : Array T => v.size = (AugmentedSystem.pattern Q A A.rowIndex).values.size) rfl
    fun v j hj hsize => ?_).1
  rw [List.mem_range] at hj
  have hmem := (AugmentedSystem.diagonal_pattern h (hcols ▸ hj)).1
  rw [diagonalSlot_eq hlayout hj hmem]
  exact ⟨set_eq (hsize.symm ▸ hlayout.lt_size hj hmem) _, Array.size_setIfInBounds.trans hsize⟩

end Construction

/-! ## Updates -/

section Updates

variable [Scalar T]

/-- What the system holds of a slot of the constraints. -/
def rowValue (A : SparseMatrix T) (active : Bool) (k : Nat) : Option T := if active then A.values[k]? else some 0

/-- Writes row `r` of the system into its values. -/
def writeRow (S : AugmentedSystem T n m) (A : SparseMatrix T) (active : Vector Bool m) (sigma : Vector T m)
    (values : Array T) (r : Fin m) : Option (Array T) := do
  let values ← (← row S.rows r).foldlM
    (fun v k => do set v (← S.slotOfRow[k]?) (← rowValue A (active.get r) k)) values
  set values (← diagonalSlot S.matrix (n + r)) (if active.get r then -Scalar.recip (sigma.get r) else -1)

/-- The values of the cost block without the proximal weight. -/
def writeCost (S : AugmentedSystem T n m) (Q : SparseMatrix T) : Option (Array T) := do
  let values ← (List.range n).foldlM (fun v j => do set v (← diagonalSlot S.matrix j) 0) S.matrix.values
  (S.slotOfCost.toList.zip Q.values.toList).foldlM (fun v e => set v e.1 e.2) values

/-- All values of the system for a state, and the diagonal of `Q`. -/
def assemble (S : AugmentedSystem T n m) (Q A : SparseMatrix T) (active : Vector Bool m) (sigma : Vector T m)
    (rho : T) : Option (Array T × Array T) := do
  let cost ← writeCost S Q
  let costDiag ← (List.range n).mapM fun j => do cost[← diagonalSlot S.matrix j]?
  let values ← (List.range n).foldlM (fun v j => do modify v (← diagonalSlot S.matrix j) (· + rho)) cost
  return (← (List.finRange m).foldlM (writeRow S A active sigma) values, costDiag.toArray)

/-- The slots of row `r`, with its diagonal at the end. -/
def rowSlots (S : AugmentedSystem T n m) (r : Fin m) : Option (List Nat) := do
  return (← (← row S.rows r).mapM (S.slotOfRow[·]?)) ++ [← diagonalSlot S.matrix (n + r)]

/-- The values of the system for a new state, made from those of the recorded state, and the slots that changed. -/
def reassemble (S : AugmentedSystem T n m) (A : SparseMatrix T) (active : Vector Bool m) (sigma : Vector T m)
    (rho : T) : Option (Array T × List Nat) := do
  let diagonal := if rho == S.rho then [] else List.range n
  let values ← diagonal.foldlM
    (fun v j => do set v (← diagonalSlot S.matrix j) ((← S.costDiag[j]?) + rho)) S.matrix.values
  let changed := (List.finRange m).filter (S.rowChanged active sigma)
  let written ← changed.foldlM (writeRow S A active sigma) values
  let shifted ← diagonal.mapM (diagonalSlot S.matrix)
  let rewritten ← changed.mapM (rowSlots S)
  return (written, shifted ++ rewritten.flatten)

/-- Factors the system after a change of the given slots. -/
def factorChanged (S : AugmentedSystem T n m) (slots : List Nat) :
    Option (AugmentedSystem T n m × Except NewtonError Unit) := do
  let values ← slots.mapM (S.matrix.values[·]?)
  let out ← refactor (← updateValues S.factors slots values)
  let outcome : Except NewtonError Unit :=
    match out.2 with
    | .ok () => if out.1.positive = n then .ok () else .error .notPositiveDefinite
    | .error e => .error (.factor e)
  return ({ S with factors := out.1, factored := outcome.toBool }, outcome)

/-- Brings the factors in line with an active set, penalties and a proximal weight. -/
def update (S : AugmentedSystem T n m) (Q A : SparseMatrix T) (active : Vector Bool m) (sigma : Vector T m)
    (rho : T) : Option (AugmentedSystem T n m × Except NewtonError Unit) :=
  if S.factored then do
    let changed ← reassemble S A active sigma rho
    if changed.2.isEmpty then return (S, .ok ())
    else factorChanged { S with matrix := { S.matrix with values := changed.1 }, active, sigma, rho } changed.2
  else do
    let all ← assemble S Q A active sigma rho
    factorChanged { S with matrix := { S.matrix with values := all.1 }, costDiag := all.2, active, sigma, rho }
      (List.range (← S.matrix.nnz?))

/-- The direction of the Newton step with the given right hand side. -/
def solve (S : AugmentedSystem T n m) (rhs : Vector T n) : Option (Vector T n) := do
  let x ← Checked.solve S.factors (rhs.toArray ++ Array.replicate m 0)
  Vec.ofArray? n (x.extract 0 n)

theorem rowValue_eq (active : Bool) {k : Nat} (hk : k < A.values.size) :
    rowValue A active k = some (if active then A.valueAt k else 0) := by
  cases active with
  | true => exact get_eq hk 0
  | false => rfl

/-- The system knows the places of its data, and its factors can be used. -/
structure Intact (Q A : SparseMatrix T) (S : AugmentedSystem T n m) : Prop where
  frame : Frame Q A S
  indexed : Indexed S.matrix S.factors
  size_slotOfRow : S.slotOfRow.size = A.values.size
  size_costDiag : S.costDiag.size = n

variable {S : AugmentedSystem T n m} {active : Vector Bool m} {sigma : Vector T m} {rho : T} {values : Array T}

namespace Intact

variable (h : Intact Q A S)

include h

omit [Scalar T] in
theorem diagonalSlot_eq {j : Nat} (hj : j < n + m) :
    diagonalSlot S.matrix j = some (AugmentedSystem.diagonalSlot S.matrix j) ∧
      AugmentedSystem.diagonalSlot S.matrix j < S.matrix.values.size := by
  have hmem := (h.frame.diagonal_slot j hj).1
  exact ⟨Augmented.diagonalSlot_eq h.frame.matrix.toLayout (h.frame.matrix_cols.symm ▸ hj) hmem, h.frame.lt_size hj hmem⟩

omit [Scalar T] in
theorem row_eq (r : Fin m) : row S.rows r = some (S.rows.row r) := by
  rw [h.frame.rows_eq]
  exact Checked.row_eq h.frame.constraints (h.frame.constraint_rows.symm ▸ r.isLt)

omit [Scalar T] in
theorem lt_size_of_mem_row {r : Fin m} {k : Nat} (hk : k ∈ S.rows.row r) :
    k < A.values.size ∧ S.slotOfRow.getD k 0 < S.matrix.values.size := by
  rw [h.frame.rows_eq] at hk
  exact ⟨((h.frame.mem_row r.isLt).mp hk).1, h.frame.lt_size (by omega) (h.frame.row_slot r r.isLt k hk).1⟩

theorem writeRow_eq (hs : values.size = S.matrix.values.size) (r : Fin m) :
    writeRow S A active sigma values r = some (S.writeRow A active sigma values r) ∧
      (S.writeRow A active sigma values r).size = S.matrix.values.size := by
  obtain ⟨hdiagonal, hlt⟩ := h.diagonalSlot_eq (Nat.add_lt_add_left r.isLt n)
  obtain ⟨hloop, hsize⟩ := foldlM_eq
    (f := fun (v : Array T) k => do set v (← S.slotOfRow[k]?) (← rowValue A (active.get r) k))
    (g := fun v k => v.setIfInBounds (S.slotOfRow.getD k 0) (if active.get r then A.valueAt k else 0))
    (fun v => v.size = S.matrix.values.size) (l := S.rows.row r) hs fun v k hk hsize => by
      obtain ⟨hslot, hplace⟩ := h.lt_size_of_mem_row hk
      rw [get_eq (h.size_slotOfRow.symm ▸ hslot) 0, rowValue_eq (active.get r) hslot]
      exact ⟨set_eq (hsize.symm ▸ hplace) _, Array.size_setIfInBounds.trans hsize⟩
  refine ⟨?_, Array.size_setIfInBounds.trans hsize⟩
  rw [writeRow, h.row_eq]
  refine (congrArg (Option.bind · _) hloop).trans ?_
  simp only [Option.bind_eq_bind, Option.bind_some, hdiagonal]
  exact set_eq (hsize.symm ▸ hlt) _

theorem writeRows_eq (l : List (Fin m)) (hs : values.size = S.matrix.values.size) :
    l.foldlM (writeRow S A active sigma) values = some (l.foldl (S.writeRow A active sigma) values) :=
  (foldlM_eq (fun v : Array T => v.size = S.matrix.values.size) hs fun _ r _ hsize => h.writeRow_eq hsize r).1

theorem writeCost_eq : writeCost S Q = some (S.writeCost Q) := by
  have hzero := foldlM_eq (f := fun (v : Array T) j => do set v (← diagonalSlot S.matrix j) 0)
    (g := fun v j => v.setIfInBounds (AugmentedSystem.diagonalSlot S.matrix j) 0)
    (fun v => v.size = S.matrix.values.size) (l := List.range n) (b := S.matrix.values) rfl fun v j hj hsize => by
      obtain ⟨hdiagonal, hlt⟩ := h.diagonalSlot_eq (Nat.lt_add_right m (List.mem_range.mp hj))
      rw [hdiagonal]
      exact ⟨set_eq (hsize.symm ▸ hlt) _, Array.size_setIfInBounds.trans hsize⟩
  rw [writeCost, hzero.1]
  refine foldlM_set_eq Prod.fst Prod.snd fun e he => ?_
  obtain ⟨k, hk, hget⟩ := List.mem_iff_getElem.mp (List.of_mem_zip he).1
  rw [Array.length_toList] at hk
  obtain ⟨j, hj, hkj⟩ := h.frame.exists_cost_column (h.frame.size_slotOfCost ▸ hk)
  have hplace := h.frame.lt_size (by omega) (h.frame.cost_slot j hj k hkj).1
  rw [hzero.2, ← hget]
  simpa [Array.getD_eq_getD_getElem?, hk] using hplace

theorem assemble_eq : assemble S Q A active sigma rho = some (S.assemble Q A active sigma rho) := by
  have hsize : (S.writeCost Q).size = S.matrix.values.size := AugmentedSystem.size_writeCost S Q
  have hdiag : (List.range n).mapM (fun j => do (S.writeCost Q)[← diagonalSlot S.matrix j]?) =
      some ((List.range n).map fun j => (S.writeCost Q).getD (AugmentedSystem.diagonalSlot S.matrix j) 0) :=
    mapM_eq fun j hj => by
      obtain ⟨hdiagonal, hlt⟩ := h.diagonalSlot_eq (Nat.lt_add_right m (List.mem_range.mp hj))
      rw [hdiagonal]
      exact get_eq (hsize.symm ▸ hlt) 0
  have hshift := foldlM_eq (f := fun (v : Array T) j => do modify v (← diagonalSlot S.matrix j) (· + rho))
    (g := fun v j => v.modify (AugmentedSystem.diagonalSlot S.matrix j) (· + rho))
    (fun v => v.size = S.matrix.values.size) (l := List.range n) (b := S.writeCost Q) hsize fun v j hj hsize => by
      obtain ⟨hdiagonal, hlt⟩ := h.diagonalSlot_eq (Nat.lt_add_right m (List.mem_range.mp hj))
      rw [hdiagonal]
      exact ⟨modify_eq (hsize.symm ▸ hlt) _, Array.size_modify.trans hsize⟩
  have harray : ((List.range n).map fun j => (S.writeCost Q).getD (AugmentedSystem.diagonalSlot S.matrix j) 0).toArray =
      (Array.range n).map fun j => (S.writeCost Q).getD (AugmentedSystem.diagonalSlot S.matrix j) 0 := by
    rw [← List.map_toArray, List.toArray_range]
  rw [assemble, h.writeCost_eq]
  refine (congrArg (Option.bind · _) hdiag).trans ((congrArg (Option.bind · _) hshift.1).trans ?_)
  simp only [Option.bind_eq_bind, Option.bind_some, h.writeRows_eq (List.finRange m) hshift.2, harray]
  rfl

omit [Scalar T] in
theorem rowSlots_eq (r : Fin m) : rowSlots S r = some (S.rowSlots r) := by
  have hslots := @mapM_get_eq _ S.slotOfRow (S.rows.row r)
    (fun k hk => h.size_slotOfRow.symm ▸ (h.lt_size_of_mem_row hk).1) 0
  rw [rowSlots, h.row_eq]
  simp only [Option.bind_eq_bind, Option.bind_some, hslots, (h.diagonalSlot_eq (Nat.add_lt_add_left r.isLt n)).1]
  rfl

theorem reassemble_eq : reassemble S A active sigma rho = some (S.reassemble A active sigma rho) := by
  have hbound : ∀ j ∈ (if rho == S.rho then [] else List.range n), j < n := by
    intro j hj
    split at hj
    · cases hj
    · exact List.mem_range.mp hj
  have hshift := foldlM_eq
    (f := fun (v : Array T) j => do set v (← diagonalSlot S.matrix j) ((← S.costDiag[j]?) + rho))
    (g := fun v j => v.setIfInBounds (AugmentedSystem.diagonalSlot S.matrix j) (S.costDiag.getD j 0 + rho))
    (fun v => v.size = S.matrix.values.size) (l := if rho == S.rho then [] else List.range n) (b := S.matrix.values)
    rfl fun v j hj hsize => by
      obtain ⟨hdiagonal, hlt⟩ := h.diagonalSlot_eq (Nat.lt_add_right m (hbound j hj))
      rw [hdiagonal, get_eq (h.size_costDiag.symm ▸ hbound j hj) 0]
      exact ⟨set_eq (hsize.symm ▸ hlt) _, Array.size_setIfInBounds.trans hsize⟩
  have hdiag := mapM_eq fun j hj => (h.diagonalSlot_eq (Nat.lt_add_right m (hbound j hj))).1
  have hrows := @mapM_eq _ _ _ _ ((List.finRange m).filter (S.rowChanged active sigma)) fun r _ => h.rowSlots_eq r
  rw [reassemble]
  refine (congrArg (Option.bind · _) hshift.1).trans ?_
  simp only [Option.bind_eq_bind, Option.bind_some, h.writeRows_eq _ hshift.2, hdiag, hrows]
  simp only [AugmentedSystem.reassemble, List.flatMap_def]
  rfl

omit [Scalar T] in
/-- The system is intact with other values, as long as it keeps the places of its data and its factors. -/
theorem of_same {S' : AugmentedSystem T n m} (hs : values.size = S.matrix.values.size)
    (hmatrix : S'.matrix = { S.matrix with values }) (hcost : S'.slotOfCost = S.slotOfCost)
    (hrow : S'.slotOfRow = S.slotOfRow) (hrows : S'.rows = S.rows) (hfactors : Indexed S.matrix S'.factors)
    (hdiag : S'.costDiag.size = n) : Intact Q A S' where
  frame := h.frame.of_same hs hmatrix hcost hrow hrows
  indexed := hmatrix ▸ hfactors.withValues hs
  size_slotOfRow := hrow ▸ h.size_slotOfRow
  size_costDiag := hdiag

theorem factorChanged {slots : List Nat} (hslots : ∀ p ∈ slots, p < S.matrix.values.size) :
    factorChanged S slots = some (S.factorChanged slots) ∧ Intact Q A (S.factorChanged slots).1 := by
  obtain ⟨hupdate, hupdated⟩ := @Indexed.updateValues _ _ _ h.indexed slots (slots.map S.matrix.valueAt) hslots
    (List.length_map _).symm
  obtain ⟨hrefactor, hrefactored⟩ := hupdated.refactor
  refine ⟨?_, h.of_same rfl rfl rfl rfl rfl hrefactored h.size_costDiag⟩
  rw [Augmented.factorChanged, mapM_get_eq hslots 0]
  refine (congrArg (Option.bind · _) hupdate).trans ((congrArg (Option.bind · _) hrefactor).trans ?_)
  rfl

/-- Whether or not an update succeeds, the system can be updated again. -/
theorem update : update S Q A active sigma rho = some (S.update Q A active sigma rho) ∧
    Intact Q A (S.update Q A active sigma rho).1 := by
  cases hS : S.factored with
  | false =>
      have hassembled : Intact Q A (S.assembled Q A active sigma rho) :=
        h.of_same (AugmentedSystem.size_assemble ..) rfl rfl rfl rfl h.indexed (by simp [AugmentedSystem.assembled,
          AugmentedSystem.assemble])
      have hslots : ∀ p ∈ List.range S.matrix.nnz, p < (S.assembled Q A active sigma rho).matrix.values.size := by
        intro p hp
        rw [List.mem_range, h.frame.matrix.nnz_eq] at hp
        exact hp.trans_eq (AugmentedSystem.size_assemble S Q A active sigma rho).symm
      have hfactor := hassembled.factorChanged hslots
      rw [Augmented.update, hS, h.assemble_eq, nnz_eq h.frame.matrix.toLayout,
        AugmentedSystem.update_of_not_factored hS]
      exact hfactor
  | true =>
      rw [Augmented.update, AugmentedSystem.update, if_pos hS, if_pos hS, h.reassemble_eq]
      have hsize := AugmentedSystem.size_reassemble S A active sigma rho
      have hslots : ∀ p ∈ (S.reassemble A active sigma rho).2, p < S.matrix.values.size := fun p hp =>
        AugmentedSystem.reassemble_slot_lt h.frame hp
      generalize S.reassemble A active sigma rho = re at hsize hslots
      simp only [Option.bind_eq_bind, Option.bind_some]
      split
      · exact ⟨rfl, h⟩
      · have hstate : Intact Q A { S with matrix := { S.matrix with values := re.1 }, active, sigma, rho } :=
          h.of_same hsize rfl rfl rfl rfl h.indexed h.size_costDiag
        exact hstate.factorChanged fun p hp => hsize.symm ▸ hslots p hp

theorem solve (rhs : Vector T n) : solve S rhs = some (S.solve rhs) := by
  have hcols : S.matrix.cols = n + m := h.frame.matrix_cols
  have hlen : (rhs.toArray ++ Array.replicate m 0).size = S.matrix.cols := by
    rw [Array.size_append, Vector.size_toArray, Array.size_replicate, hcols]
  rw [Augmented.solve, h.indexed.solve hlen]
  exact ofArray?_extract ((Nat.le_add_right n m).trans_eq (hcols.symm.trans (h.indexed.size_solve _).symm))

omit [Scalar T] in
theorem invalidate : Intact Q A S.invalidate := h.of_same rfl rfl rfl rfl rfl h.indexed h.size_costDiag

end Intact

/-- A system that is made can be used, if the pattern is ordered by a permutation. -/
theorem ofProblem_eq [Elimination.Rule] (h : NewtonData Q A n m)
    (horder : (Elimination.Rule.order (Elimination.graph (AugmentedSystem.pattern Q A A.rowIndex)) 1.0).Perm
      (List.range (AugmentedSystem.pattern Q A A.rowIndex).cols)) :
    ofProblem Q A n m = some (AugmentedSystem.ofProblem Q A n m) ∧
      ∀ S, AugmentedSystem.ofProblem Q A n m = .ok S → Intact Q A S := by
  have hsize : (AugmentedSystem.initialValues Q A).size = (AugmentedSystem.pattern Q A A.rowIndex).values.size :=
    size_foldl_setIfInBounds ..
  obtain ⟨hcost, -⟩ := costPlaces_eq h
  obtain ⟨hrows, hrowsSize⟩ := constraintPlaces_eq h
  obtain ⟨hfactor, hindexed⟩ := ofMatrix_eq ((AugmentedSystem.wellFormed_pattern h).withValues hsize)
    (AugmentedSystem.upper_pattern h) horder
  constructor
  · rw [ofProblem, rowIndex_eq h.constraints]
    simp only [Option.bind_eq_bind, Option.bind_some, pattern_eq h, nnz_eq h.cost.toLayout, nnz_eq h.constraints.toLayout]
    refine (congrArg (Option.bind · _) hcost).trans ((congrArg (Option.bind · _) hrows).trans
      ((congrArg (Option.bind · _) (initialValues_eq h)).trans ((congrArg (Option.bind · _) hfactor).trans ?_)))
    simp only [Option.bind_some]
    split
    · next e hF => exact congrArg some (AugmentedSystem.ofProblem_eq_error hF).symm
    · next F hF => exact congrArg some (AugmentedSystem.ofProblem_eq_ok.mpr ⟨F, hF, rfl⟩).symm
  · intro S hS
    obtain ⟨F, hF, rfl⟩ := AugmentedSystem.ofProblem_eq_ok.mp hS
    exact
      { frame := AugmentedSystem.frame_start h F
        indexed := hindexed F hF
        size_slotOfRow := hrowsSize
        size_costDiag := Array.size_replicate.trans h.constraint_cols }

end Updates

end AugLag.Checked.Augmented
