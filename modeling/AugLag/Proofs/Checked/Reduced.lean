import AugLag.Proofs.Checked.Factor
import AugLag.Proofs.Newton.ReducedChanges
import AugLag.Proofs.Newton.ReducedFresh

/-!
# The checked reduced system

Every product of two entries of one row has its slot, so that assembly and the modification of factors find all places
they write to. A modification that fails is followed by a factorization from scratch. Nothing here depends on how the
scalars calculate.
-/

namespace AugLag.Checked.Reduced

open SparseMatrix
open ReducedSystem (Frame HasPlace orderedPairs Change)

variable {T : Type} {Q A H : SparseMatrix T} {n m : Nat}

/-! ## The pattern -/

/-- The sum of triplets, each of which must lie in a column of the matrix. The arrays are asserted to agree. -/
def sumTriplets [Scalar T] (rows cols : Nat) (triplets : List (Triplet T)) : Option (SparseMatrix T) := do
  require (∀ t ∈ triplets, t.col < cols)
  let M := SparseMatrix.sumTriplets rows cols triplets
  ofArrays? rows cols M.colPtr M.rowIdx M.values

/-- The entries of each row are counted. -/
def fillEstimate (A : SparseMatrix T) : Option Nat := do
  let counts ← A.rowIdx.toList.foldlM (fun c r => modify c r (· + 1)) (Array.replicate A.rows 0)
  return counts.foldl (fun fill k => fill + ReducedSystem.triangular k) 0

/-- The coordinates of the products of row `r` of `A`. -/
def pairPlaces (index : RowIndex) (columnOf : Array Nat) (r : Nat) : Option (List (Nat × Nat)) := do
  (orderedPairs (← row index r)).mapM fun p => do return (← columnOf[p.1]?, ← columnOf[p.2]?)

/-- The places of column `j` of the cost. -/
def costPlaces (Q : SparseMatrix T) (j : Nat) : Option (List (Nat × Nat)) := do
  (← slots Q j).mapM fun k => do return (← Q.rowIdx[k]?, j)

/-- The upper triangle of the pattern of `Q + I + AᵀA`. -/
def pattern [Scalar T] (Q A : SparseMatrix T) (index : RowIndex) (columnOf : Array Nat) : Option (SparseMatrix T) := do
  let _ ← fillEstimate A
  let cost ← (List.range A.cols).mapM fun j => do return (← costPlaces Q j) ++ [(j, j)]
  let constraints ← (List.range A.rows).mapM (pairPlaces index columnOf)
  sumTriplets A.cols A.cols
    ((cost.flatten ++ constraints.flatten).map fun p => { row := p.1, col := p.2, value := 0 })

/-- The slot of a place, which must lie inside of the matrix. -/
def slotAt (H : SparseMatrix T) (p : Nat × Nat) : Option Nat := do
  require (p.1 < H.rows)
  let _ ← rows H p.2
  return ReducedSystem.slotAt H p

/-- The system before its first update, with factors of the identity. -/
def ofProblem [Elimination.Rule] [Scalar T] (Q A : SparseMatrix T) (n m : Nat) :
    Option (Except NewtonError (ReducedSystem T n m)) := do
  let index ← rowIndex A
  let columnOf ← columnOfSlot A
  let H ← pattern Q A index columnOf
  let cost ← (List.range A.cols).mapM fun j => do (← costPlaces Q j).mapM (slotAt H)
  let diagonal ← (List.range A.cols).mapM fun j => slotAt H (j, j)
  let pairs ← (List.range A.rows).mapM fun r => do (← pairPlaces index columnOf r).mapM (slotAt H)
  let values ← diagonal.foldlM (fun v p => set v p 1) H.values
  match ← ofMatrix { H with values } 1.0 with
  | .error e => return .error (.factor e)
  | .ok factors =>
    return .ok
      { matrix := { H with values }
        slotOfCost := cost.flatten.toArray
        diagonal := diagonal.toArray
        slotsOfPairs := pairs.toArray
        rows := index
        columnOf
        factors
        active := Vector.replicate m false
        sigma := Vec.zeros m
        rho := 0
        factored := false
        modified := 0 }

theorem slotAt_eq (h : Layout H) {i j : Nat} (hi : i < H.rows) (hj : j < H.cols) :
    slotAt H (i, j) = some (ReducedSystem.slotAt H (i, j)) := by
  rw [slotAt, require_eq hi, rows_eq h hj]
  rfl

theorem fillEstimate_eq (h : WellFormed A) : fillEstimate A = some (ReducedSystem.fillEstimate A) := by
  have hcounts := foldlM_modify_eq (a := Array.replicate A.rows 0) id (fun _ k => k + 1) (l := A.rowIdx.toList)
    fun r hr => by
      rw [toList_rowIdx, List.mem_map] at hr
      obtain ⟨k, hk, rfl⟩ := hr
      rw [Array.size_replicate]
      exact rowAt_lt_rows h k hk
  rw [fillEstimate]
  refine (congrArg (Option.bind · _) hcounts).trans ?_
  simp only [Option.bind_some, ReducedSystem.fillEstimate, ← Array.foldl_toList]
  rfl

section Construction

variable (h : NewtonData Q A n m)

include h

theorem costPlaces_eq {j : Nat} (hj : j < n) : costPlaces Q j = some ((Q.slots j).map fun k => (Q.rowAt k, j)) := by
  rw [costPlaces, slots_eq h.cost.toLayout (h.cost_cols.symm ▸ hj)]
  refine mapM_eq fun k hk => ?_
  rw [rowAt_eq h.cost.toLayout (h.cost_lt hj hk)]
  rfl

theorem mem_row_of_mem_pairs {r : Nat} (hr : r < m) {p : Nat × Nat} (hp : p ∈ orderedPairs (A.rowIndex.row r)) :
    p.1 < A.values.size ∧ p.2 < A.values.size := by
  obtain ⟨hfst, hsnd, -⟩ := (ReducedSystem.mem_orderedPairs_row h hr).mp hp
  exact ⟨((h.mem_row hr).mp hfst).1, ((h.mem_row hr).mp hsnd).1⟩

theorem pairPlaces_eq {r : Nat} (hr : r < m) :
    pairPlaces A.rowIndex A.columnOfSlot r = some (ReducedSystem.pairPlaces A.rowIndex A.columnOfSlot r) := by
  have hsize := (columnOfSlot_eq h.constraints.toLayout).2
  rw [pairPlaces, row_eq h.constraints (h.constraint_rows.symm ▸ hr)]
  simp only [Option.bind_eq_bind, Option.bind_some]
  refine mapM_eq fun p hp => ?_
  obtain ⟨hfst, hsnd⟩ := mem_row_of_mem_pairs h hr hp
  rw [get_eq (hsize.symm ▸ hfst) 0, get_eq (hsize.symm ▸ hsnd) 0]
  rfl

variable [Scalar T]

theorem pattern_eq :
    pattern Q A A.rowIndex A.columnOfSlot = some (ReducedSystem.pattern Q A A.rowIndex A.columnOfSlot) := by
  have hcost : (List.range A.cols).mapM (fun j => do return (← costPlaces Q j) ++ [(j, j)]) =
      some ((List.range A.cols).map fun j => (Q.slots j).map (fun k => (Q.rowAt k, j)) ++ [(j, j)]) :=
    mapM_eq fun j hj => by
      rw [costPlaces_eq h (h.constraint_cols ▸ List.mem_range.mp hj)]
      rfl
  have hconstraints : (List.range A.rows).mapM (pairPlaces A.rowIndex A.columnOfSlot) =
      some ((List.range A.rows).map (ReducedSystem.pairPlaces A.rowIndex A.columnOfSlot)) :=
    mapM_eq fun r hr => pairPlaces_eq h (h.constraint_rows ▸ List.mem_range.mp hr)
  have hinside : ∀ t ∈ (ReducedSystem.places Q A).map fun p => ({ row := p.1, col := p.2, value := 0 } : Triplet T),
      t.col < A.cols := by
    intro t ht
    obtain ⟨⟨i, j⟩, hp, rfl⟩ := List.mem_map.mp ht
    rw [h.constraint_cols]
    exact (ReducedSystem.le_of_mem_places h hp).2
  have hplaces : ((List.range A.cols).map fun j => (Q.slots j).map (fun k => (Q.rowAt k, j)) ++ [(j, j)]).flatten ++
      ((List.range A.rows).map (ReducedSystem.pairPlaces A.rowIndex A.columnOfSlot)).flatten =
        ReducedSystem.places Q A := by
    simp only [ReducedSystem.places, List.flatMap_def]
  rw [pattern, fillEstimate_eq h.constraints]
  refine (congrArg (Option.bind · _) hcost).trans ((congrArg (Option.bind · _) hconstraints).trans ?_)
  simp only [Option.bind_some, hplaces]
  rw [sumTriplets, require_eq hinside]
  exact (ReducedSystem.wellFormed_pattern h).ofArrays?_eq rfl (ReducedSystem.cols_pattern Q A)

/-- The pattern has a slot for each of its places. -/
theorem slotAt_pattern {i j : Nat} (hp : (i, j) ∈ ReducedSystem.places Q A) :
    slotAt (ReducedSystem.pattern Q A A.rowIndex A.columnOfSlot) (i, j) =
        some (ReducedSystem.slotAt (ReducedSystem.pattern Q A A.rowIndex A.columnOfSlot) (i, j)) ∧
      ReducedSystem.slotAt (ReducedSystem.pattern Q A A.rowIndex A.columnOfSlot) (i, j) <
        (ReducedSystem.pattern Q A A.rowIndex A.columnOfSlot).values.size := by
  have hformed := ReducedSystem.wellFormed_pattern h
  have hcols := ReducedSystem.cols_pattern Q A
  rw [h.constraint_cols] at hcols
  have hrows : (ReducedSystem.pattern Q A A.rowIndex A.columnOfSlot).rows = n := h.constraint_cols
  obtain ⟨hle, hlt⟩ := ReducedSystem.le_of_mem_places h hp
  exact ⟨slotAt_eq hformed.toLayout (hrows.symm ▸ hle.trans_lt hlt) (hcols.symm ▸ hlt),
    hformed.lt_size (hcols.symm ▸ hlt) (ReducedSystem.hasPlace_pattern h hp).mem⟩

omit [Scalar T] in
theorem mem_places_diagonal {j : Nat} (hj : j ∈ List.range A.cols) : (j, j) ∈ ReducedSystem.places Q A :=
  (ReducedSystem.mem_places h).mpr (.inl ⟨h.constraint_cols ▸ List.mem_range.mp hj, .inr rfl⟩)

theorem costSlots_eq :
    (List.range A.cols).mapM (fun j => do
        (← costPlaces Q j).mapM (slotAt (ReducedSystem.pattern Q A A.rowIndex A.columnOfSlot))) =
      some ((List.range A.cols).map fun j => ((Q.slots j).map fun k => (Q.rowAt k, j)).map
        (ReducedSystem.slotAt (ReducedSystem.pattern Q A A.rowIndex A.columnOfSlot))) := by
  refine mapM_eq fun j hj => ?_
  rw [List.mem_range, h.constraint_cols] at hj
  rw [costPlaces_eq h hj]
  simp only [Option.bind_eq_bind, Option.bind_some]
  refine mapM_eq fun p hp => ?_
  obtain ⟨k, hk, rfl⟩ := List.mem_map.mp hp
  exact (slotAt_pattern h ((ReducedSystem.mem_places h).mpr (.inl ⟨hj, .inl ⟨k, hk, rfl⟩⟩))).1

theorem diagonalSlots_eq :
    (List.range A.cols).mapM (fun j => slotAt (ReducedSystem.pattern Q A A.rowIndex A.columnOfSlot) (j, j)) =
      some ((List.range A.cols).map fun j =>
        ReducedSystem.slotAt (ReducedSystem.pattern Q A A.rowIndex A.columnOfSlot) (j, j)) :=
  mapM_eq fun _ hj => (slotAt_pattern h (mem_places_diagonal h hj)).1

theorem pairSlots_eq :
    (List.range A.rows).mapM (fun r => do
        (← pairPlaces A.rowIndex A.columnOfSlot r).mapM
          (slotAt (ReducedSystem.pattern Q A A.rowIndex A.columnOfSlot))) =
      some ((List.range A.rows).map fun r => (ReducedSystem.pairPlaces A.rowIndex A.columnOfSlot r).map
        (ReducedSystem.slotAt (ReducedSystem.pattern Q A A.rowIndex A.columnOfSlot))) := by
  refine mapM_eq fun r hr => ?_
  rw [List.mem_range, h.constraint_rows] at hr
  rw [pairPlaces_eq h hr]
  simp only [Option.bind_eq_bind, Option.bind_some]
  refine mapM_eq fun p hp => ?_
  obtain ⟨q, hq, rfl⟩ := List.mem_map.mp hp
  exact (slotAt_pattern h ((ReducedSystem.mem_places h).mpr (.inr ⟨r, hr, q, hq, rfl, rfl⟩))).1

theorem initialValues_eq :
    ((List.range A.cols).map fun j =>
        ReducedSystem.slotAt (ReducedSystem.pattern Q A A.rowIndex A.columnOfSlot) (j, j)).foldlM
      (fun v p => set v p 1) (ReducedSystem.pattern Q A A.rowIndex A.columnOfSlot).values =
      some (ReducedSystem.initialValues Q A) := by
  rw [ReducedSystem.initialValues, ← List.toArray_range, List.map_toArray, List.foldl_toArray]
  refine foldlM_set_eq id (fun _ => (1 : T)) fun p hp => ?_
  obtain ⟨j, hj, rfl⟩ := List.mem_map.mp hp
  exact (slotAt_pattern h (mem_places_diagonal h hj)).2

theorem ofProblem_eq [Elimination.Rule]
    (horder : (Elimination.Rule.order (Elimination.graph (ReducedSystem.pattern Q A A.rowIndex A.columnOfSlot)) 1.0).Perm
      (List.range (ReducedSystem.pattern Q A A.rowIndex A.columnOfSlot).cols)) :
    ofProblem Q A n m = some (ReducedSystem.ofProblem Q A n m) ∧
      ∀ F, Factorization.ofMatrix { ReducedSystem.pattern Q A A.rowIndex A.columnOfSlot with
        values := ReducedSystem.initialValues Q A } none 1.0 = .ok F →
          Indexed { ReducedSystem.pattern Q A A.rowIndex A.columnOfSlot with
            values := ReducedSystem.initialValues Q A } F := by
  obtain ⟨hfactor, hindexed⟩ := ofMatrix_eq
    ((ReducedSystem.wellFormed_pattern h).withValues (ReducedSystem.size_initialValues Q A))
    (ReducedSystem.upper_pattern h) horder
  refine ⟨?_, hindexed⟩
  have hcostList : ((List.range A.cols).map fun j => ((Q.slots j).map fun k => (Q.rowAt k, j)).map
      (ReducedSystem.slotAt (ReducedSystem.pattern Q A A.rowIndex A.columnOfSlot))).flatten =
        (List.range A.cols).flatMap fun j => (Q.slots j).map fun k =>
          ReducedSystem.slotAt (ReducedSystem.pattern Q A A.rowIndex A.columnOfSlot) (Q.rowAt k, j) := by
    simp only [List.flatMap_def, List.map_map, Function.comp_def]
  rw [ofProblem, rowIndex_eq h.constraints, (columnOfSlot_eq h.constraints.toLayout).1]
  simp only [Option.bind_eq_bind, Option.bind_some, pattern_eq h]
  refine (congrArg (Option.bind · _) (costSlots_eq h)).trans ((congrArg (Option.bind · _) (diagonalSlots_eq h)).trans
    ((congrArg (Option.bind · _) (pairSlots_eq h)).trans ((congrArg (Option.bind · _) (initialValues_eq h)).trans
      ((congrArg (Option.bind · _) hfactor).trans ?_))))
  simp only [Option.bind_some, hcostList, ← List.map_toArray, List.toArray_range]
  split
  · next e hF => exact congrArg some (ReducedSystem.ofProblem_eq_error hF).symm
  · next F hF => exact congrArg some (ReducedSystem.ofProblem_eq_ok.mpr ⟨F, hF, rfl⟩).symm

end Construction

/-! ## Updates -/

section Updates

variable [Scalar T]

/-- Adds the products of the entries of row `r`, times its penalty. -/
def addRow (S : ReducedSystem T n m) (A : SparseMatrix T) (sigma : Vector T m) (values : Array T) (r : Fin m) :
    Option (Array T) := do
  let slots ← S.slotsOfPairs[(r : Nat)]?
  (slots.zip (orderedPairs (← row S.rows r))).foldlM
    (fun v e => do
      let a ← A.values[e.2.1]?
      let b ← A.values[e.2.2]?
      modify v e.1 (· + sigma.get r * a * b))
    values

/-- All values of `H` for a state. -/
def assemble (S : ReducedSystem T n m) (Q A : SparseMatrix T) (active : Vector Bool m) (sigma : Vector T m)
    (rho : T) : Option (Array T) := do
  let zero := S.matrix.values.map fun _ => (0 : T)
  let cost ← (S.slotOfCost.toList.zip Q.values.toList).foldlM (fun v e => modify v e.1 (· + e.2)) zero
  let shifted ← S.diagonal.toList.foldlM (fun v p => modify v p (· + rho)) cost
  ((List.finRange m).filter fun r => active.get r).foldlM (addRow S A sigma) shifted

/-- Assembles and factors `H` from scratch. -/
def refactor (S : ReducedSystem T n m) (Q A : SparseMatrix T) (active : Vector Bool m) (sigma : Vector T m)
    (rho : T) : Option (ReducedSystem T n m × Except NewtonError Unit) := do
  let values ← assemble S Q A active sigma rho
  let out ← Checked.refactor (← updateValues S.factors (List.range (← S.matrix.nnz?)) values.toList)
  let S := { S with
    matrix := { S.matrix with values }, factors := out.1, active, sigma, rho, factored := false, modified := 0 }
  match out.2 with
  | .error e => return (S, .error (.factor e))
  | .ok () =>
    match S.checkInertia with
    | .error e => return (S, .error e)
    | .ok () => return ({ S with factored := true }, .ok ())

/-- Row `r` of `A` as entries of a sparse vector. -/
def rowEntries (S : ReducedSystem T n m) (A : SparseMatrix T) (r : Nat) : Option (List (Nat × T)) := do
  (← row S.rows r).mapM fun k => do return (← S.columnOf[k]?, ← A.values[k]?)

/-- Modifies the factors by the changes, one after the other. -/
def modifyFactors (S : ReducedSystem T n m) (A : SparseMatrix T) :
    List (Change T) → Option (ReducedSystem T n m × Except NewtonError Unit)
  | [] => some (S, S.checkInertia)
  | c :: rest => do
    let out ← rankOne S.factors (← rowEntries S A c.row) c.weight
    match out.2 with
    | .ok () => modifyFactors { S with factors := out.1 } A rest
    | .error e => return ({ S with factors := out.1 }, .error (.factor e))

/-- Brings the factors in line with an active set, penalties and a proximal weight. -/
def update (S : ReducedSystem T n m) (Q A : SparseMatrix T) (active : Vector Bool m) (sigma : Vector T m)
    (rho : T) (c : Settings T) : Option (ReducedSystem T n m × Except NewtonError Unit × List (Event T)) :=
  let full (S : ReducedSystem T n m) (log : List (Event T)) :
      Option (ReducedSystem T n m × Except NewtonError Unit × List (Event T)) := do
    let out ← refactor S Q A active sigma rho
    return (out.1, out.2, log)
  if !S.factored || !(rho == S.rho) then full S []
  else
    let todo := ReducedSystem.changes S.active S.sigma active sigma
    if todo.isEmpty then some (S, .ok (), [])
    else if S.tooMany c todo.length then full S []
    else do
      let out ← modifyFactors S A todo
      match out.2 with
      | .ok () => return ({ out.1 with active, sigma, modified := out.1.modified + todo.length }, .ok (), [])
      | .error e => full out.1 [.lowRankFailed e]

def solve (S : ReducedSystem T n m) (rhs : Vector T n) : Option (Vector T n) := do
  Vec.ofArray? n (← Checked.solve S.factors rhs.toArray)

/-- The system knows the places of its data, and its factors can be used. -/
structure Intact (Q A : SparseMatrix T) (S : ReducedSystem T n m) : Prop where
  frame : Frame Q A S
  indexed : Indexed S.matrix S.factors
  size_slotsOfPairs : S.slotsOfPairs.size = m

variable {S : ReducedSystem T n m} {active : Vector Bool m} {sigma : Vector T m} {rho : T} {values : Array T}

namespace Intact

variable (h : Intact Q A S)

include h

omit [Scalar T] in
theorem slotAt_lt {i j : Nat} (hj : j < n) (hplace : HasPlace S.matrix i j) :
    ReducedSystem.slotAt S.matrix (i, j) < S.matrix.values.size :=
  h.frame.matrix.lt_size (h.frame.matrix_cols.symm ▸ hj) hplace.mem

omit [Scalar T] in
theorem row_eq {r : Nat} (hr : r < m) : row S.rows r = some (S.rows.row r) := by
  rw [h.frame.rows_eq]
  exact Checked.row_eq h.frame.constraints (h.frame.constraint_rows.symm ▸ hr)

theorem addRow_eq (hs : values.size = S.matrix.values.size) (r : Fin m) :
    addRow S A sigma values r = some (S.addRow A sigma values r) ∧
      (S.addRow A sigma values r).size = S.matrix.values.size := by
  have hslots := h.frame.slotsOfPairs_eq r r.isLt
  have hloop := foldlM_eq
    (f := fun (v : Array T) (e : Nat × Nat × Nat) => do
      let a ← A.values[e.2.1]?
      let b ← A.values[e.2.2]?
      modify v e.1 (· + sigma.get r * a * b))
    (g := fun v e => v.modify e.1 (· + sigma.get r * A.valueAt e.2.1 * A.valueAt e.2.2))
    (fun v => v.size = S.matrix.values.size) (l := (S.slotsOfPairs.getD r []).zip (orderedPairs (S.rows.row r))) hs
    fun v e he hsize => by
      rw [hslots, h.frame.rows_eq] at he
      obtain ⟨hfst, hsnd⟩ := mem_row_of_mem_pairs h.frame.toNewtonData r.isLt (List.of_mem_zip he).2
      obtain ⟨p, hp, hslot⟩ := List.mem_map.mp (List.of_mem_zip he).1
      obtain ⟨-, hcolumn, -⟩ := (ReducedSystem.mem_orderedPairs_row h.frame.toNewtonData r.isLt).mp hp
      have hlt := h.slotAt_lt (h.frame.exists_column r.isLt hcolumn).1 (h.frame.pair_place r r.isLt p hp)
      rw [get_eq hfst 0, get_eq hsnd 0]
      exact ⟨modify_eq (hsize.symm ▸ hslot ▸ hlt) _, Array.size_modify.trans hsize⟩
  rw [addRow, get_eq (h.size_slotsOfPairs.symm ▸ r.isLt) [], h.row_eq r.isLt]
  exact hloop

theorem assemble_eq : assemble S Q A active sigma rho = some (S.assemble Q A active sigma rho) := by
  have hcostSlots : ∀ p ∈ S.slotOfCost.toList, p < S.matrix.values.size := by
    rw [h.frame.slotOfCost_eq]
    intro p hp
    obtain ⟨j, hj, hp⟩ := List.mem_flatMap.mp hp
    obtain ⟨k, hk, rfl⟩ := List.mem_map.mp hp
    rw [List.mem_range] at hj
    exact h.slotAt_lt hj (h.frame.cost_place j hj k hk)
  have hdiagonalSlots : ∀ p ∈ S.diagonal.toList, p < S.matrix.values.size := by
    rw [h.frame.diagonal_eq, Array.toList_map, Array.toList_range]
    intro p hp
    obtain ⟨j, hj, rfl⟩ := List.mem_map.mp hp
    rw [List.mem_range] at hj
    exact h.slotAt_lt hj (h.frame.diagonal_place j hj)
  have hzero : (S.matrix.values.map fun _ => (0 : T)).size = S.matrix.values.size := Array.size_map
  have hcost := foldlM_modify_eq (a := S.matrix.values.map fun _ => (0 : T)) Prod.fst
    (fun (e : Nat × T) x => x + e.2) (l := S.slotOfCost.toList.zip Q.values.toList) fun e he =>
      hzero.symm ▸ hcostSlots e.1 (List.of_mem_zip he).1
  have hcostSize := size_foldl_modify (S.slotOfCost.toList.zip Q.values.toList) Prod.fst
    (fun (e : Nat × T) x => x + e.2) (S.matrix.values.map fun _ => (0 : T))
  rw [hzero] at hcostSize
  have hshift := foldlM_modify_eq (a := (S.slotOfCost.toList.zip Q.values.toList).foldl
    (fun v e => v.modify e.1 (· + e.2)) (S.matrix.values.map fun _ => (0 : T))) id (fun _ x => x + rho)
      (l := S.diagonal.toList) fun p hp => hcostSize.symm ▸ hdiagonalSlots p hp
  have hshiftSize := (size_foldl_modify S.diagonal.toList id (fun _ x => x + rho)
    ((S.slotOfCost.toList.zip Q.values.toList).foldl (fun v e => v.modify e.1 (· + e.2))
      (S.matrix.values.map fun _ => (0 : T)))).trans hcostSize
  have hrows := foldlM_eq (f := addRow S A sigma) (g := S.addRow A sigma)
    (fun v : Array T => v.size = S.matrix.values.size) (l := (List.finRange m).filter fun r => active.get r) hshiftSize
    fun _ r _ hsize => h.addRow_eq hsize r
  rw [assemble]
  refine (congrArg (Option.bind · _) hcost).trans ((congrArg (Option.bind · _) hshift).trans (hrows.1.trans ?_))
  rw [ReducedSystem.assemble, ← Array.foldl_toList]
  rfl

omit [Scalar T] in
/-- The system is intact with other values and factors, as long as it keeps the places of its data. -/
theorem of_same {S' : ReducedSystem T n m} (hs : values.size = S.matrix.values.size)
    (hmatrix : S'.matrix = { S.matrix with values }) (hcost : S'.slotOfCost = S.slotOfCost)
    (hdiagonal : S'.diagonal = S.diagonal) (hpairs : S'.slotsOfPairs = S.slotsOfPairs) (hrows : S'.rows = S.rows)
    (hcolumn : S'.columnOf = S.columnOf) (hfactors : Indexed S.matrix S'.factors) : Intact Q A S' where
  frame := h.frame.of_same hs hmatrix hcost hdiagonal hpairs hrows hcolumn
  indexed := hmatrix ▸ hfactors.withValues hs
  size_slotsOfPairs := hpairs ▸ h.size_slotsOfPairs

theorem refactor : refactor S Q A active sigma rho = some (S.refactor Q A active sigma rho) ∧
    Intact Q A (S.refactor Q A active sigma rho).1 := by
  have hnnz : S.matrix.nnz = S.matrix.values.size := h.frame.matrix.nnz_eq
  have hsize := ReducedSystem.size_assemble S Q A active sigma rho
  obtain ⟨hupdate, hupdated⟩ := @Indexed.updateValues _ _ _ h.indexed (List.range S.matrix.nnz)
    (S.assemble Q A active sigma rho).toList (fun p hp => hnnz ▸ List.mem_range.mp hp) (by
      rw [List.length_range, Array.length_toList, hsize, hnnz])
  obtain ⟨hrefactor, hrefactored⟩ := hupdated.refactor
  constructor
  · rw [Reduced.refactor, h.assemble_eq, nnz_eq h.frame.matrix.toLayout]
    refine (congrArg (Option.bind · _) hupdate).trans ((congrArg (Option.bind · _) hrefactor).trans ?_)
    simp only [Option.bind_some, ReducedSystem.refactor]
    generalize (S.factors.updateValues (List.range S.matrix.nnz) (S.assemble Q A active sigma rho).toList).refactor = out
    obtain ⟨F, outcome⟩ := out
    cases outcome with
    | error e => rfl
    | ok u =>
        simp only [ReducedSystem.checkInertia]
        by_cases hpositive : F.positive = n
        · simp only [if_pos hpositive]
          rfl
        · simp only [if_neg hpositive]
          rfl
  · generalize hout : S.refactor Q A active sigma rho = out
    obtain ⟨S₁, outcome⟩ := out
    obtain ⟨rfl, -⟩ := ReducedSystem.refactor_cases rfl hout
    exact h.of_same hsize rfl rfl rfl rfl rfl rfl hrefactored

theorem rowEntries_eq {r : Nat} (hr : r < m) :
    rowEntries S A r = some (S.rowEntries A r) ∧ ∀ e ∈ S.rowEntries A r, e.1 < n := by
  have hsize := (columnOfSlot_eq h.frame.constraints.toLayout).2
  constructor
  · rw [rowEntries, h.row_eq hr]
    refine mapM_eq fun k hk => ?_
    rw [h.frame.rows_eq, h.frame.mem_row hr] at hk
    rw [h.frame.columnOf_eq, get_eq (hsize.symm ▸ hk.1) 0, get_eq hk.1 0]
    rfl
  · intro e he
    obtain ⟨k, hk, rfl⟩ := List.mem_map.mp he
    rw [h.frame.rows_eq] at hk
    rw [h.frame.columnOf_eq]
    exact (h.frame.exists_column hr hk).1

end Intact

/-- Whether or not all modifications succeed, the factors can still be used. -/
theorem Intact.modifyFactors {changes : List (Change T)} (hrows : ∀ c ∈ changes, c.row < m) (h : Intact Q A S) :
    modifyFactors S A changes = some (S.modify A changes) ∧ Intact Q A (S.modify A changes).1 := by
  induction changes generalizing S with
  | nil => exact ⟨rfl, h⟩
  | cons c rest ih =>
      obtain ⟨hentries, hinside⟩ := h.rowEntries_eq (hrows c List.mem_cons_self)
      obtain ⟨hrankOne, hindexed⟩ := h.indexed.rankOne c.weight fun e he => h.frame.matrix_cols.symm ▸ hinside e he
      rw [Reduced.modifyFactors, hentries, ReducedSystem.modify]
      simp only [Option.bind_eq_bind, Option.bind_some, hrankOne]
      generalize S.factors.rankOne (S.rowEntries A c.row) c.weight = out at hindexed ⊢
      obtain ⟨F, outcome⟩ := out
      have hnext : Intact Q A { S with factors := F } := h.of_same rfl rfl rfl rfl rfl rfl rfl hindexed
      cases outcome with
      | ok u => exact ih (fun c hc => hrows c (List.mem_cons_of_mem _ hc)) hnext
      | error e => exact ⟨rfl, hnext⟩

namespace Intact

variable (h : Intact Q A S)

include h

/-- Whether or not an update succeeds, the system can be updated again. -/
theorem update (c : Settings T) : update S Q A active sigma rho c = some (S.update Q A active sigma rho c) ∧
    Intact Q A (S.update Q A active sigma rho c).1 := by
  have hfull : ∀ {S' : ReducedSystem T n m} (log : List (Event T)), Intact Q A S' →
      (do
        let out ← Reduced.refactor S' Q A active sigma rho
        return (out.1, out.2, log)) =
          some ((S'.refactor Q A active sigma rho).1, (S'.refactor Q A active sigma rho).2, log) ∧
        Intact Q A (S'.refactor Q A active sigma rho).1 := by
    intro S' log h'
    obtain ⟨hrefactor, hintact⟩ := @Intact.refactor _ _ _ _ _ _ S' active sigma rho h'
    rw [hrefactor]
    exact ⟨rfl, hintact⟩
  unfold Reduced.update ReducedSystem.update
  simp only
  split
  · exact hfull [] h
  · split
    · exact ⟨rfl, h⟩
    · split
      · exact hfull [] h
      · obtain ⟨hmodify, hmodified⟩ := Intact.modifyFactors
          (fun c hc => ReducedSystem.row_lt_of_mem_changes hc) h
        rw [hmodify]
        simp only [Option.bind_eq_bind, Option.bind_some]
        generalize S.modify A (ReducedSystem.changes S.active S.sigma active sigma) = out at hmodified
        obtain ⟨S₁, outcome⟩ := out
        cases outcome with
        | ok u => exact ⟨rfl, hmodified.of_same rfl rfl rfl rfl rfl rfl rfl hmodified.indexed⟩
        | error e => exact hfull [.lowRankFailed e] hmodified

theorem solve (rhs : Vector T n) : solve S rhs = some (S.solve rhs) := by
  have hlen : rhs.toArray.size = S.matrix.cols := by
    rw [Vector.size_toArray, h.frame.matrix_cols]
  rw [Reduced.solve, h.indexed.solve hlen]
  exact ofArray?_eq_read ((h.indexed.size_solve _).trans h.frame.matrix_cols)

omit [Scalar T] in
theorem invalidate : Intact Q A S.invalidate := h.of_same rfl rfl rfl rfl rfl rfl rfl h.indexed

end Intact

theorem intact_of_ofProblem [Elimination.Rule] (h : NewtonData Q A n m)
    (horder : (Elimination.Rule.order (Elimination.graph (ReducedSystem.pattern Q A A.rowIndex A.columnOfSlot)) 1.0).Perm
      (List.range (ReducedSystem.pattern Q A A.rowIndex A.columnOfSlot).cols))
    (hS : ReducedSystem.ofProblem Q A n m = .ok S) : Intact Q A S := by
  obtain ⟨F, hF, rfl⟩ := ReducedSystem.ofProblem_eq_ok.mp hS
  exact
    { frame := ReducedSystem.frame_start h F
      indexed := (ofProblem_eq h horder).2 F hF
      size_slotsOfPairs := by
        rw [ReducedSystem.start, Array.size_map, Array.size_range, h.constraint_rows] }

end Updates

end AugLag.Checked.Reduced
