import AugLag.Proofs.Factor.Analysis
import AugLag.Proofs.Newton.Hessian
import AugLag.Proofs.Sparse.Build
import AugLag.Newton.Reduced

/-!
# The pattern of the reduced system

The pattern has a place for each entry of the cost, for the diagonal, and for each product of two entries of one row of
the constraints. So the entries of a row are linked pairwise, and a row can be added to factors or taken from them.
-/

namespace AugLag.ReducedSystem

open SparseMatrix

/-! ## Pairs in order -/

section Pairs

variable {α : Type} {l : List α} {a b : α}

theorem fst_mem_of_mem_orderedPairs (h : (a, b) ∈ orderedPairs l) : a ∈ l := by
  induction l with
  | nil => cases h
  | cons c l ih =>
      rcases List.mem_append.mp h with hmap | hrest
      · obtain ⟨d, -, heq⟩ := List.mem_map.mp hmap
        rw [← (Prod.mk.inj heq).1]
        exact List.mem_cons_self
      · exact List.mem_cons_of_mem _ (ih hrest)

theorem nodup_orderedPairs (h : l.Nodup) : (orderedPairs l).Nodup := by
  induction l with
  | nil => exact List.nodup_nil
  | cons c l ih =>
      rw [List.nodup_cons] at h
      refine List.nodup_append.mpr ⟨?_, ih h.2, fun p hp q hq heq => ?_⟩
      · exact (List.nodup_cons.mpr h).map fun _ _ heq => (Prod.mk.inj heq).2
      · obtain ⟨d, -, rfl⟩ := List.mem_map.mp hp
        rw [← heq] at hq
        exact h.1 (fst_mem_of_mem_orderedPairs hq)

/-- In an ascending list the ordered pairs are those in which the first element is not the larger one. -/
theorem mem_orderedPairs {f : α → Nat} (h : l.Pairwise fun a b => f a < f b) :
    (a, b) ∈ orderedPairs l ↔ a ∈ l ∧ b ∈ l ∧ f a ≤ f b := by
  induction l with
  | nil => exact ⟨nofun, fun hand => absurd hand.1 List.not_mem_nil⟩
  | cons c l ih =>
      rw [List.pairwise_cons] at h
      rw [orderedPairs, List.mem_append, ih h.2, List.mem_map]
      constructor
      · rintro (⟨d, hd, heq⟩ | ⟨ha, hb, hle⟩)
        · obtain ⟨rfl, rfl⟩ := Prod.mk.inj heq
          refine ⟨List.mem_cons_self, hd, ?_⟩
          rcases List.mem_cons.mp hd with rfl | hd
          · exact le_rfl
          · exact (h.1 d hd).le
        · exact ⟨List.mem_cons_of_mem _ ha, List.mem_cons_of_mem _ hb, hle⟩
      · rintro ⟨ha, hb, hle⟩
        rcases List.mem_cons.mp ha with rfl | ha'
        · exact .inl ⟨b, hb, rfl⟩
        · rcases List.mem_cons.mp hb with rfl | hb'
          · exact absurd (h.1 a ha') (not_lt.mpr hle)
          · exact .inr ⟨ha', hb', hle⟩

end Pairs

/-! ## Places -/

variable {K : Type} [Scalar K] {Q A M : SparseMatrix K} {n m : Nat}

/-- The pattern has a slot for a place. -/
structure HasPlace (M : SparseMatrix K) (i j : Nat) : Prop where
  mem : slotAt M (i, j) ∈ M.slots j
  row : M.rowAt (slotAt M (i, j)) = i

omit [Scalar K] in
theorem HasPlace.withValues {i j : Nat} (h : HasPlace M i j) (values : Array K) : HasPlace { M with values } i j :=
  ⟨h.mem, h.row⟩

omit [Scalar K] in
theorem slotAt_eq (h : WellFormed M) {j k : Nat} (hj : j < M.cols) (hk : k ∈ M.slots j) :
    slotAt M (M.rowAt k, j) = k := by
  rw [slotAt, (h.findSlot_eq_some hj).mpr ⟨hk, rfl⟩]
  rfl

omit [Scalar K] in
theorem hasPlace_of_mem (h : WellFormed M) {i j k : Nat} (hj : j < M.cols) (hk : k ∈ M.slots j) (hrow : M.rowAt k = i) :
    HasPlace M i j := by
  subst hrow
  have heq := slotAt_eq h hj hk
  exact { mem := heq.symm ▸ hk, row := by rw [heq] }

omit [Scalar K] in
/-- The slot of a place belongs to no other place. -/
theorem HasPlace.slotAt_eq_iff (h : WellFormed M) {i j j' p : Nat} (hplace : HasPlace M i j) (hj : j < M.cols)
    (hj' : j' < M.cols) (hp : p ∈ M.slots j') : slotAt M (i, j) = p ↔ i = M.rowAt p ∧ j = j' := by
  refine ⟨fun heq => ?_, ?_⟩
  · subst heq
    exact ⟨hplace.row.symm, h.column_unique hj hj' hplace.mem hp⟩
  · rintro ⟨rfl, rfl⟩
    exact slotAt_eq h hj hp

/-- The static part of the system: its pattern, and the places of the slots of its data. -/
structure Frame (Q A : SparseMatrix K) (S : ReducedSystem K n m) : Prop extends NewtonData Q A n m where
  matrix : WellFormed S.matrix
  matrix_cols : S.matrix.cols = n
  matrix_upper : S.matrix.Upper
  rows_eq : S.rows = A.rowIndex
  columnOf_eq : S.columnOf = A.columnOfSlot
  slotOfCost_eq : S.slotOfCost =
    ((List.range n).flatMap fun j => (Q.slots j).map fun k => slotAt S.matrix (Q.rowAt k, j)).toArray
  diagonal_eq : S.diagonal = (Array.range n).map fun j => slotAt S.matrix (j, j)
  slotsOfPairs_eq : ∀ r < m, S.slotsOfPairs.getD r [] = (orderedPairs (A.rowIndex.row r)).map fun p =>
    slotAt S.matrix (A.columnOfSlot.getD p.1 0, A.columnOfSlot.getD p.2 0)
  cost_place : ∀ j < n, ∀ k ∈ Q.slots j, HasPlace S.matrix (Q.rowAt k) j
  diagonal_place : ∀ j < n, HasPlace S.matrix j j
  pair_place : ∀ r < m, ∀ p ∈ orderedPairs (A.rowIndex.row r),
    HasPlace S.matrix (A.columnOfSlot.getD p.1 0) (A.columnOfSlot.getD p.2 0)

/-! ## The pattern -/

omit [Scalar K] in
theorem mem_orderedPairs_row (h : NewtonData Q A n m) {r k k' : Nat} (hr : r < m) :
    (k, k') ∈ orderedPairs (A.rowIndex.row r) ↔ k ∈ A.rowIndex.row r ∧ k' ∈ A.rowIndex.row r ∧
      A.columnOfSlot.getD k 0 ≤ A.columnOfSlot.getD k' 0 :=
  mem_orderedPairs (List.pairwise_map.mp (h.row_ascends hr))

/-- The places that the pattern is made of. -/
def places (Q A : SparseMatrix K) : List (Nat × Nat) :=
  ((List.range A.cols).flatMap fun j => (Q.slots j).map (fun k => (Q.rowAt k, j)) ++ [(j, j)]) ++
    (List.range A.rows).flatMap (pairPlaces A.rowIndex A.columnOfSlot)

omit [Scalar K] in
theorem mem_places (h : NewtonData Q A n m) {i j : Nat} : (i, j) ∈ places Q A ↔
    (j < n ∧ ((∃ k ∈ Q.slots j, Q.rowAt k = i) ∨ i = j)) ∨
      ∃ r < m, ∃ p ∈ orderedPairs (A.rowIndex.row r), A.columnOfSlot.getD p.1 0 = i ∧ A.columnOfSlot.getD p.2 0 = j := by
  unfold places
  rw [List.mem_append, List.mem_flatMap, List.mem_flatMap, h.constraint_cols, h.constraint_rows]
  refine or_congr ?_ ?_
  · simp only [List.mem_range, List.mem_append, List.mem_map, List.mem_singleton, Prod.mk.injEq]
    constructor
    · rintro ⟨j', hj', ⟨k, hk, rfl, rfl⟩ | ⟨rfl, rfl⟩⟩
      · exact ⟨hj', .inl ⟨k, hk, rfl⟩⟩
      · exact ⟨hj', .inr rfl⟩
    · rintro ⟨hj, ⟨k, hk, rfl⟩ | rfl⟩
      · exact ⟨j, hj, .inl ⟨k, hk, rfl, rfl⟩⟩
      · exact ⟨i, hj, .inr ⟨rfl, rfl⟩⟩
  · simp only [pairPlaces, List.mem_range, List.mem_map, Prod.mk.injEq]

omit [Scalar K] in
/-- Places lie in the upper triangle. -/
theorem le_of_mem_places (h : NewtonData Q A n m) {i j : Nat} (hij : (i, j) ∈ places Q A) : i ≤ j ∧ j < n := by
  rcases (mem_places h).mp hij with ⟨hj, ⟨k, hk, rfl⟩ | rfl⟩ | ⟨r, hr, ⟨k, k'⟩, hp, rfl, rfl⟩
  · exact ⟨h.cost_row_le hj hk, hj⟩
  · exact ⟨le_rfl, hj⟩
  · obtain ⟨-, hk', hle⟩ := (mem_orderedPairs_row h hr).mp hp
    exact ⟨hle, (h.exists_column hr hk').1⟩

theorem pattern_eq (Q A : SparseMatrix K) :
    pattern Q A A.rowIndex A.columnOfSlot =
      sumTriplets A.cols A.cols ((places Q A).map fun p => ({ row := p.1, col := p.2, value := 0 } : Triplet K)) := rfl

theorem cols_pattern (Q A : SparseMatrix K) : (pattern Q A A.rowIndex A.columnOfSlot).cols = A.cols := by
  rw [pattern_eq, cols_sumTriplets]

theorem wellFormed_pattern (h : NewtonData Q A n m) : WellFormed (pattern Q A A.rowIndex A.columnOfSlot) := by
  rw [pattern_eq]
  refine wellFormed_sumTriplets fun t ht => ?_
  obtain ⟨⟨i, j⟩, hp, rfl⟩ := List.mem_map.mp ht
  obtain ⟨hle, hlt⟩ := le_of_mem_places h hp
  rw [h.constraint_cols]
  exact hle.trans_lt hlt

/-- The pattern has a slot in row `i` of column `j` if this is one of the places. -/
theorem exists_slot_pattern (h : NewtonData Q A n m) {i j : Nat} (hj : j < n) :
    (∃ k ∈ (pattern Q A A.rowIndex A.columnOfSlot).slots j,
      (pattern Q A A.rowIndex A.columnOfSlot).rowAt k = i) ↔ (i, j) ∈ places Q A := by
  rw [pattern_eq, exists_slot_sumTriplets (by rw [h.constraint_cols]; exact hj)]
  constructor
  · rintro ⟨t, ht, rfl, rfl⟩
    obtain ⟨p, hp, rfl⟩ := List.mem_map.mp ht
    exact hp
  · intro hp
    exact ⟨_, List.mem_map_of_mem hp, rfl, rfl⟩

theorem upper_pattern (h : NewtonData Q A n m) : (pattern Q A A.rowIndex A.columnOfSlot).Upper := by
  intro j hj k hk
  rw [cols_pattern, h.constraint_cols] at hj
  exact (le_of_mem_places h ((exists_slot_pattern h hj).mp ⟨k, hk, rfl⟩)).1

theorem hasPlace_pattern (h : NewtonData Q A n m) {i j : Nat} (hp : (i, j) ∈ places Q A) :
    HasPlace (pattern Q A A.rowIndex A.columnOfSlot) i j := by
  have hj := (le_of_mem_places h hp).2
  obtain ⟨k, hk, hrow⟩ := (exists_slot_pattern h hj).mpr hp
  refine hasPlace_of_mem (wellFormed_pattern h) ?_ hk hrow
  rw [cols_pattern, h.constraint_cols]
  exact hj

/-- The values of the pattern are sums of zeros. -/
theorem valueAt_pattern_spec {p : K → Prop} (hzero : p 0) (hadd : ∀ a b, p a → p b → p (a + b)) (h : NewtonData Q A n m)
    {j k : Nat} (hj : j < n) (hk : k ∈ (pattern Q A A.rowIndex A.columnOfSlot).slots j) :
    p ((pattern Q A A.rowIndex A.columnOfSlot).valueAt k) := by
  have hmem := List.mem_map_of_mem (f := fun k => ((pattern Q A A.rowIndex A.columnOfSlot).rowAt k,
    (pattern Q A A.rowIndex A.columnOfSlot).valueAt k)) hk
  have hcolumn : (pattern Q A A.rowIndex A.columnOfSlot).column j = _ := column_sumTriplets (h.constraint_cols.symm ▸ hj)
  rw [← column, hcolumn] at hmem
  refine forall_gatherColumn hadd (fun t ht => ?_) j _ hmem
  obtain ⟨q, -, rfl⟩ := List.mem_map.mp ht
  exact hzero

/-! ## The system before its first update -/

/-- One on the diagonal of the pattern. -/
def initialValues (Q A : SparseMatrix K) : Array K :=
  ((Array.range A.cols).map fun j => slotAt (pattern Q A A.rowIndex A.columnOfSlot) (j, j)).foldl
    (fun v p => v.setIfInBounds p 1) (pattern Q A A.rowIndex A.columnOfSlot).values

/-- The system before its first update, with the given factors. -/
def start (Q A : SparseMatrix K) (n m : Nat) (F : Factorization K) : ReducedSystem K n m where
  matrix := { pattern Q A A.rowIndex A.columnOfSlot with values := initialValues Q A }
  slotOfCost := ((List.range A.cols).flatMap fun j =>
    (Q.slots j).map fun k => slotAt (pattern Q A A.rowIndex A.columnOfSlot) (Q.rowAt k, j)).toArray
  diagonal := (Array.range A.cols).map fun j => slotAt (pattern Q A A.rowIndex A.columnOfSlot) (j, j)
  slotsOfPairs := (Array.range A.rows).map fun r =>
    (pairPlaces A.rowIndex A.columnOfSlot r).map (slotAt (pattern Q A A.rowIndex A.columnOfSlot))
  rows := A.rowIndex
  columnOf := A.columnOfSlot
  factors := F
  active := Vector.replicate m false
  sigma := Vec.zeros m
  rho := 0
  factored := false
  modified := 0

/-- The system is made if the pattern can be factored. -/
theorem ofProblem_eq_ok [Elimination.Rule] {S : ReducedSystem K n m} : ofProblem Q A n m = .ok S ↔
    ∃ F, Factorization.ofMatrix
        { pattern Q A A.rowIndex A.columnOfSlot with values := initialValues Q A } none 1.0 = .ok F ∧
      start Q A n m F = S := by
  unfold ofProblem
  simp only
  constructor
  · intro h
    split at h
    · cases h
    · next F hF => exact ⟨F, hF, Except.ok.inj h⟩
  · rintro ⟨F, hF, rfl⟩
    split
    · next e he => cases he.symm.trans hF
    · next F' hF' =>
        obtain rfl : F' = F := Except.ok.inj (hF'.symm.trans hF)
        rfl

theorem ofProblem_eq_error [Elimination.Rule] {e : FactorError}
    (h : Factorization.ofMatrix
      { pattern Q A A.rowIndex A.columnOfSlot with values := initialValues Q A } none 1.0 = .error e) :
    (ofProblem Q A n m : Except NewtonError (ReducedSystem K n m)) = .error (.factor e) := by
  unfold ofProblem
  simp only
  split
  · next e' he =>
      obtain rfl : e' = e := Except.error.inj (he.symm.trans h)
      rfl
  · next F hF => cases hF.symm.trans h

theorem size_initialValues (Q A : SparseMatrix K) :
    (initialValues Q A).size = (pattern Q A A.rowIndex A.columnOfSlot).values.size := by
  rw [initialValues, ← Array.foldl_toList]
  exact size_foldl_setIfInBounds _ id (fun _ => 1) _

theorem frame_start (h : NewtonData Q A n m) (F : Factorization K) : Frame Q A (start Q A n m F) where
  toNewtonData := h
  matrix := (wellFormed_pattern h).withValues (size_initialValues Q A)
  matrix_cols := (cols_pattern Q A).trans h.constraint_cols
  matrix_upper := upper_pattern h
  rows_eq := rfl
  columnOf_eq := rfl
  slotOfCost_eq := by
    rw [← h.constraint_cols]
    rfl
  diagonal_eq := by
    rw [← h.constraint_cols]
    rfl
  slotsOfPairs_eq r hr := by
    rw [← h.constraint_rows] at hr
    have hget : (start Q A n m F).slotsOfPairs.getD r [] =
        (pairPlaces A.rowIndex A.columnOfSlot r).map (slotAt (pattern Q A A.rowIndex A.columnOfSlot)) := by
      simp [start, Array.getD_eq_getD_getElem?, hr]
    rw [hget, pairPlaces, List.map_map]
    rfl
  cost_place j hj k hk :=
    (hasPlace_pattern h ((mem_places h).mpr (.inl ⟨hj, .inl ⟨k, hk, rfl⟩⟩))).withValues _
  diagonal_place j hj := (hasPlace_pattern h ((mem_places h).mpr (.inl ⟨hj, .inr rfl⟩))).withValues _
  pair_place r hr p hp := (hasPlace_pattern h ((mem_places h).mpr (.inr ⟨r, hr, p, hp, rfl, rfl⟩))).withValues _

omit [Scalar K] in
/-- The frame does not depend on the values. -/
theorem Frame.of_same {S S' : ReducedSystem K n m} (h : Frame Q A S) {values : Array K}
    (hs : values.size = S.matrix.values.size) (hmatrix : S'.matrix = { S.matrix with values })
    (hcost : S'.slotOfCost = S.slotOfCost) (hdiagonal : S'.diagonal = S.diagonal)
    (hpairs : S'.slotsOfPairs = S.slotsOfPairs) (hrows : S'.rows = S.rows) (hcolumn : S'.columnOf = S.columnOf) :
    Frame Q A S' := by
  obtain ⟨matrix', slotOfCost', diagonal', slotsOfPairs', rows', columnOf', factors', active', sigma', rho', factored',
    modified'⟩ := S'
  subst hmatrix hcost hdiagonal hpairs hrows hcolumn
  exact
    { h.toNewtonData with
      matrix := h.matrix.withValues hs
      matrix_cols := h.matrix_cols
      matrix_upper := h.matrix_upper
      rows_eq := h.rows_eq
      columnOf_eq := h.columnOf_eq
      slotOfCost_eq := h.slotOfCost_eq
      diagonal_eq := h.diagonal_eq
      slotsOfPairs_eq := h.slotsOfPairs_eq
      cost_place := fun j hj k hk => (h.cost_place j hj k hk).withValues _
      diagonal_place := fun j hj => (h.diagonal_place j hj).withValues _
      pair_place := fun r hr p hp => (h.pair_place r hr p hp).withValues _ }

end AugLag.ReducedSystem
