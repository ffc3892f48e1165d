import AugLag.Proofs.Newton.ReducedFresh

/-!
# What assembly adds to a place

Assembly goes through the entries of the cost, the diagonal, and the pairs of entries of each active row, and adds to the
slots that were stored for them. A slot receives what belongs to its row and column, and nothing else, in the order of
these loops (`getD_assemble`). Nothing here depends on how the scalars calculate.
-/

namespace AugLag.ReducedSystem

open SparseMatrix

variable {T : Type} {Q A : SparseMatrix T} {n m : Nat} {S : ReducedSystem T n m} {i j p : Nat}

/-! ## Elements aimed at one slot -/

/-- A filter keeps the one element that has its property, if there is one. -/
theorem filter_eq_toList {β : Type} {l : List β} (hl : l.Nodup) {p : β → Bool} {o : Option β}
    (h : ∀ b, o = some b ↔ b ∈ l ∧ p b = true) : l.filter p = o.toList := by
  have hperm : (l.filter p).Perm o.toList := by
    refine (List.perm_ext_iff_of_nodup (hl.filter p) (by cases o <;> simp)).mpr fun b => ?_
    rw [List.mem_filter, ← h b, Option.mem_toList]
  cases o with
  | none => exact List.perm_nil.mp hperm
  | some b => exact List.perm_singleton.mp hperm

/-- The slots of a matrix, with their columns. -/
def allSlots (M : SparseMatrix T) (n : Nat) : List (Nat × Nat) :=
  (List.range n).flatMap fun j => (M.slots j).map fun k => (j, k)

theorem mem_allSlots {M : SparseMatrix T} {j k : Nat} : (j, k) ∈ allSlots M n ↔ j < n ∧ k ∈ M.slots j := by
  simp [allSlots]

theorem map_snd_allSlots (h : NewtonData Q A n m) : (allSlots Q n).map Prod.snd = List.range Q.values.size := by
  rw [← h.cost.flatMap_slots, h.cost_cols, allSlots, List.map_flatMap]
  simp [Function.comp_def]

theorem nodup_allSlots (h : NewtonData Q A n m) : (allSlots Q n).Nodup := by
  refine List.Nodup.of_map Prod.snd ?_
  rw [map_snd_allSlots h]
  exact List.nodup_range

theorem length_allSlots (h : NewtonData Q A n m) : (allSlots Q n).length = Q.values.size := by
  rw [← List.length_map (f := Prod.snd), map_snd_allSlots h, List.length_range]

/-- The slots of the cost are stored in the order in which its columns are gone through. -/
theorem toList_slotOfCost (h : Frame Q A S) :
    S.slotOfCost.toList = (allSlots Q n).map fun e => slotAt S.matrix (Q.rowAt e.2, e.1) := by
  rw [h.slotOfCost_eq, allSlots, List.map_flatMap]
  simp [Function.comp_def]

/-- Each two entries of a row have a place. -/
theorem Frame.row_place (h : Frame Q A S) {r k k' : Nat} (hr : r < m) (hk : k ∈ A.rowIndex.row r)
    (hk' : k' ∈ A.rowIndex.row r) (hle : A.columnOfSlot.getD k 0 ≤ A.columnOfSlot.getD k' 0) :
    HasPlace S.matrix (A.columnOfSlot.getD k 0) (A.columnOfSlot.getD k' 0) :=
  h.pair_place r hr (k, k') ((mem_orderedPairs_row h.toNewtonData hr).mpr ⟨hk, hk', hle⟩)

/-- The slot of a place is the one in its column whose row it names. -/
theorem Frame.slotAt_eq_iff (h : Frame Q A S) {j' : Nat} (hplace : HasPlace S.matrix i j') (hj' : j' < n) (hj : j < n)
    (hp : p ∈ S.matrix.slots j) : slotAt S.matrix (i, j') = p ↔ i = S.matrix.rowAt p ∧ j' = j := by
  rw [← h.matrix_cols] at hj hj'
  exact hplace.slotAt_eq_iff h.matrix hj' hj hp

section Filters

variable (h : Frame Q A S) (hj : j < n) (hp : p ∈ S.matrix.slots j)

include h hj hp

theorem slotAt_diagonal_iff (hi : i < n) : slotAt S.matrix (i, i) = p ↔ i = S.matrix.rowAt p ∧ i = j :=
  h.slotAt_eq_iff (h.diagonal_place i hi) hi hj hp

/-- Of the cost, the entry at the place of a slot is aimed at it. -/
theorem filter_cost :
    ((allSlots Q n).filter fun e => slotAt S.matrix (Q.rowAt e.2, e.1) = p) =
      ((Q.findSlot (S.matrix.rowAt p) j).map fun k => (j, k)).toList := by
  refine filter_eq_toList (nodup_allSlots h.toNewtonData) fun e => ?_
  obtain ⟨j', k⟩ := e
  have hslot {k : Nat} := h.cost.findSlot_eq_some (i := S.matrix.rowAt p) (k := k) (h.cost_cols.symm ▸ hj)
  have hiff (hj' : j' < n) (hk : k ∈ Q.slots j') := h.slotAt_eq_iff (h.cost_place j' hj' k hk) hj' hj hp
  simp only [Option.map_eq_some_iff, Prod.mk.injEq, mem_allSlots, decide_eq_true_eq]
  constructor
  · rintro ⟨k, hk, rfl, rfl⟩
    obtain ⟨hmem, hrow⟩ := hslot.mp hk
    exact ⟨⟨hj, hmem⟩, (hiff hj hmem).mpr ⟨hrow, rfl⟩⟩
  · rintro ⟨⟨hj', hk⟩, heq⟩
    obtain ⟨hrow, rfl⟩ := (hiff hj' hk).mp heq
    exact ⟨k, hslot.mpr ⟨hk, hrow⟩, rfl, rfl⟩

/-- Of the diagonal, the entry of the column is aimed at its slot on the diagonal. -/
theorem filter_diagonal :
    ((List.range n).filter fun i => slotAt S.matrix (i, i) = p) =
      (if S.matrix.rowAt p = j then some j else none).toList := by
  refine filter_eq_toList List.nodup_range fun i => ?_
  rw [List.mem_range, decide_eq_true_eq, Option.ite_none_right_eq_some, Option.some_inj]
  constructor
  · rintro ⟨hrow, rfl⟩
    exact ⟨hj, (slotAt_diagonal_iff h hj hp hj).mpr ⟨hrow.symm, rfl⟩⟩
  · rintro ⟨hi, heq⟩
    obtain ⟨hrow, rfl⟩ := (slotAt_diagonal_iff h hj hp hi).mp heq
    exact ⟨hrow.symm, rfl⟩

/-- Of the pairs of a row, the one in the columns of a slot's place is aimed at it. -/
theorem filter_pairs {r : Nat} (hr : r < m) :
    ((orderedPairs (A.rowIndex.row r)).filter fun e =>
        slotAt S.matrix (A.columnOfSlot.getD e.1 0, A.columnOfSlot.getD e.2 0) = p) =
      (Option.map₂ Prod.mk (A.findSlot r (S.matrix.rowAt p)) (A.findSlot r j)).toList := by
  have hle : S.matrix.rowAt p ≤ j := h.matrix_upper j (h.matrix_cols.symm ▸ hj) p hp
  have hnodup : (orderedPairs (A.rowIndex.row r)).Nodup :=
    nodup_orderedPairs (List.Nodup.of_map _ ((h.row_ascends hr).imp fun hlt => hlt.ne))
  have hpairs {k k' : Nat} := @mem_orderedPairs_row _ Q A n m h.toNewtonData r k k' hr
  refine filter_eq_toList hnodup fun e => ?_
  obtain ⟨k, k'⟩ := e
  have hiff (hmem : (k, k') ∈ orderedPairs (A.rowIndex.row r)) :=
    h.slotAt_eq_iff (h.pair_place r hr _ hmem) (h.exists_column hr (hpairs.mp hmem).2.1).1 hj hp
  simp only [Option.map₂_eq_some_iff, Option.mem_def, Prod.mk.injEq, decide_eq_true_eq,
    h.findSlot_eq_some hr hj, h.findSlot_eq_some hr (hle.trans_lt hj)]
  constructor
  · rintro ⟨k, k', ⟨hk, hcol⟩, ⟨hk', hcol'⟩, rfl, rfl⟩
    have hmem := hpairs.mpr ⟨hk, hk', by rw [hcol, hcol']; exact hle⟩
    exact ⟨hmem, (hiff hmem).mpr ⟨hcol, hcol'⟩⟩
  · rintro ⟨hmem, heq⟩
    obtain ⟨hk, hk', -⟩ := hpairs.mp hmem
    obtain ⟨hcol, hcol'⟩ := (hiff hmem).mp heq
    exact ⟨k, k', ⟨hk, hcol⟩, ⟨hk', hcol'⟩, rfl, rfl⟩

end Filters

/-! ## The loops over the stored slots -/

variable [Scalar T] {active : Vector Bool m} {sigma : Vector T m} {rho : T} {values : Array T}

/-- The slots of the cost, paired with its values. -/
theorem zip_slotOfCost (h : Frame Q A S) : S.slotOfCost.toList.zip Q.values.toList =
    (allSlots Q n).map fun e => (slotAt S.matrix (Q.rowAt e.2, e.1), Q.valueAt e.2) := by
  have hvalues : Q.values.toList = (allSlots Q n).map fun e => Q.valueAt e.2 := by
    have hsnd : ((allSlots Q n).map Prod.snd).map Q.valueAt = (allSlots Q n).map fun e => Q.valueAt e.2 :=
      List.map_map
    rw [← hsnd, map_snd_allSlots h.toNewtonData]
    refine List.ext_getElem (by simp) fun k hk _ => ?_
    rw [Array.length_toList] at hk
    simp [valueAt, Array.getD_eq_getD_getElem?, hk]
  rw [toList_slotOfCost h, hvalues, List.zip_map']

theorem addRow_eq (h : Frame Q A S) (values : Array T) (r : Fin m) : S.addRow A sigma values r =
    (orderedPairs (A.rowIndex.row r)).foldl
      (fun v e => v.modify (slotAt S.matrix (A.columnOfSlot.getD e.1 0, A.columnOfSlot.getD e.2 0))
        (· + sigma.get r * A.valueAt e.1 * A.valueAt e.2)) values := by
  have hzip := @List.zip_map' _ _ _ (fun e : Nat × Nat => slotAt S.matrix (A.columnOfSlot.getD e.1 0, A.columnOfSlot.getD e.2 0))
    id (orderedPairs (A.rowIndex.row r))
  rw [List.map_id] at hzip
  rw [addRow, h.slotsOfPairs_eq r r.isLt, h.rows_eq, hzip, List.foldl_map]
  rfl

/-- The cost with its proximal weight, in the places of the system. -/
def shifted (S : ReducedSystem T n m) (Q : SparseMatrix T) (rho : T) : Array T :=
  (List.range n).foldl (fun v i => v.modify (slotAt S.matrix (i, i)) (· + rho))
    ((allSlots Q n).foldl (fun v e => v.modify (slotAt S.matrix (Q.rowAt e.2, e.1)) (· + Q.valueAt e.2))
      (S.matrix.values.map fun _ => (0 : T)))

theorem assemble_eq (h : Frame Q A S) : S.assemble Q A active sigma rho =
    ((List.finRange m).filter fun r => active.get r).foldl (S.addRow A sigma) (S.shifted Q rho) := by
  simp only [assemble, shifted]
  rw [zip_slotOfCost h, List.foldl_map, h.diagonal_eq, ← Array.foldl_toList, Array.toList_map, Array.toList_range,
    List.foldl_map]

theorem size_shifted (S : ReducedSystem T n m) (Q : SparseMatrix T) (rho : T) :
    (S.shifted Q rho).size = S.matrix.values.size := by
  rw [shifted, size_foldl_modify _ (fun i => slotAt S.matrix (i, i)) fun _ x => x + rho,
    size_foldl_modify _ _ fun (e : Nat × Nat) x => x + Q.valueAt e.2, Array.size_map]

/-! ## The sum at a place -/

/-- The product of the entries of row `r` in columns `i` and `j` with its penalty, if both of them are stored. -/
def rowPart (A : SparseMatrix T) (sigma : Vector T m) (i j : Nat) (r : Fin m) : List T :=
  (Option.map₂ (fun a b => sigma.get r * a * b) (A.get r i) (A.get r j)).toList

/-- What belongs to row `i` of column `j`, in the order in which it is added up. -/
def contributions (Q A : SparseMatrix T) (active : Vector Bool m) (sigma : Vector T m) (rho : T) (i j : Nat) : List T :=
  (Q.get i j).toList ++ (if i = j then some rho else none).toList ++
    ((List.finRange m).filter fun r => active.get r).flatMap (rowPart A sigma i j)

section Sums

variable (h : Frame Q A S) (hj : j < n) (hp : p ∈ S.matrix.slots j)

include h hj hp

theorem getD_addRow (hs : values.size = S.matrix.values.size) (r : Fin m) :
    (S.addRow A sigma values r).getD p 0 =
      (rowPart A sigma (S.matrix.rowAt p) j r).foldl (· + ·) (values.getD p 0) := by
  have hlt := h.matrix.lt_size (h.matrix_cols.symm ▸ hj) hp
  rw [addRow_eq h, getD_foldl_modify _ _ (fun (e : Nat × Nat) x => x + sigma.get r * A.valueAt e.1 * A.valueAt e.2)
      _ (hs ▸ hlt), filter_pairs h hj hp r.isLt, rowPart, SparseMatrix.get, SparseMatrix.get]
  cases A.findSlot r (S.matrix.rowAt p) <;> cases A.findSlot r j <;> rfl

theorem getD_addRows (l : List (Fin m)) (hs : values.size = S.matrix.values.size) :
    (l.foldl (S.addRow A sigma) values).getD p 0 =
      (l.flatMap (rowPart A sigma (S.matrix.rowAt p) j)).foldl (· + ·) (values.getD p 0) := by
  induction l generalizing values with
  | nil => rfl
  | cons r l ih =>
      rw [List.foldl_cons, ih ((size_addRow ..).trans hs), getD_addRow h hj hp hs, List.flatMap_cons, List.foldl_append]

theorem getD_shifted : (S.shifted Q rho).getD p 0 =
    ((Q.get (S.matrix.rowAt p) j).toList ++ (if S.matrix.rowAt p = j then some rho else none).toList).foldl (· + ·) 0 := by
  have hlt := h.matrix.lt_size (h.matrix_cols.symm ▸ hj) hp
  have hzero : (S.matrix.values.map fun _ => (0 : T)).getD p 0 = 0 := by
    simp [Array.getD_eq_getD_getElem?, hlt]
  rw [shifted, getD_foldl_modify _ (fun i => slotAt S.matrix (i, i)) (fun _ x => x + rho), filter_diagonal h hj hp,
    getD_foldl_modify _ (fun e : Nat × Nat => slotAt S.matrix (Q.rowAt e.2, e.1)) (fun e x => x + Q.valueAt e.2),
    filter_cost h hj hp, hzero, List.foldl_append, SparseMatrix.get]
  · cases Q.findSlot (S.matrix.rowAt p) j <;> split_ifs <;> rfl
  · rwa [Array.size_map]
  · rwa [size_foldl_modify _ _ fun (e : Nat × Nat) x => x + Q.valueAt e.2, Array.size_map]

/-- A slot receives what belongs to its place. -/
theorem getD_assemble : (S.assemble Q A active sigma rho).getD p 0 =
    (contributions Q A active sigma rho (S.matrix.rowAt p) j).foldl (· + ·) 0 := by
  rw [assemble_eq h, getD_addRows h hj hp _ (size_shifted S Q rho), getD_shifted h hj hp, ← List.foldl_append]
  rfl

end Sums

/-- Where the pattern has no slot, nothing is to be added. -/
theorem contributions_eq_nil (h : Frame Q A S) (hij : i ≤ j) (hj : j < n)
    (hnone : ∀ p ∈ S.matrix.slots j, S.matrix.rowAt p ≠ i) : contributions Q A active sigma rho i j = [] := by
  have hplace : ¬HasPlace S.matrix i j := fun hplace => hnone _ hplace.mem hplace.row
  have hne : i ≠ j := by
    rintro rfl
    exact hplace (h.diagonal_place i hj)
  have hcost : Q.get i j = none := by
    refine Option.map_eq_none_iff.mpr (Option.eq_none_iff_forall_ne_some.mpr fun k hk => hplace ?_)
    obtain ⟨hmem, rfl⟩ := (h.cost.findSlot_eq_some (h.cost_cols.symm ▸ hj)).mp hk
    exact h.cost_place j hj k hmem
  have hrow (r : Fin m) : rowPart A sigma i j r = [] := by
    rw [rowPart, SparseMatrix.get, SparseMatrix.get]
    cases hk : A.findSlot r i with
    | none => rfl
    | some k =>
        cases hk' : A.findSlot r j with
        | none => rfl
        | some k' =>
            obtain ⟨hmem, rfl⟩ := (h.findSlot_eq_some r.isLt (hij.trans_lt hj)).mp hk
            obtain ⟨hmem', rfl⟩ := (h.findSlot_eq_some r.isLt hj).mp hk'
            exact absurd (h.row_place r.isLt hmem hmem' hij) hplace
  rw [contributions, hcost, if_neg hne, List.flatMap_eq_nil_iff.mpr fun r _ => hrow r]
  rfl

/-! ## Rows as sparse vectors -/

theorem mem_rowEntries (h : Frame Q A S) {r : Nat} {e : Nat × T} :
    e ∈ S.rowEntries A r ↔ ∃ k ∈ A.rowIndex.row r, (A.columnOfSlot.getD k 0, A.valueAt k) = e := by
  rw [rowEntries, h.rows_eq, h.columnOf_eq, List.mem_map]

theorem rowEntries_lt (h : Frame Q A S) {r : Nat} (hr : r < m) {e : Nat × T} (he : e ∈ S.rowEntries A r) : e.1 < n := by
  obtain ⟨k, hk, rfl⟩ := (mem_rowEntries h).mp he
  exact (h.exists_column hr hk).1

/-- Each two entries of a row are linked by a place. -/
theorem rowEntries_linked (h : Frame Q A S) {r : Nat} (hr : r < m) {e e' : Nat × T} (he : e ∈ S.rowEntries A r)
    (he' : e' ∈ S.rowEntries A r) (hlt : e.1 < e'.1) : ∃ p ∈ S.matrix.slots e'.1, S.matrix.rowAt p = e.1 := by
  obtain ⟨k, hk, rfl⟩ := (mem_rowEntries h).mp he
  obtain ⟨k', hk', rfl⟩ := (mem_rowEntries h).mp he'
  have hplace := h.row_place hr hk hk' hlt.le
  exact ⟨_, hplace.mem, hplace.row⟩

/-! ## The system before its first update -/

/-- Before the first update the diagonal holds ones, and no other place has been written. -/
theorem getD_initialValues (h : NewtonData Q A n m) (F : Factorization T) (hj : j < n)
    (hp : p ∈ (start Q A n m F).matrix.slots j) :
    (initialValues Q A).getD p 0 = if (start Q A n m F).matrix.rowAt p = j then 1
      else (pattern Q A A.rowIndex A.columnOfSlot).valueAt p := by
  have hframe := frame_start h F
  have hlt : p < (pattern Q A A.rowIndex A.columnOfSlot).values.size := by
    rw [← size_initialValues]
    exact hframe.matrix.lt_size (by rw [hframe.matrix_cols]; exact hj) hp
  rw [initialValues, h.constraint_cols, ← Array.foldl_toList, Array.toList_map, Array.toList_range, List.foldl_map]
  by_cases hrow : (start Q A n m F).matrix.rowAt p = j
  · rw [if_pos hrow]
    refine getD_foldl_set_of_mem _ _ _ _ _ hlt ⟨j, List.mem_range.mpr hj, ?_⟩ fun _ _ _ => rfl
    exact (slotAt_diagonal_iff hframe hj hp hj).mpr ⟨hrow.symm, rfl⟩
  · rw [if_neg hrow]
    refine getD_foldl_set_of_forall_ne _ _ _ _ _ fun i hi heq => hrow ?_
    obtain ⟨hi', rfl⟩ := (slotAt_diagonal_iff hframe hj hp (List.mem_range.mp hi)).mp heq
    exact hi'.symm

end AugLag.ReducedSystem
