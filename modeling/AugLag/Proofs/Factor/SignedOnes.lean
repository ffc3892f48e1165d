import AugLag.Proofs.Factor.Analysis
import AugLag.Proofs.Machine.Zeros

/-!
# Factors of signed ones

A matrix may hold one or minus one on its diagonal and zeros elsewhere. Whatever its pattern is, its pivots are the
entries of its diagonal, so that no factorization of it fails. This needs no more of the arithmetic than that it keeps
zeros and ones.
-/

namespace AugLag.Factorization

open SparseMatrix PermutedUpper EliminationTree

variable {T : Type} [Scalar T] {A : SparseMatrix T} {F : Factorization T} {k : Nat}

/-- Column `k` holds a signed one on the diagonal, and zeros elsewhere. -/
structure UnitColumn (A : SparseMatrix T) (k : Nat) : Prop where
  diagonal : ∃ p ∈ A.slots k, A.rowAt p = k
  one : ∀ p ∈ A.slots k, A.rowAt p = k → SignedOne (A.valueAt p)
  zero : ∀ p ∈ A.slots k, A.rowAt p ≠ k → Vanishes (A.valueAt p)

/-- So far the factor holds zeros, and the pivots that are known are signed ones. -/
structure Progress.Trivial (s : Progress T) : Prop where
  lower : ∀ p, Vanishes (s.lower.valueAt p)
  diagInv : ∀ c, Vanishes (s.diagInv.getD c 0) ∨ ∃ u, SignedOne u ∧ s.diagInv.getD c 0 = Scalar.recip u

/-- A row with nothing to eliminate. -/
structure Row.Trivial (r : Row T) : Prop where
  y : ∀ i, Vanishes (r.y.getD i 0)
  pivot : SignedOne r.pivot

variable [PlainZeros T]

theorem vanishes_replicate (n i : Nat) : Vanishes ((Array.replicate n (0 : T)).getD i 0) := by
  rw [getD_replicate, ite_self]
  exact PlainZeros.zero

/-! ## Rows -/

/-- A column that is spread out leaves its diagonal entry for the pivot, wherever it stands. -/
theorem trivial_spread (h : UnitColumn A k) : (spread A k).Trivial := by
  have hfold : ∀ (l : List Nat) (r : Row T), (∀ p ∈ l, p ∈ A.slots k) → (∀ i, Vanishes (r.y.getD i 0)) →
      (SignedOne r.pivot ∨ ∃ p ∈ l, A.rowAt p = k) →
      ((l.map fun p => (A.rowAt p, A.valueAt p)).foldl
        (fun r e => if e.1 = k then { r with pivot := e.2 } else { r with y := r.y.setIfInBounds e.1 e.2 }) r).Trivial := by
    intro l
    induction l with
    | nil =>
        intro r _ hy hpivot
        exact ⟨hy, hpivot.resolve_right nofun⟩
    | cons p l ih =>
        intro r hl hy hpivot
        have hp := hl p List.mem_cons_self
        have hrest := fun q hq => hl q (List.mem_cons_of_mem _ hq)
        rw [List.map_cons, List.foldl_cons]
        by_cases hrow : A.rowAt p = k
        · rw [if_pos hrow]
          exact ih _ hrest hy (.inl (h.one p hp hrow))
        · rw [if_neg hrow]
          refine ih _ hrest (fun i => ?_) ?_
          · rw [getD_setIfInBounds]
            split
            · exact h.zero p hp hrow
            · exact hy i
          · refine hpivot.imp_right fun ⟨q, hq, hqrow⟩ => ⟨q, ?_, hqrow⟩
            exact (List.mem_cons.mp hq).resolve_left fun heq => hrow (heq ▸ hqrow)
  exact hfold (A.slots k) _ (fun _ hp => hp) (vanishes_replicate _) (.inr h.diagonal)

theorem Progress.Trivial.eliminateColumn {s : Progress T} {r : Row T} (hs : s.Trivial) (hr : r.Trivial) (k c : Nat) :
    (eliminateColumn k (s, r) c).1.Trivial ∧ (eliminateColumn k (s, r) c).2.Trivial := by
  have hentry : Vanishes (r.y.getD c 0 * s.diagInv.getD c 0) := by
    rcases hs.diagInv c with hzero | ⟨u, hu, heq⟩
    · exact PlainZeros.mul (hr.y c) hzero
    · rw [heq]
      exact PlainZeros.mul_recip (hr.y c) hu
  have hfilled : ∀ e ∈ s.filled c, Vanishes e.2 := by
    intro e he
    obtain ⟨p, -, rfl⟩ := List.mem_map.mp he
    exact hs.lower p
  rw [eliminateColumn_eq]
  refine ⟨⟨fun p => ?_, hs.diagInv⟩, ⟨fun i => ?_, ?_⟩⟩
  · show Vanishes ((s.lower.values.setIfInBounds (s.next.getD c 0) _).getD p 0)
    rw [getD_setIfInBounds]
    split
    · exact hentry
    · exact hs.lower p
  · refine List.foldlRecOn (motive := fun y : Array T => ∀ i, Vanishes (y.getD i 0)) (s.filled c) _ hr.y
      (fun y hy e he i => ?_) i
    rw [getD_modify]
    split
    · exact PlainZeros.sub (hy i) (PlainZeros.mul (hfilled e he) (hr.y c))
    · exact hy i
  · show SignedOne (r.pivot - r.y.getD c 0 * (r.y.getD c 0 * s.diagInv.getD c 0))
    rw [PlainZeros.sub_of_signedOne hr.pivot (PlainZeros.mul (hr.y c) hentry)]
    exact hr.pivot

/-- The pivot of a row is the entry of the diagonal, whichever columns the row reaches. -/
theorem Progress.Trivial.computeRow {s : Progress T} (hs : s.Trivial) {tree : EliminationTree} (h : UnitColumn A k) :
    (computeRow A tree s k).1.Trivial ∧ SignedOne (computeRow A tree s k).2 := by
  obtain ⟨hs', hr'⟩ := List.foldlRecOn (motive := fun acc : Progress T × Row T => acc.1.Trivial ∧ acc.2.Trivial)
    (tree.reach k (rowsAbove A k)) (Factorization.eliminateColumn k) (b := (s, spread A k)) ⟨hs, trivial_spread h⟩
    fun acc hacc c _ => hacc.1.eliminateColumn hacc.2 k c
  rw [computeRow_eq]
  exact ⟨⟨hs'.lower, hs'.diagInv⟩, hr'.pivot⟩

/-! ## Factorizations -/

/-- No pivot is refused. -/
theorem Progress.Trivial.computeRows {s : Progress T} (hs : s.Trivial) {tree : EliminationTree} {rows : List Nat}
    (h : ∀ k ∈ rows, UnitColumn A k) : (computeRows A tree rows s).2 = .ok () := by
  induction rows generalizing s with
  | nil => rfl
  | cons k rows ih =>
      obtain ⟨hs', hpivot⟩ := @computeRow _ _ _ _ _ _ hs tree (h k List.mem_cons_self)
      rw [Factorization.computeRows]
      generalize Factorization.computeRow A tree s k = out at hs' hpivot ⊢
      obtain ⟨t, pivot⟩ := out
      have hrefused : ¬(pivot == 0 || !Scalar.isFinite pivot) = true := by
        simp [PlainZeros.beq_zero hpivot, PlainZeros.isFinite hpivot]
      simp only [if_neg hrefused]
      refine ih ⟨hs'.lower, fun c => ?_⟩ fun k' hk' => h k' (List.mem_cons_of_mem _ hk')
      rw [getD_setIfInBounds]
      split
      · exact .inr ⟨pivot, hpivot, rfl⟩
      · exact hs'.diagInv c

theorem trivial_analyze (A : SparseMatrix T) (perm inverse : Array Nat) :
    (analyze A perm inverse).beginning.Trivial := by
  rw [analyze_eq]
  exact ⟨vanishes_replicate _, fun c => .inl (vanishes_replicate _ c)⟩

omit [PlainZeros T] in
/-- Entries of the diagonal stay on the diagonal, and no others come there. -/
theorem UnitColumn.permuted {perm inverse : Array Nat} {S : PermutedUpper T} (hS : Mirrors A perm inverse S)
    (hvalues : S.Holds A) (h : ∀ j < A.cols, UnitColumn A j) {c : Nat} (hc : c < A.cols) : UnitColumn S.matrix c := by
  have hsource : ∀ p ∈ S.matrix.slots c, ∃ j < A.cols, ∃ q ∈ A.slots j,
      S.matrix.valueAt p = A.valueAt q ∧ (S.matrix.rowAt p = c ↔ A.rowAt q = j) := by
    intro p hp
    obtain ⟨j, hj, q, hq, rfl, htarget⟩ := hS.exists_source hc hp
    refine ⟨j, hj, q, hq, hvalues q (hS.source.lt_size hj hq), ?_⟩
    obtain ⟨hrow, hcol⟩ := Prod.mk.inj htarget
    rw [← hrow, ← hcol]
    constructor
    · intro heq
      have hinverse : inverse.getD (A.rowAt q) 0 = inverse.getD j 0 := by omega
      have hrowlt : A.rowAt q < A.cols := lt_of_le_of_lt (hS.upper j hj q hq) hj
      rw [← hS.permutes.perm_inverse _ hrowlt, hinverse, hS.permutes.perm_inverse j hj]
    · intro heq
      rw [heq]
      omega
  refine { diagonal := ?_, one := fun p hp hrow => ?_, zero := fun p hp hrow => ?_ }
  · have hj := hS.permutes.perm_lt c hc
    obtain ⟨q, hq, hrow⟩ := (h _ hj).diagonal
    have hmem := hS.mem_slots _ hj q hq
    have hplace := hS.row_eq _ hj q hq
    rw [hrow, target, hS.permutes.inverse_perm c hc] at hmem hplace
    exact ⟨_, by simpa using hmem, by simpa using hplace⟩
  · obtain ⟨j, hj, q, hq, hvalue, hiff⟩ := hsource p hp
    rw [hvalue]
    exact (h j hj).one q hq (hiff.mp hrow)
  · obtain ⟨j, hj, q, hq, hvalue, hiff⟩ := hsource p hp
    rw [hvalue]
    exact (h j hj).zero q hq fun heq => hrow (hiff.mpr heq)

/-- Whatever its pattern is, a matrix of signed ones has factors, provided that the order of elimination lists all
columns. -/
theorem exists_ofMatrix_of_unitColumns [Elimination.Rule] (hA : WellFormed A) (hsquare : A.rows = A.cols)
    (hupper : A.Upper) (h : ∀ j < A.cols, UnitColumn A j) {denseScale : Float}
    (horder : (Elimination.Rule.order (Elimination.graph A) denseScale).Perm (List.range A.cols)) :
    ∃ F, ofMatrix A none denseScale = .ok F := by
  have hcolumns : ∀ j < A.cols, A.first j ≠ A.stop j := by
    intro j hj heq
    obtain ⟨p, hp, -⟩ := (h j hj).diagonal
    rw [mem_slots, heq] at hp
    omega
  obtain ⟨perm, inverse, hpermutes, hmatrix⟩ := exists_permutation hA hsquare hupper hcolumns horder
  have hfitted : Fitted A (analyze A perm inverse) := fitted_analyze hA.toLayout hupper hpermutes.inverse_lt
  have hmirrors : Mirrors A perm inverse (analyze A perm inverse).stored := ⟨hfitted.sorted, hpermutes⟩
  have hvalues := holds_ofMatrix hA.toLayout hupper hpermutes.inverse_lt
  have houtcome : (analyze A perm inverse).refactor.2 = .ok () := by
    rw [refactor_eq]
    refine (trivial_analyze A perm inverse).computeRows fun k hk => ?_
    rw [List.mem_range, hfitted.dim_eq] at hk
    exact UnitColumn.permuted hmirrors hvalues h hk
  exact ⟨_, hmatrix.trans (map_eq_ok.mpr ⟨(), houtcome, rfl⟩)⟩

end AugLag.Factorization
