import AugLag.Proofs.Checked.Sparse
import AugLag.Proofs.Factor.Scratch

/-!
# Checked analysis of a matrix

The permuted triangle, its elimination tree and the arrays of the factors are made without an access that misses, if
the matrix stores an upper triangle and the inverse of the order stays inside of it. Every climb in the tree ends before
its fuel does. Nothing here depends on how the scalars calculate.
-/

namespace AugLag.Checked

open SparseMatrix

variable {T : Type} {A : SparseMatrix T} {inverse : Array Nat}

/-! ## The permuted triangle -/

def target (inverse : Array Nat) (i j : Nat) : Option (Nat × Nat) := do
  let r ← inverse[i]?
  let c ← inverse[j]?
  return (min r c, max r c)

def targets (A : SparseMatrix T) (inverse : Array Nat) : Option (List (Nat × Nat × Nat)) := do
  let columns ← (List.range A.cols).mapM fun j => do
    (← slots A j).mapM fun k => do return (k, ← target inverse (← A.rowIdx[k]?) j)
  return columns.flatten

/-- Puts an entry into the next free slot of its column. -/
def place [Scalar T] (A : SparseMatrix T) (acc : Array Nat × PermutedUpper T) (e : Nat × Nat × Nat) :
    Option (Array Nat × PermutedUpper T) := do
  let p ← acc.1[e.2.2]?
  let rowIdx ← set acc.2.matrix.rowIdx p e.2.1
  let values ← set acc.2.matrix.values p (← A.values[e.1]?)
  let slotOf ← set acc.2.slotOf e.1 p
  return (← modify acc.1 e.2.2 (· + 1), { matrix := { acc.2.matrix with rowIdx, values }, slotOf })

/-- The upper triangle of `P A Pᵀ`, whose arrays are asserted to agree. -/
def permuted [Scalar T] (A : SparseMatrix T) (inverse : Array Nat) : Option (PermutedUpper T) := do
  let entries ← targets A inverse
  let counts ← entries.foldlM (fun counts e => modify counts (e.2.2 + 1) (· + 1)) (Array.replicate (A.cols + 1) 0)
  let ptr ← accumulate A.cols counts
  let nnz ← A.nnz?
  let empty : SparseMatrix T :=
    { rows := A.cols
      cols := A.cols
      colPtr := ptr
      rowIdx := Array.replicate nnz 0
      values := Array.replicate nnz 0 }
  let placed ← entries.foldlM (place A) (ptr, { matrix := empty, slotOf := Array.replicate nnz 0 })
  let matrix ← ofArrays? A.cols A.cols ptr placed.2.matrix.rowIdx placed.2.matrix.values
  return { placed.2 with matrix }

theorem target_eq {i j : Nat} (hi : i < inverse.size) (hj : j < inverse.size) :
    target inverse i j = some (PermutedUpper.target inverse i j) := by
  rw [target, get_eq hi 0, get_eq hj 0]
  rfl

theorem targets_eq (h : Layout A) (hupper : A.Upper) (hsize : inverse.size = A.cols) :
    targets A inverse = some (PermutedUpper.targets A inverse) := by
  have hcolumns : (List.range A.cols).mapM (fun j => do
      (← slots A j).mapM fun k => do return (k, ← target inverse (← A.rowIdx[k]?) j)) =
        some ((List.range A.cols).map fun j =>
          (A.slots j).map fun k => (k, PermutedUpper.target inverse (A.rowAt k) j)) := by
    refine mapM_eq fun j hj => ?_
    rw [List.mem_range] at hj
    rw [slots_eq h hj]
    refine mapM_eq fun k hk => ?_
    rw [rowAt_eq h (h.lt_size hj hk)]
    simp only [Option.bind_eq_bind, Option.bind_some]
    rw [target_eq (by rw [hsize]; exact (hupper j hj k hk).trans_lt hj) (by rw [hsize]; exact hj)]
    rfl
  rw [targets, hcolumns]
  exact congrArg some List.flatMap_def.symm

section Permuted

variable [Scalar T]

theorem place_eq {acc : Array Nat × PermutedUpper T} {e : Nat × Nat × Nat}
    (hk : e.1 < A.values.size) (hc : e.2.2 < acc.1.size) (hp : acc.1.getD e.2.2 0 < A.values.size)
    (hrowIdx : acc.2.matrix.rowIdx.size = A.values.size) (hvalues : acc.2.matrix.values.size = A.values.size)
    (hslotOf : acc.2.slotOf.size = A.values.size) : place A acc e = some (PermutedUpper.place A acc e) := by
  rw [place, get_eq hc 0, get_eq hk 0]
  simp only [Option.bind_eq_bind, Option.bind_some, set_eq (hp.trans_eq hrowIdx.symm), set_eq (hp.trans_eq hvalues.symm),
    set_eq (hk.trans_eq hslotOf.symm), modify_eq hc]
  rfl

/-- There is a free slot for each entry. -/
theorem foldlM_place_eq (h : Layout A) (hupper : A.Upper) (hbound : ∀ i < A.cols, inverse.getD i 0 < A.cols)
    {S : PermutedUpper T} (hrowIdx : S.matrix.rowIdx.size = A.values.size)
    (hvalues : S.matrix.values.size = A.values.size) (hslotOf : S.slotOf.size = A.values.size) :
    (PermutedUpper.targets A inverse).foldlM (place A)
        (starts PermutedUpper.keyOf (PermutedUpper.targets A inverse) A.cols, S) =
      some ((PermutedUpper.targets A inverse).foldl (PermutedUpper.place A)
        (starts PermutedUpper.keyOf (PermutedUpper.targets A inverse) A.cols, S)) := by
  have hkey := PermutedUpper.keyOf_lt hupper hbound
  refine (foldlM_eq_of_done (fun before acc =>
    acc.1 = before.foldl (fun next e => next.modify (PermutedUpper.keyOf e) (· + 1))
        (starts PermutedUpper.keyOf (PermutedUpper.targets A inverse) A.cols) ∧
      acc.2.matrix.rowIdx.size = A.values.size ∧ acc.2.matrix.values.size = A.values.size ∧
        acc.2.slotOf.size = A.values.size) ⟨rfl, hrowIdx, hvalues, hslotOf⟩ ?_).1
  intro before e after acc heq ⟨hnext, hrowIdx, hvalues, hslotOf⟩
  have he : e ∈ PermutedUpper.targets A inverse := by
    rw [heq]
    exact List.mem_append_right _ List.mem_cons_self
  have hk : e.1 < A.values.size := by
    rw [← List.mem_range, ← PermutedUpper.map_fst_targets h inverse]
    exact List.mem_map_of_mem he
  have hc : e.2.2 < acc.1.size := by
    rw [hnext, size_foldl_modify _ PermutedUpper.keyOf fun _ => (· + 1), size_starts]
    exact (hkey e he).trans (Nat.lt_succ_self _)
  have hp := next_lt_length hkey heq
  rw [← hnext, PermutedUpper.length_targets h] at hp
  refine ⟨place_eq hk hc hp hrowIdx hvalues hslotOf, ?_, Array.size_setIfInBounds.trans hrowIdx,
    Array.size_setIfInBounds.trans hvalues, Array.size_setIfInBounds.trans hslotOf⟩
  rw [List.foldl_append, ← hnext]
  rfl

theorem permuted_eq (h : Layout A) (hupper : A.Upper) (hbound : ∀ i < A.cols, inverse.getD i 0 < A.cols)
    (hsize : inverse.size = A.cols) : permuted A inverse = some (PermutedUpper.ofMatrix A inverse) := by
  have hkey := PermutedUpper.keyOf_lt hupper hbound
  have hcounts : (PermutedUpper.targets A inverse).foldlM
      (fun (counts : Array Nat) e => modify counts (e.2.2 + 1) (· + 1)) (Array.replicate (A.cols + 1) 0) =
        some ((PermutedUpper.targets A inverse).foldl (fun counts e => counts.modify (e.2.2 + 1) (· + 1))
          (Array.replicate (A.cols + 1) 0)) := by
    refine foldlM_modify_eq (fun e : Nat × Nat × Nat => e.2.2 + 1) (fun _ => (· + 1)) fun e he => ?_
    rw [Array.size_replicate]
    exact Nat.succ_lt_succ (hkey e he)
  have hptr : accumulate A.cols ((PermutedUpper.targets A inverse).foldl
      (fun counts e => counts.modify (e.2.2 + 1) (· + 1)) (Array.replicate (A.cols + 1) 0)) =
        some (starts PermutedUpper.keyOf (PermutedUpper.targets A inverse) A.cols) :=
    accumulate_eq ((size_foldl_modify _ (fun e : Nat × Nat × Nat => e.2.2 + 1) (fun _ => (· + 1)) _).trans
      Array.size_replicate)
  have hlayout := PermutedUpper.layout_ofMatrix h hupper hbound
  have hplaces := @foldlM_place_eq _ A inverse _ h hupper hbound
    { matrix := SparseMatrix.mk A.cols A.cols (starts PermutedUpper.keyOf (PermutedUpper.targets A inverse) A.cols)
        (Array.replicate A.nnz 0) (Array.replicate A.nnz 0), slotOf := Array.replicate A.nnz 0 }
    (by simp [h.nnz_eq]) (by simp [h.nnz_eq]) (by simp [h.nnz_eq])
  have hagree := And.intro hlayout.size_colPtr (And.intro hlayout.size_rowIdx hlayout.nnz_eq)
  rw [permuted, targets_eq h hupper hsize, nnz_eq h]
  simp only [Option.bind_eq_bind, Option.bind_some, hcounts, hptr, hplaces]
  simp only [PermutedUpper.ofMatrix_eq, SparseMatrix.nnz] at hagree ⊢
  simp only [PermutedUpper.foldl_place_eq, ofArrays?]
  exact congrArg (Option.bind · _) (if_pos hagree)

end Permuted

/-! ## The elimination tree -/

/-- Climbs from column `i` towards `k`. A climb that does not end is a failure. -/
def climb (k : Nat) : Nat → EliminationTree × Array Bool → Nat → Option (EliminationTree × Array Bool)
  | 0, _, _ => none
  | fuel + 1, (tree, marks), i => do
    if ← marks[i]? then return (tree, marks)
    else
      let above := (← tree.parent[i]?).getD k
      let parent ← set tree.parent i (some above)
      let count ← modify tree.count i (· + 1)
      climb k fuel ({ parent, count }, ← set marks i true) above

/-- Accounts for row `k` of the factor. -/
def account (A : SparseMatrix T) (tree : EliminationTree) (k : Nat) : Option EliminationTree := do
  let marks ← set (Array.replicate A.cols false) k true
  let acc ← (← rows A k).foldlM (climb k A.cols) (tree, marks)
  return acc.1

def tree (A : SparseMatrix T) : Option EliminationTree :=
  (List.range A.cols).foldlM (account A)
    { parent := Array.replicate A.cols none, count := Array.replicate A.cols 0 }

section Tree

open EliminationTree

variable {t₀ : EliminationTree} {k : Nat}

/-- Columns only grow along a climb, so the way to `k` is shorter than the fuel. -/
theorem climb_eq (h₀ : Accounts A t₀ k) (hk : k < A.cols) (fuel : Nat) {acc : EliminationTree × Array Bool} {i : Nat}
    (hi : i = k ∨ Reaches A t₀ k i) (hfuel : k - i < fuel) (h : Climbing A t₀ k acc) :
    climb k fuel acc i = some (EliminationTree.climb k fuel acc i) := by
  induction fuel generalizing acc i with
  | zero => omega
  | succ fuel ih =>
      obtain ⟨tree, marks⟩ := acc
      have hcols := lt_cols_of_reaches hk hi
      have him : i < marks.size := h.size_marks.symm ▸ hcols
      unfold climb EliminationTree.climb
      rw [get_eq him true]
      simp only [Option.bind_eq_bind, Option.bind_some]
      by_cases hmark : marks.getD i true = true
      · rw [if_pos hmark, if_pos hmark]
        rfl
      · rw [if_neg hmark, if_neg hmark]
        obtain ⟨hreach, hnew, hpar⟩ := h.of_unmarked hi him hmark
        obtain ⟨hnext, hgt⟩ := h₀.next_of_reaches hreach
        rw [← hpar] at hnext hgt
        have hparent : i < tree.parent.size := h.size_parent.symm ▸ hcols
        have hcount : i < tree.count.size := h.size_count.symm ▸ hcols
        rw [get_eq hparent none, set_eq him]
        simp only [Option.bind_some, set_eq hparent, modify_eq hcount]
        have hshort : k - (tree.parentOf i).getD k < fuel := by
          have := hreach.lt
          omega
        exact ih hnext hshort (h.visit hreach hcols hnew)

theorem account_eq (hlayout : Layout A) (hupper : A.Upper) (h₀ : Accounts A t₀ k) (hk : k < A.cols) :
    account A t₀ k = some (EliminationTree.addRow A t₀ k) := by
  obtain ⟨hstart, hnone⟩ := climbing_start h₀ hk
  have hclimbs := foldlM_eq (f := climb k A.cols) (g := EliminationTree.climb k A.cols)
    (fun acc => Climbing A t₀ k acc ∧ ClosedUpTo t₀ k acc.2 k) (l := (A.slots k).map A.rowAt)
    (b := (t₀, (Array.replicate A.cols false).setIfInBounds k true)) ⟨hstart, fun c q hc => absurd hc (hnone c)⟩ ?_
  · rw [account, set_eq (by rw [Array.size_replicate]; exact hk), rows_eq hlayout hk]
    simp only [Option.bind_eq_bind, Option.bind_some, hclimbs.1, EliminationTree.addRow, List.foldl_map]
    rfl
  · intro acc i hi ⟨hclimbing, hclosed⟩
    obtain ⟨p, hp, rfl⟩ := List.mem_map.mp hi
    have hreach : A.rowAt p = k ∨ Reaches A t₀ k (A.rowAt p) :=
      (hupper k hk p hp).eq_or_lt.imp_right (Reaches.entry hp)
    obtain ⟨hnext, hclosed', -⟩ := climb_spec h₀ hk A.cols hreach (by omega) hclimbing fun c q hc hq =>
      .inl ((hclosed c q hc hq).resolve_right fun heq => absurd (h₀.parent_gt c q hq).2 heq.not_lt)
    exact ⟨climb_eq h₀ hk A.cols hreach (by omega) hclimbing, hnext, hclosed'⟩

theorem tree_eq (hlayout : Layout A) (hupper : A.Upper) : tree A = some (EliminationTree.ofMatrix A) :=
  (foldlM_range_eq (fun k t => Accounts A t k) (accounts_empty A) fun _ hk _ h₀ =>
    ⟨account_eq hlayout hupper h₀ hk, h₀.addRow hupper hk⟩).1

end Tree

/-! ## The arrays of the factors -/

/-- The pattern of the factors. The arrays of the triangle are asserted to agree. -/
def analyze [Scalar T] (A : SparseMatrix T) (perm inverse : Array Nat) : Option (Factorization T) := do
  let stored ← permuted A inverse
  let tree ← tree stored.matrix
  let ptr := tree.count.foldl (fun ptr c => ptr.push (ptr.back?.getD 0 + c)) #[0]
  let nnz := ptr.back?.getD 0
  return {
    perm
    inverse
    lower :=
      { rows := A.cols
        cols := A.cols
        colPtr := ptr
        rowIdx := Array.replicate nnz 0
        values := Array.replicate nnz 0 }
    diag := Array.replicate A.cols 0
    diagInv := Array.replicate A.cols 0
    stored
    tree
    positive := 0 }

theorem analyze_eq [Scalar T] (h : Layout A) (hupper : A.Upper) {perm : Array Nat}
    (hbound : ∀ i < A.cols, inverse.getD i 0 < A.cols) (hsize : inverse.size = A.cols) :
    analyze A perm inverse = some (Factorization.analyze A perm inverse) := by
  have hsorted := PermutedUpper.sorted_ofMatrix h hupper hbound
  rw [analyze, permuted_eq h hupper hbound hsize]
  simp only [Option.bind_eq_bind, Option.bind_some, tree_eq hsorted.layout hsorted.upper_matrix]
  rfl

end AugLag.Checked
