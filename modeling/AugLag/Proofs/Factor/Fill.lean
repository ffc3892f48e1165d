import AugLag.Proofs.Factor.Calls

/-!
# The pattern of the factor

The analysis counts the entries of the factor by climbing the tree, and the factorization finds the places of its entries
by another climb. They agree on every pattern: the entries are those of the elimination closure of the permuted matrix,
they fill exactly the room that was counted for them, and the parent of a column is its first row.
-/

namespace AugLag

open EliminationTree SparseMatrix PermutedUpper

variable {T : Type} {A : SparseMatrix T} {inverse : Array Nat}

/-! ## The elimination closure -/

/-- The least set of places that holds those stored below the diagonal of the permuted matrix, and that is closed under
elimination: rows `j < k` of a column `i` bring about an entry in row `k` of column `j`. -/
inductive Filled (A : SparseMatrix T) (inverse : Array Nat) : Nat → Nat → Prop
  | entry {j p i k : Nat} : j < A.cols → p ∈ A.slots j → target inverse (A.rowAt p) j = (i, k) → i < k →
      Filled A inverse k i
  | fill {i j k : Nat} : Filled A inverse j i → Filled A inverse k i → i < j → j < k → Filled A inverse k j

theorem Filled.lt {k i : Nat} (h : Filled A inverse k i) : i < k := by
  cases h with
  | entry _ _ _ hlt => exact hlt
  | fill _ _ _ hlt => exact hlt

theorem Filled.lt_cols {S : PermutedUpper T} (hS : Sorted A inverse S) {k i : Nat} (h : Filled A inverse k i) : k < A.cols := by
  induction h with
  | entry hj hp htarget _ =>
      have hlt := (hS.target_bounds hj hp).2
      rw [htarget] at hlt
      exact hlt
  | fill _ _ _ _ _ ih => exact ih

/-- The places of the closure are those that the climbs reach. -/
theorem filled_iff_reaches {S : PermutedUpper T} {tree : EliminationTree} (hS : Sorted A inverse S)
    (htree : Accounts S.matrix tree S.matrix.cols) {k i : Nat} : Filled A inverse k i ↔ Reaches S.matrix tree k i := by
  refine ⟨fun h => ?_, fun h => ?_⟩
  · induction h with
    | @entry j p i k hj hp htarget hlt =>
        have hmem := hS.mem_slots j hj p hp
        have hrow := hS.row_eq j hj p hp
        rw [htarget] at hmem hrow
        have hentry := @Reaches.entry _ S.matrix tree k _ hmem (hrow.trans_lt hlt)
        rwa [hrow] at hentry
    | fill hji hki _ hjk ih₁ ih₂ =>
        have hj := hS.cols_eq.symm ▸ hji.lt_cols hS
        exact htree.reaches_of_common hj ih₁ ih₂ hjk
  · induction k using Nat.strong_induction_on generalizing i with
    | _ k ihk =>
      induction h with
      | entry hp hlt =>
          have hk : k < S.matrix.cols := by
            by_contra hle
            rw [hS.layout.slots_of_le (not_lt.mp hle)] at hp
            cases hp
          obtain ⟨j, hj, q, hq, -, htarget⟩ := hS.exists_source (hS.cols_eq ▸ hk) hp
          exact .entry hj hq htarget hlt
      | @parent c above _ hparent hlt ih =>
          -- The parent is a row of the column, and it comes before row `k`.
          have hrow := htree.parent_reaches c above hparent
          exact .fill (ihk above hlt hrow) ih hrow.lt hlt

namespace SparseMatrix

/-- What lies behind the last column does not matter for the closure. -/
theorem Readable.filled_trim (h : Readable A) {k i : Nat} : Filled A.trim inverse k i ↔ Filled A inverse k i := by
  refine ⟨fun hfilled => ?_, fun hfilled => ?_⟩
  · induction hfilled with
    | @entry j p _ _ hj hp htarget hlt =>
        have hj' : j < A.cols := hj
        rw [h.slots_trim hj'] at hp
        rw [h.rowAt_trim (h.lt_nnz hj' hp)] at htarget
        exact .entry hj' hp htarget hlt
    | fill _ _ hij hjk ih₁ ih₂ => exact .fill ih₁ ih₂ hij hjk
  · induction hfilled with
    | @entry j p _ _ hj hp htarget hlt =>
        rw [← h.rowAt_trim (h.lt_nnz hj hp)] at htarget
        rw [← h.slots_trim hj] at hp
        exact @Filled.entry _ A.trim inverse j p _ _ hj hp htarget hlt
    | fill _ _ hij hjk ih₁ ih₂ => exact .fill ih₁ ih₂ hij hjk

end SparseMatrix

/-! ## Full columns -/

/-- The parent of a column is the first of its rows. -/
theorem EliminationTree.Accounts.head?_rowsOf {tree : EliminationTree} {N : Nat} (h : Accounts A tree N) (c : Nat) :
    (rowsOf A tree c N).head? = tree.parentOf c := by
  cases hrows : rowsOf A tree c N with
  | nil =>
      cases hparent : tree.parentOf c with
      | none => rfl
      | some above =>
          have hmem : above ∈ rowsOf A tree c N :=
            mem_rowsOf.mpr ⟨(h.parent_gt c above hparent).2, h.parent_reaches c above hparent⟩
          rw [hrows] at hmem
          cases hmem
  | cons r rows =>
      have hsorted : (rowsOf A tree c N).Pairwise (· < ·) := List.pairwise_lt_range.filter _
      rw [hrows] at hsorted
      obtain ⟨hr, hreach⟩ := mem_rowsOf.mp (hrows ▸ List.mem_cons_self : r ∈ rowsOf A tree c N)
      obtain ⟨above, hparent, hle⟩ := h.parent_le r hr c hreach
      have hmem : above ∈ rowsOf A tree c N :=
        mem_rowsOf.mpr ⟨(h.parent_gt c above hparent).2, h.parent_reaches c above hparent⟩
      rw [hrows] at hmem
      rcases List.mem_cons.mp hmem with rfl | hmem
      · exact hparent.symm
      · have := (List.pairwise_cons.mp hsorted).1 above hmem
        omega

namespace Factorization

variable [Scalar T] {F : Factorization T} {b : Buffers T} {order : Option (Array Nat)} {denseScale : Float}
variable {perm : Array Nat} {values : Array T}

/-- A factorization that succeeds fills the columns. -/
theorem Shape.fills_refactor (h : Shape F) (hok : F.refactor.2 = .ok ()) :
    (computeRows F.stored.matrix F.tree (List.range F.dim) F.beginning).1.Fills F.stored.matrix F.tree
      fun _ => F.stored.matrix.cols := by
  have hdim : F.dim = F.stored.matrix.cols := h.size_diag
  have hrows := (h.twins_beginning h rfl rfl).computeRows h.upper h.accounts F.dim (by omega)
  rw [← List.range_eq_range'] at hrows
  rcases hrows with ⟨-, -, htwins⟩ | ⟨herror, -⟩
  · exact htwins.fills
  · rw [refactor_eq] at hok
    exact absurd (herror.symm.trans hok) nofun

theorem Shape.full_refactor (h : Shape F) (hok : F.refactor.2 = .ok ()) :
    Full F.stored.matrix F.tree F.refactor.1.lower := by
  have hfills := h.fills_refactor hok
  rw [refactor_eq]
  refine { hfills.room with rows_eq := fun c hc => ?_ }
  rw [← hfills.rows_eq c hc, hfills.filled_eq_column hc, column, List.map_map]
  rfl

/-- What a factorization wrote into the factor is what the analysis of the pattern foresaw. -/
structure Agrees (A : SparseMatrix T) (F : Factorization T) (written : List (Nat × Nat)) : Prop where
  /-- The tree and the counts are those of the stored pattern. -/
  tree_eq : F.tree = EliminationTree.ofMatrix F.stored.matrix
  /-- The columns are disjoint stretches of the arrays. -/
  layout : Layout F.lower
  /-- Into every column its own slots are written, each once, and nothing else is written. -/
  written_eq : ∀ c < F.dim, (written.filter fun e => e.1 = c).map Prod.snd = F.lower.slots c
  inside : ∀ e ∈ written, e.1 < F.dim ∧ e.2 < F.lower.values.size
  count_eq : ∀ c < F.dim, (F.lower.slots c).length = F.tree.count.getD c 0
  rows_ascend : ∀ c < F.dim, ((F.lower.slots c).map F.lower.rowAt).Pairwise (· < ·)
  below : ∀ c < F.dim, ∀ p ∈ F.lower.slots c, c < F.lower.rowAt p ∧ F.lower.rowAt p < F.dim
  mem_iff : ∀ c < F.dim, ∀ i, i ∈ (F.lower.slots c).map F.lower.rowAt ↔ Filled A F.inverse i c
  parent_eq : ∀ c < F.dim, F.tree.parentOf c = ((F.lower.slots c).map F.lower.rowAt).head?

/-- The factorizations of the values of a matrix: one with which factors are made, and those of factors that were made.
For the first one it does not matter whether a column is empty. -/
inductive Factoring [Elimination.Rule] (A : SparseMatrix T) (order : Option (Array Nat)) (denseScale : Float) :
    Factorization T → Prop
  | first {perm inverse : Array Nat} : Readable A → Permutes perm inverse A.cols →
      Factoring A order denseScale (analyze A perm inverse)
  | again {F : Factorization T} {values : Array T} : Reached A order denseScale F values →
      Factoring A order denseScale F

theorem Fitted.agrees_refactorIn (h : Fitted A F) (htree : F.tree = EliminationTree.ofMatrix F.stored.matrix) (hb : b.Fit F)
    (hok : (F.refactorIn b).2 = .ok ()) : Agrees A (F.refactorIn b).1 (F.computeIn b).1.written := by
  have hrefactor := h.shape.refactorIn_eq hb
  obtain ⟨hprogress, -, -, hlogged⟩ := h.shape.computeIn_spec hb
  have hlower : (F.computeIn b).1.lower = F.refactor.1.lower := congrArg (fun out => out.1.lower) hrefactor
  rw [hrefactor] at hok ⊢
  have hfull := h.shape.full_refactor hok
  have hfills := h.shape.fills_refactor hok
  rw [← hprogress] at hfills
  have hsame := h.refactor.2
  have hcols : F.refactor.1.dim = F.stored.matrix.cols := hsame.dim.trans h.shape.size_diag
  have hinside : ∀ e ∈ (F.computeIn b).1.written, e.1 < F.stored.matrix.cols ∧ e.2 ∈ F.refactor.1.lower.slots e.1 := by
    rw [← hlower]
    exact hlogged.inside
  refine
    { tree_eq := by rw [hsame.tree, hsame.stored, htree]
      layout := hfull.toLayout
      written_eq := fun c hc => ?_, inside := fun e he => ?_, count_eq := fun c hc => ?_, rows_ascend := fun c hc => ?_,
      below := fun c hc p hp => ?_, mem_iff := fun c hc i => ?_, parent_eq := fun c hc => ?_ }
  all_goals rw [hcols] at *
  · rw [hlogged.written_eq c hc, hfills.next_eq c hc, ← hfills.room.stop_eq c hc, hlower]
    rfl
  · obtain ⟨hc, hslot⟩ := hinside e he
    exact ⟨hc, hfull.lt_size (by rw [hfull.cols_eq]; exact hc) hslot⟩
  · rw [hsame.tree, h.shape.accounts.count_eq c hc, ← hfull.rows_eq c hc, List.length_map]
  · rw [hfull.rows_eq c hc]
    exact List.pairwise_lt_range.filter _
  · obtain ⟨hrow, hreach⟩ := hfull.row_reaches hc hp
    exact ⟨hreach.lt, hrow⟩
  · rw [hfull.rows_eq c hc, mem_rowsOf, hsame.inverse, filled_iff_reaches h.sorted h.shape.accounts, and_iff_right_iff_imp,
      ← filled_iff_reaches h.sorted h.shape.accounts, h.sorted.cols_eq]
    exact fun hfilled => hfilled.lt_cols h.sorted
  · rw [hfull.rows_eq c hc, h.shape.accounts.head?_rowsOf, hsame.tree]

omit [Scalar T] in
theorem Agrees.of_trim (hA : Readable A) {written : List (Nat × Nat)} (h : Agrees A.trim F written) : Agrees A F written :=
  { h with mem_iff := fun c hc i => (h.mem_iff c hc i).trans hA.filled_trim }

/-- The tree is that of the pattern, whatever values were given. -/
theorem Follows.tree_eq {inverse : Array Nat} (h : Follows A perm inverse F values) :
    F.tree = EliminationTree.ofMatrix F.stored.matrix := by
  obtain ⟨stored, hstored⟩ := h.pattern.stored
  rw [h.pattern.tree, hstored]
  rfl

/-- On every upper triangular pattern, with the rows of a column in any order, a factorization that meets no bad pivot
writes what the analysis foresaw. -/
theorem Factoring.pattern_as_foreseen [Elimination.Rule] (horder : order = none →
      (Elimination.Rule.order (Elimination.graph A) denseScale).Perm (List.range A.cols))
    (h : Factoring A order denseScale F) (hb : b.Fit F) (hok : (F.refactorIn b).2 = .ok ()) :
    Agrees A (F.refactorIn b).1 (F.computeIn b).1.written := by
  cases h with
  | first hA hpermutes =>
      rw [analyze_trim hA] at hb hok ⊢
      refine .of_trim hA (Fitted.agrees_refactorIn ?_ rfl hb hok)
      exact fitted_analyze hA.layout_trim hA.upper_trim hpermutes.inverse_lt
  | again hF =>
      obtain ⟨inverse, hfollows⟩ := hF.follows horder
      exact .of_trim hfollows.toReadable (hfollows.fitted.agrees_refactorIn hfollows.tree_eq hb hok)

open Sample in
/-- The columns of the matrix list their rows in any order, and the buffers are full of rubbish. -/
theorem Factoring.pattern_as_foreseen_shuffled :
    Agrees shuffled ((analyze shuffled backwards backwards).refactorIn (littered (analyze shuffled backwards backwards))).1
      ((analyze shuffled backwards backwards).computeIn (littered (analyze shuffled backwards backwards))).1.written := by
  have hA : Readable shuffled := ⟨by decide, by decide, by decide, by decide⟩
  have hpermutes : Permutes backwards backwards shuffled.cols := permutes_of_invertPermutation (by decide +kernel)
  have hok : ((analyze shuffled backwards backwards).refactorIn
      (littered (analyze shuffled backwards backwards))).2 = .ok () := eq_ok_of_toBool (by decide +kernel)
  have hfactoring : Factoring shuffled (some backwards) 1 (analyze shuffled backwards backwards) := .first hA hpermutes
  exact Factoring.pattern_as_foreseen (by simp) hfactoring (fit_littered _) hok

end Factorization
end AugLag
