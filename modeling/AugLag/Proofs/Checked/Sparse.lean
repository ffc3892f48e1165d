import AugLag.Proofs.Checked.Access
import AugLag.Proofs.Factor.Analysis
import AugLag.Proofs.Sparse.CountingSort
import AugLag.Proofs.Sparse.Search
import AugLag.Sparse.Algebra
import AugLag.Sparse.Norm
import AugLag.Sparse.Product

/-!
# Checked matrices

The format check answers for any arrays. Once it has passed, all columns can be read, and the products, norms and
scalings of the matrix and its index by rows find every element. Nothing here depends on how the scalars calculate.
-/

namespace AugLag.Checked

open SparseMatrix

variable {T : Type} {M : SparseMatrix T} {m n : Nat}

/-! ## Columns -/

/-- The slots of column `j`. -/
def slots (M : SparseMatrix T) (j : Nat) : Option (List Nat) := do
  let first ← M.colPtr[j]?
  let stop ← M.colPtr[j + 1]?
  return List.range' first (stop - first)

/-- The rows of column `j`, a stretch of the row indices. -/
def rows (M : SparseMatrix T) (j : Nat) : Option (List Nat) := do
  let first ← M.colPtr[j]?
  let stop ← M.colPtr[j + 1]?
  stretch M.rowIdx first stop

/-- The entries of column `j`, a stretch of the row indices and of the values. -/
def column (M : SparseMatrix T) (j : Nat) : Option (List (Nat × T)) := do
  let first ← M.colPtr[j]?
  let stop ← M.colPtr[j + 1]?
  let rows ← stretch M.rowIdx first stop
  let values ← stretch M.values first stop
  return rows.zip values

theorem first_eq (h : Layout M) {j : Nat} (hj : j ≤ M.cols) : M.colPtr[j]? = some (M.first j) :=
  get_eq (by rw [h.size_colPtr]; omega) 0

theorem stop_eq (h : Layout M) {j : Nat} (hj : j < M.cols) : M.colPtr[j + 1]? = some (M.stop j) := first_eq h hj

theorem nnz_eq (h : Layout M) : M.nnz? = some M.nnz := first_eq h le_rfl

theorem rowAt_eq (h : Layout M) {k : Nat} (hk : k < M.values.size) : M.rowIdx[k]? = some (M.rowAt k) :=
  get_eq (by rw [h.size_rowIdx]; exact hk) 0

theorem slots_eq (h : Layout M) {j : Nat} (hj : j < M.cols) : slots M j = some (M.slots j) := by
  rw [slots, first_eq h hj.le, stop_eq h hj]
  rfl

theorem rows_eq (h : Layout M) {j : Nat} (hj : j < M.cols) : rows M j = some ((M.slots j).map M.rowAt) := by
  rw [rows, first_eq h hj.le, stop_eq h hj]
  exact stretch_eq (h.first_le_stop j hj) ((h.stop_le_size hj).trans_eq h.size_rowIdx.symm) 0

theorem column_eq [Scalar T] (h : Layout M) {j : Nat} (hj : j < M.cols) : column M j = some (M.column j) := by
  have hrows := stretch_eq (h.first_le_stop j hj) ((h.stop_le_size hj).trans_eq h.size_rowIdx.symm) 0
  have hvalues := stretch_eq (h.first_le_stop j hj) (h.stop_le_size hj) 0
  rw [column, first_eq h hj.le, stop_eq h hj]
  simp only [Option.bind_eq_bind, Option.bind_some, hrows, hvalues]
  exact congrArg some List.zip_map'

/-! ## The format check -/

/-- The rows of every column increase, as far as one has to look. -/
def rowsAscend (M : SparseMatrix T) : Option Bool :=
  (List.range M.cols).allM fun j => do return chained (fun a b => decide (a < b)) (← rows M j)

/-- The first defect of arrays that may be anything. -/
def check [Scalar T] (M : SparseMatrix T) : Option (Except SparseFormatError Unit) :=
  if M.colPtr.size ≠ M.cols + 1 ∨ M.rowIdx.size ≠ M.values.size then some (.error .incompatibleDimension)
  else do
    if (← M.nnz?) ≠ M.values.size then return .error .incompatibleDimension
    if (← M.colPtr[0]?) ≠ 0 then return .error .badColumnPointers
    if !chained (fun a b => decide (a ≤ b)) M.colPtr.toList then return .error .badColumnPointers
    if !M.rowsInside then return .error .badRowIndex
    if !(← rowsAscend M) then return .error .badRowOrdering
    if !M.values.all Scalar.isFinite then return .error .nonFiniteValue
    return .ok ()

theorem rowsAscend_eq (h : Layout M) : rowsAscend M = some M.rowsAscend := by
  refine allM_eq fun j hj => ?_
  rw [rows_eq h (List.mem_range.mp hj)]
  rfl

/-- No arrays, however malformed, bring the check to an access that misses. -/
theorem check_eq [Scalar T] (M : SparseMatrix T) : check M = some M.check := by
  unfold check SparseMatrix.check
  by_cases hsizes : M.colPtr.size ≠ M.cols + 1 ∨ M.rowIdx.size ≠ M.values.size
  · have hlen : M.lengthsAgree = false := by
      rcases hsizes with h | h <;> simp [lengthsAgree, h]
    rw [if_pos hsizes, hlen]
    rfl
  · rw [if_neg hsizes]
    push Not at hsizes
    obtain ⟨hcol, hrow⟩ := hsizes
    have hnnz : M.nnz? = some M.nnz := get_eq (by omega) 0
    have hzero : M.colPtr[0]? = some (M.first 0) := get_eq (by omega) 0
    have hlen : M.lengthsAgree = (M.nnz == M.values.size) := by simp [lengthsAgree, hcol, hrow]
    simp only [hnnz, hzero, Option.bind_eq_bind, Option.bind_some]
    by_cases hlast : M.nnz = M.values.size
    · by_cases hfirst : M.first 0 = 0
      · by_cases hasc : chained (fun a b => decide (a ≤ b)) M.colPtr.toList = true
        · have hptr : M.pointersAscend = true := by simp [pointersAscend, hfirst, hasc]
          have hagree : M.lengthsAgree = true := by simp [hlen, hlast]
          rw [rowsAscend_eq (layout_of_checks hagree hptr)]
          simp only [hagree, hptr, hlast, hfirst, hasc, ne_eq, not_true_eq_false, if_false, Bool.not_true,
            Bool.false_eq_true, Option.bind_some]
          split_ifs <;> rfl
        · simp [hlen, hlast, hfirst, hasc, pointersAscend]
      · simp [hlen, hlast, hfirst, pointersAscend]
    · simp [hlen, hlast]

/-! ## The index by rows -/

/-- The sums of all initial stretches of `n` counts. -/
def accumulate (n : Nat) (counts : Array Nat) : Option (Array Nat) :=
  (List.range n).foldlM (fun ptr i => do modify ptr (i + 1) (· + (← ptr[i]?))) counts

def rowPointers (M : SparseMatrix T) : Option (Array Nat) := do
  let counts ← M.rowIdx.toList.foldlM (fun counts r => modify counts (r + 1) (· + 1)) (Array.replicate (M.rows + 1) 0)
  accumulate M.rows counts

def placeSlot (M : SparseMatrix T) (acc : Array Nat × Array Nat) (k : Nat) : Option (Array Nat × Array Nat) := do
  let r ← M.rowIdx[k]?
  let place ← acc.1[r]?
  return (← modify acc.1 r (· + 1), ← set acc.2 place k)

def rowIndex (M : SparseMatrix T) : Option RowIndex := do
  let ptr ← rowPointers M
  let placed ← (List.range M.rowIdx.size).foldlM (placeSlot M) (ptr, Array.replicate (← M.nnz?) 0)
  return { ptr, slots := placed.2 }

/-- The slots of row `r`, a stretch of the index. -/
def row (index : RowIndex) (r : Nat) : Option (List Nat) := do
  stretch index.slots (← index.ptr[r]?) (← index.ptr[r + 1]?)

def columnOfSlot (M : SparseMatrix T) : Option (Array Nat) := do
  (List.range M.cols).foldlM
    (fun out j => do
      let first ← M.colPtr[j]?
      let stop ← M.colPtr[j + 1]?
      require (first ≤ stop)
      (List.range' first (stop - first)).foldlM (fun out k => set out k j) out)
    (Array.replicate (← M.nnz?) 0)

theorem accumulate_eq {counts : Array Nat} (h : counts.size = n + 1) :
    accumulate n counts = some (SparseMatrix.accumulate counts) := by
  have hloop := foldlM_eq (f := fun ptr i => do modify ptr (i + 1) (· + (← ptr[i]?)))
    (g := fun ptr i => ptr.modify (i + 1) (· + ptr.getD i 0)) (fun ptr => ptr.size = n + 1) (l := List.range n) h
    fun ptr i hi hsize => by
      rw [List.mem_range] at hi
      rw [get_eq (by omega) 0]
      exact ⟨modify_eq (by omega) _, by rw [Array.size_modify, hsize]⟩
  rw [SparseMatrix.accumulate, h]
  exact hloop.1

section WellFormed

variable (h : WellFormed M)

include h

theorem rowAt_lt_rows : ∀ k ∈ List.range M.rowIdx.size, M.rowAt k < M.rows := by
  intro k hk
  rw [List.mem_range, h.size_rowIdx] at hk
  exact h.rowAt_lt k hk

theorem rowPointers_eq : rowPointers M = some M.rowPointers := by
  have hcounts : M.rowIdx.toList.foldlM (fun counts r => modify counts (r + 1) (· + 1))
      (Array.replicate (M.rows + 1) 0) =
        some (M.rowIdx.foldl (fun counts r => counts.modify (r + 1) (· + 1)) (Array.replicate (M.rows + 1) 0)) := by
    rw [← Array.foldl_toList]
    refine foldlM_modify_eq (· + 1) (fun _ => (· + 1)) fun r hr => ?_
    rw [toList_rowIdx, List.mem_map] at hr
    obtain ⟨k, hk, rfl⟩ := hr
    rw [Array.size_replicate]
    exact Nat.succ_lt_succ (rowAt_lt_rows h k hk)
  rw [rowPointers, hcounts]
  refine accumulate_eq ?_
  rw [← Array.foldl_toList]
  exact (size_foldl_modify _ (· + 1) (fun _ => (· + 1)) _).trans Array.size_replicate

theorem rowIndex_eq : rowIndex M = some M.rowIndex := by
  have hnnz : M.nnz = (List.range M.rowIdx.size).length := by
    rw [List.length_range, h.nnz_eq, h.size_rowIdx]
  have hloop := foldlM_eq_of_done (f := placeSlot M) (g := M.placeSlot) (l := List.range M.rowIdx.size)
    (fun before acc => acc.1 = before.foldl (fun next k => next.modify (M.rowAt k) (· + 1)) M.rowPointers ∧
      acc.2.size = M.nnz) (b := (M.rowPointers, Array.replicate M.nnz 0)) ⟨rfl, Array.size_replicate⟩
    fun before k after acc heq ⟨hnext, hsize⟩ => by
      have hk : k ∈ List.range M.rowIdx.size := by
        rw [heq]
        exact List.mem_append_right _ List.mem_cons_self
      have hplace := next_lt_length (rowAt_lt_rows h) heq
      have hbound : M.rowAt k < acc.1.size := by
        rw [hnext, size_foldl_modify _ M.rowAt fun _ => (· + 1), SparseMatrix.rowPointers_eq, size_starts]
        exact (rowAt_lt_rows h k hk).trans (Nat.lt_succ_self _)
      rw [← SparseMatrix.rowPointers_eq, ← hnext, ← hnnz, ← hsize] at hplace
      refine ⟨?_, ?_, ?_⟩
      · rw [placeSlot, rowAt_eq h.toLayout (by rw [← h.size_rowIdx]; exact List.mem_range.mp hk)]
        simp only [Option.bind_eq_bind, Option.bind_some, get_eq hbound 0, modify_eq hbound, set_eq hplace]
        rfl
      · rw [List.foldl_append, ← hnext]
        rfl
      · exact Array.size_setIfInBounds.trans hsize
  rw [rowIndex, rowPointers_eq h, nnz_eq h.toLayout]
  simp only [Option.bind_eq_bind, Option.bind_some, hloop.1]
  rfl

theorem row_eq {r : Nat} (hr : r < M.rows) : row M.rowIndex r = some (M.rowIndex.row r) := by
  have hkey := rowAt_lt_rows h
  have hptr : M.rowIndex.ptr = starts M.rowAt (List.range M.rowIdx.size) M.rows := SparseMatrix.rowPointers_eq M
  have hsize : M.rowIndex.slots.size = M.rowIdx.size := by
    have hfold := foldl_place M.rowAt (List.range M.rowIdx.size) id M.rowPointers (Array.replicate M.nnz 0)
    refine (congrArg Array.size hfold).trans ?_
    rw [size_foldl_setIfInBounds _ Prod.snd fun e => id e.1, Array.size_replicate, h.nnz_eq, h.size_rowIdx]
  have hlast : M.rowIndex.ptr.getD (r + 1) 0 ≤ M.rowIndex.slots.size := by
    have hmono := @starts_mono _ M.rowAt (List.range M.rowIdx.size) M.rows (r + 1) M.rows hr le_rfl
    rw [getD_starts_bound hkey, List.length_range] at hmono
    rw [hptr, hsize]
    exact hmono
  have hle : M.rowIndex.ptr.getD r 0 ≤ M.rowIndex.ptr.getD (r + 1) 0 := by
    rw [hptr]
    exact starts_mono _ _ (Nat.le_succ r) hr
  have hbound : M.rowIndex.ptr.size = M.rows + 1 := by rw [hptr, size_starts]
  rw [row, get_eq (by omega) 0, get_eq (by omega) 0]
  exact stretch_eq hle hlast 0

end WellFormed

theorem columnOfSlot_eq (h : Layout M) :
    columnOfSlot M = some M.columnOfSlot ∧ M.columnOfSlot.size = M.values.size := by
  rw [columnOfSlot, nnz_eq h]
  refine foldlM_eq (fun out : Array Nat => out.size = M.values.size) ?_ fun out j hj hsize => ?_
  · rw [Array.size_replicate, h.nnz_eq]
  · rw [List.mem_range] at hj
    rw [first_eq h hj.le, stop_eq h hj]
    simp only [Option.bind_eq_bind, Option.bind_some, require_eq (h.first_le_stop j hj)]
    refine ⟨foldlM_set_eq id (fun _ => j) fun k hk => ?_, ?_⟩
    · rw [hsize]
      exact h.lt_size hj hk
    · exact (size_foldl_setIfInBounds _ id (fun _ => j) out).trans hsize

/-! ## Products, norms and scalings -/

section Vectors

variable [Scalar T] {Q A : SparseMatrix T}

def mulAdd (A : SparseMatrix T) (y : Vector T m) (x : Vector T n) (a b : T) : Option (Vector T m) := do
  Vec.ofArray? m (← A.mulAdd? y.toArray x.toArray a b)

def adjointMulAdd (A : SparseMatrix T) (y : Vector T n) (x : Vector T m) (a b : T) : Option (Vector T n) := do
  Vec.ofArray? n (← A.adjointMulAdd? y.toArray x.toArray a b)

/-- The symmetric product, of a matrix that is asserted to store an upper triangle. -/
def symMulAdd (Q : SparseMatrix T) (y x : Vector T n) (a b : T) : Option (Vector T n) := do
  require (← Q.isUpper?)
  Vec.ofArray? n (← Q.symMulAdd? y.toArray x.toArray a b)

def symColumnNorms (Q : SparseMatrix T) (n : Nat) : Option (Vector T n) := do
  Vec.ofArray? n (← Q.symColumnNorms? (Vec.zeros n : Vector T n).toArray)

def foldColumnNorms (A : SparseMatrix T) (norms : Vector T n) : Option (Vector T n) := do
  Vec.ofArray? n (← A.foldColumnNorms? norms.toArray)

def rowNorms (A : SparseMatrix T) (m : Nat) : Option (Vector T m) := do
  Vec.ofArray? m (← A.rowNorms? (Vec.zeros m : Vector T m).toArray)

def scaleBoth (A : SparseMatrix T) (left : Vector T m) (right : Vector T n) : Option (SparseMatrix T) :=
  A.scaleBoth? left.toArray right.toArray

omit [Scalar T] in
theorem ofArray?_toArray {α : Type} (v : Vector α n) : Vec.ofArray? n v.toArray = some v := dif_pos v.size_toArray

/-- An array of the expected length. -/
theorem ofArray?_eq_read {a : Array T} (h : a.size = n) : Vec.ofArray? n a = some (Vec.read n a) := by
  refine (dif_pos h).trans (congrArg some (Vector.ext fun i hi => ?_))
  have hlt : i < a.size := by omega
  simp [Vec.read, Array.getD_eq_getD_getElem?, hlt]

/-- The beginning of a long array. -/
theorem ofArray?_extract {a : Array T} (h : n ≤ a.size) : Vec.ofArray? n (a.extract 0 n) = some (Vec.read n a) := by
  have hsize : (a.extract 0 n).size = n := by simp [h]
  refine (dif_pos hsize).trans (congrArg some (Vector.ext fun i hi => ?_))
  have hlt : i < a.size := by omega
  simp [Vec.read, Array.getD_eq_getD_getElem?, hlt]

omit [Scalar T] in
theorem columnReadable_eq (h : Layout A) {j : Nat} (hj : j < A.cols) : A.columnReadable j = true := by
  have hstop := h.stop_le_size hj
  simp [columnReadable, rowsReadable, hasColumn, h.size_colPtr, h.first_le_stop j hj, h.size_rowIdx, hj, hstop]

omit [Scalar T] in
theorem entriesBelow_eq (h : WellFormed A) : A.entriesBelow A.rows = true := by
  simp only [entriesBelow, List.all_eq_true, List.mem_range, Bool.and_eq_true, decide_eq_true_eq]
  exact fun j hj => ⟨columnReadable_eq h.toLayout hj, fun k hk => h.rowAt_lt k (h.lt_size hj hk)⟩

section Rectangular

variable (h : WellFormed A) (hm : A.rows = m) (hn : A.cols = n)

include h hm hn

theorem mulAdd?_eq (y : Vector T m) (x : Vector T n) (a b : T) :
    A.mulAdd? y.toArray x.toArray a b = some (A.mulAdd y x a b).toArray := by
  subst hm hn
  simp [mulAdd?, ofArray?_toArray, entriesBelow_eq h]

theorem mulAdd_eq (y : Vector T m) (x : Vector T n) (a b : T) : mulAdd A y x a b = some (A.mulAdd y x a b) := by
  rw [mulAdd, mulAdd?_eq h hm hn]
  exact ofArray?_toArray _

theorem adjointMulAdd?_eq (y : Vector T n) (x : Vector T m) (a b : T) :
    A.adjointMulAdd? y.toArray x.toArray a b = some (A.adjointMulAdd y x a b).toArray := by
  subst hm hn
  simp [adjointMulAdd?, ofArray?_toArray, entriesBelow_eq h]

theorem adjointMulAdd_eq (y : Vector T n) (x : Vector T m) (a b : T) :
    adjointMulAdd A y x a b = some (A.adjointMulAdd y x a b) := by
  rw [adjointMulAdd, adjointMulAdd?_eq h hm hn]
  exact ofArray?_toArray _

theorem scaleBoth_eq (left : Vector T m) (right : Vector T n) : scaleBoth A left right = some (A.scaleBoth left right) := by
  subst hm hn
  simp [scaleBoth, scaleBoth?, ofArray?_toArray, entriesBelow_eq h]

omit hm in
theorem foldColumnNorms_eq (norms : Vector T n) : foldColumnNorms A norms = some (A.foldColumnNorms norms) := by
  subst hn
  have hall : (List.range A.cols).all A.columnReadable = true :=
    List.all_eq_true.mpr fun j hj => columnReadable_eq h.toLayout (List.mem_range.mp hj)
  rw [foldColumnNorms, foldColumnNorms?, ofArray?_toArray, hall]
  exact ofArray?_toArray _

omit hn in
theorem rowNorms_eq : rowNorms A m = some (A.rowNorms m) := by
  subst hm
  have hall : ((A.rowIdx.toList.take A.values.size).all (· < A.rows)) = true := by
    rw [List.all_eq_true]
    intro r hr
    rw [toList_rowIdx] at hr
    obtain ⟨k, hk, rfl⟩ := List.mem_map.mp (List.mem_of_mem_take hr)
    exact decide_eq_true (rowAt_lt_rows h k hk)
  rw [rowNorms, rowNorms?, if_pos ⟨by simp, hall⟩]
  exact ofArray?_toArray _

end Rectangular

section Square

variable (h : WellFormed Q) (hrows : Q.rows = n) (hcols : Q.cols = n)

include h hrows hcols

theorem symMulAdd?_eq (y x : Vector T n) (a b : T) :
    Q.symMulAdd? y.toArray x.toArray a b = some (Q.symMulAdd y x a b).toArray := by
  subst hcols
  have hbelow := entriesBelow_eq h
  rw [hrows] at hbelow
  simp [symMulAdd?, ofArray?_toArray, hbelow, isSquare, hrows]

theorem symMulAdd_eq (hupper : Q.Upper) (y x : Vector T n) (a b : T) :
    symMulAdd Q y x a b = some (Q.symMulAdd y x a b) := by
  rw [symMulAdd, Factorization.isUpper?_eq_some h.toLayout hupper, symMulAdd?_eq h hrows hcols]
  simp [require, ofArray?_toArray]

theorem symColumnNorms_eq : symColumnNorms Q n = some (Q.symColumnNorms n) := by
  subst hcols
  have hbelow := entriesBelow_eq h
  rw [hrows] at hbelow
  rw [symColumnNorms, symColumnNorms?, if_pos ⟨by simp, hbelow⟩]
  exact ofArray?_toArray _

end Square

end Vectors

end AugLag.Checked
