import AugLag.Proofs.Checked.Analysis

/-!
# Checked factors

Factors that fit a matrix, that have all their rows inside of it and a permutation as their order can be computed,
modified and used without an access that misses, however these operations end. Nothing here depends on how the scalars
calculate.
-/

namespace AugLag.Checked

open SparseMatrix EliminationTree
open Factorization (Progress Row Shape Fitted)

variable {T : Type} {A : SparseMatrix T} {k : Nat}

/-! ## The pattern of a row -/

/-- The columns from `i` upwards that lie below row `k` and are not marked yet. A way that does not end is a failure. -/
def path (tree : EliminationTree) (k : Nat) : Nat → Array Bool → Nat → Option (Array Bool × List Nat)
  | 0, _, _ => none
  | fuel + 1, marks, i =>
    if i < k then do
      if ← marks[i]? then return (marks, [])
      else
        let marks ← set marks i true
        match ← tree.parent[i]? with
        | none => return (marks, [i])
        | some above =>
          let rest ← path tree k fuel marks above
          return (rest.1, i :: rest.2)
    else some (marks, [])

def reach (tree : EliminationTree) (k : Nat) (rows : List Nat) : Option (List Nat) := do
  let acc ← rows.foldlM
    (fun acc i => do
      let p ← path tree k (k + 1) acc.1 i
      return (p.1, p.2 ++ acc.2))
    (Array.replicate k false, [])
  return acc.2

section Pattern

variable {tree : EliminationTree} {N : Nat}

theorem path_eq (h : Accounts A tree N) (hk : k ≤ A.cols) (fuel : Nat) {marks : Array Bool} {i : Nat}
    (hmarks : marks.size = k) (hfuel : k - i < fuel) :
    path tree k fuel marks i = some (EliminationTree.path tree k fuel marks i) := by
  induction fuel generalizing marks i with
  | zero => omega
  | succ fuel ih =>
      unfold path EliminationTree.path
      by_cases hik : i < k
      · have him : i < marks.size := hmarks.symm ▸ hik
        have hparent : i < tree.parent.size := by
          rw [h.size_parent]
          omega
        rw [if_pos hik, get_eq him true, set_eq him, get_eq hparent none]
        simp only [Option.bind_eq_bind, Option.bind_some, hik, decide_true, Bool.true_and]
        cases hmark : marks.getD i true with
        | true => rfl
        | false =>
            simp only [Bool.false_eq_true, if_false, Bool.not_false, if_true]
            cases hq : tree.parent.getD i none with
            | none =>
                simp only [parentOf, hq]
                rfl
            | some above =>
                have hgt := (h.parent_gt i above hq).1
                simp only [parentOf, hq]
                rw [ih (Array.size_setIfInBounds.trans hmarks) (by omega)]
                rfl
      · simp [hik]

theorem reach_eq (h : Accounts A tree N) (hk : k ≤ A.cols) (rows : List Nat) :
    reach tree k rows = some (tree.reach k rows) := by
  have hloop := foldlM_eq
    (f := fun (acc : Array Bool × List Nat) i => do
      let p ← path tree k (k + 1) acc.1 i
      return (p.1, p.2 ++ acc.2))
    (g := fun acc i => ((tree.path k (k + 1) acc.1 i).1, (tree.path k (k + 1) acc.1 i).2 ++ acc.2))
    (fun acc => acc.1.size = k) (l := rows) (b := (Array.replicate k false, [])) Array.size_replicate
    fun acc i _ hsize => by
      have hadds : PathAdds A tree k acc.1 i (tree.path k (k + 1) acc.1 i) := path_spec h (k + 1) (by omega)
      refine ⟨?_, hadds.size_eq.trans hsize⟩
      rw [path_eq h hk (k + 1) hsize (by omega)]
      rfl
  rw [reach, hloop.1]
  rfl

end Pattern

/-! ## Numeric factorization -/

section Numeric

variable [Scalar T]

/-- Column `k` of the matrix, spread out. -/
def spread (A : SparseMatrix T) (k : Nat) : Option (Row T) := do
  (← column A k).foldlM
    (fun r e => if e.1 = k then some { r with pivot := e.2 } else do return { r with y := ← set r.y e.1 e.2 })
    { y := Array.replicate A.cols 0, pivot := 0 }

/-- Eliminates column `c` from row `k`, and stores the entry in row `k` and column `c`. -/
def eliminateColumn (k : Nat) (acc : Progress T × Row T) (c : Nat) : Option (Progress T × Row T) := do
  let s := acc.1
  let yc ← acc.2.y[c]?
  let slot ← s.next[c]?
  let first ← s.lower.colPtr[c]?
  let y ← (List.range' first (slot - first)).foldlM
    (fun y p => do
      let l ← s.lower.values[p]?
      modify y (← s.lower.rowIdx[p]?) (· - l * yc))
    acc.2.y
  let l := yc * (← s.diagInv[c]?)
  let rowIdx ← set s.lower.rowIdx slot k
  let values ← set s.lower.values slot l
  let next ← modify s.next c (· + 1)
  return ({ s with lower := { s.lower with rowIdx, values }, next }, { y, pivot := acc.2.pivot - yc * l })

def computeRow (A : SparseMatrix T) (tree : EliminationTree) (s : Progress T) (k : Nat) : Option (Progress T × T) := do
  let order ← reach tree k ((← rows A k).filter (· ≠ k))
  let acc ← order.foldlM (eliminateColumn k) (s, ← spread A k)
  return ({ acc.1 with diag := ← set acc.1.diag k acc.2.pivot }, acc.2.pivot)

def computeRows (A : SparseMatrix T) (tree : EliminationTree) :
    List Nat → Progress T → Option (Progress T × Except FactorError Unit)
  | [], s => some (s, .ok ())
  | k :: rest, s => do
    let row ← computeRow A tree s k
    if row.2 == 0 || !Scalar.isFinite row.2 then return (row.1, .error .zeroPivot)
    else
      computeRows A tree rest
        { row.1 with
          diagInv := ← set row.1.diagInv k (Scalar.recip row.2)
          positive := if 0 < row.2 then row.1.positive + 1 else row.1.positive }

/-- The state of a factorization whose columns are filled up to their heights. -/
structure Underway (A : SparseMatrix T) (tree : EliminationTree) (height : Nat → Nat) (s : Progress T) : Prop where
  fills : s.Fills A tree height
  size_diag : s.diag.size = A.cols
  size_diagInv : s.diagInv.size = A.cols
  rows : ∀ p < s.lower.rowIdx.size, s.lower.rowAt p < A.cols

variable {tree : EliminationTree} {height : Nat → Nat} {s : Progress T}

theorem spread_eq (h : Layout A) (hupper : A.Upper) (hk : k < A.cols) :
    spread A k = some (Factorization.spread A k) ∧ (Factorization.spread A k).y.size = A.cols := by
  have hloop := foldlM_eq
    (f := fun (r : Row T) (e : Nat × T) =>
      if e.1 = k then some { r with pivot := e.2 } else do return { r with y := ← set r.y e.1 e.2 })
    (g := fun r e => if e.1 = k then { r with pivot := e.2 } else { r with y := r.y.setIfInBounds e.1 e.2 })
    (fun r => r.y.size = A.cols) (l := A.column k) (b := { y := Array.replicate A.cols 0, pivot := 0 })
    Array.size_replicate fun r e he hsize => by
      obtain ⟨p, hp, rfl⟩ := List.mem_map.mp he
      have hrow : A.rowAt p < r.y.size := hsize.symm ▸ (hupper k hk p hp).trans_lt hk
      dsimp only
      split
      · exact ⟨rfl, hsize⟩
      · rw [set_eq hrow]
        exact ⟨rfl, Array.size_setIfInBounds.trans hsize⟩
  rw [spread, column_eq h hk]
  exact hloop

omit [Scalar T] in
/-- A new row inside of the matrix keeps all rows there. -/
theorem getD_set_lt {rows : Array Nat} {n slot : Nat} (h : ∀ p < rows.size, rows.getD p 0 < n) (hk : k < n) :
    ∀ p < (rows.setIfInBounds slot k).size, (rows.setIfInBounds slot k).getD p 0 < n := by
  intro p hp
  rw [Array.size_setIfInBounds] at hp
  rw [getD_setIfInBounds]
  by_cases hslot : slot = p ∧ p < rows.size
  · rw [if_pos hslot]
    exact hk
  · rw [if_neg hslot]
    exact h p hp

theorem eliminateColumn_eq (h : Underway A tree height s) (hk : k < A.cols) {c : Nat} (hreach : Reaches A tree k c)
    (hheight : height c = k) {r : Row T} (hy : r.y.size = A.cols) :
    eliminateColumn k (s, r) c = some (Factorization.eliminateColumn k (s, r) c) ∧
      Underway A tree (Function.update height c (k + 1)) (Factorization.eliminateColumn k (s, r) c).1 ∧
        (Factorization.eliminateColumn k (s, r) c).2.y.size = A.cols := by
  have hc : c < A.cols := hreach.lt.trans hk
  have hslot := h.fills.next_mem_slots hc hk hheight hreach
  have hlast : s.next.getD c 0 < s.lower.values.size :=
    h.fills.room.lt_size (h.fills.room.cols_eq.symm ▸ hc) hslot
  have hrowIdx := h.fills.room.size_rowIdx
  have hptr : c < s.lower.colPtr.size := by
    rw [h.fills.room.size_colPtr, h.fills.room.cols_eq]
    omega
  have hnext : c < s.next.size := h.fills.size_next.symm ▸ hc
  have hloop := foldlM_eq
    (f := fun (y : Array T) p => do
      let l ← s.lower.values[p]?
      modify y (← s.lower.rowIdx[p]?) (· - l * r.y.getD c 0))
    (g := fun y p => y.modify (s.lower.rowAt p) (· - s.lower.valueAt p * r.y.getD c 0)) (fun y => y.size = A.cols)
    (l := List.range' (s.lower.first c) (s.next.getD c 0 - s.lower.first c)) hy fun y p hp hsize => by
      rw [List.mem_range'_1] at hp
      have hle := (mem_slots.mp hslot).1
      have hvalue : p < s.lower.values.size := by omega
      have hrow : s.lower.rowAt p < y.size := hsize.symm ▸ h.rows p (hrowIdx.symm ▸ hvalue)
      rw [get_eq hvalue 0, get_eq (hrowIdx.symm ▸ hvalue) 0]
      exact ⟨modify_eq hrow _, Array.size_modify.trans hsize⟩
  refine ⟨?_, ⟨?_, h.size_diag, h.size_diagInv, ?_⟩, hloop.2⟩
  · rw [eliminateColumn]
    simp only [get_eq (hy.symm ▸ hc) 0, get_eq hnext 0, get_eq hptr 0, get_eq (h.size_diagInv.symm ▸ hc) 0,
      set_eq (hrowIdx.symm ▸ hlast), set_eq hlast, modify_eq hnext, Option.bind_eq_bind, Option.bind_some]
    exact congrArg (Option.bind · _) hloop.1
  · exact h.fills.push_fills hc hk hheight hreach _
  · exact getD_set_lt h.rows hk

theorem computeRow_eq (hA : Layout A) (hupper : A.Upper) (htree : Accounts A tree A.cols) (hk : k < A.cols)
    (h : Underway A tree (fun _ => k) s) :
    computeRow A tree s k = some (Factorization.computeRow A tree s k) ∧
      Underway A tree (fun _ => k + 1) (Factorization.computeRow A tree s k).1 := by
  obtain ⟨hnodup, hdone, -⟩ := htree.reach_spec hupper hk
  obtain ⟨hspread, hsize⟩ := spread_eq hA hupper hk
  obtain ⟨hloop, hrow, -⟩ := foldlM_eq_of_done (f := eliminateColumn k) (g := Factorization.eliminateColumn k)
    (fun before acc => Underway A tree (fun c => if c ∈ before then k + 1 else k) acc.1 ∧ acc.2.y.size = A.cols)
    (l := tree.reach k (rowsAbove A k)) (b := (s, Factorization.spread A k)) ⟨by simpa using h, hsize⟩
    fun before c after acc heq ⟨hrow, hy⟩ => by
      have hreach : Reaches A tree k c := (hdone c).mp (heq ▸ List.mem_append_right _ List.mem_cons_self)
      rw [heq] at hnodup
      have hnew : c ∉ before := fun hc => (List.nodup_append.mp hnodup).2.2 c hc c List.mem_cons_self rfl
      have hstep := eliminateColumn_eq hrow hk hreach (if_neg hnew) hy
      rwa [Factorization.update_height] at hstep
  rw [computeRow, rows_eq hA hk]
  simp only [Option.bind_eq_bind, Option.bind_some, reach_eq htree hk.le, hspread]
  rw [Factorization.computeRow_eq]
  refine ⟨?_, ⟨?_, ?_, hrow.size_diagInv, hrow.rows⟩⟩
  · refine (congrArg (Option.bind · _) hloop).trans ?_
    simp only [Option.bind_some, set_eq (hrow.size_diag.symm ▸ hk)]
    rfl
  · have hle : ∀ c < A.cols, k + 1 ≤ A.cols := fun _ _ => hk
    exact (hrow.fills.of_rowsOf hle (Factorization.rowsOf_height hdone)).withDiag _ _ _
  · exact Array.size_setIfInBounds.trans hrow.size_diag

/-- Whether or not some row has no pivot, what is computed lies inside of the matrix. -/
theorem computeRows_eq (hA : Layout A) (hupper : A.Upper) (htree : Accounts A tree A.cols) (m : Nat)
    (hkm : k + m = A.cols) (h : Underway A tree (fun _ => k) s) :
    computeRows A tree (List.range' k m) s = some (Factorization.computeRows A tree (List.range' k m) s) ∧
      ∃ height, Underway A tree height (Factorization.computeRows A tree (List.range' k m) s).1 := by
  induction m generalizing k s with
  | zero => exact ⟨rfl, _, h⟩
  | succ m ih =>
      have hk : k < A.cols := by omega
      obtain ⟨hcompute, hrow⟩ := computeRow_eq hA hupper htree hk h
      rw [List.range'_succ, computeRows, Factorization.computeRows, hcompute]
      simp only [Option.bind_eq_bind, Option.bind_some]
      generalize Factorization.computeRow A tree s k = acc at hrow ⊢
      obtain ⟨t, pivot⟩ := acc
      dsimp only at hrow ⊢
      split
      · exact ⟨rfl, _, hrow⟩
      · rw [set_eq (hrow.size_diagInv.symm ▸ hk)]
        exact ih (by omega)
          { fills := hrow.fills.withDiag _ _ _
            size_diag := hrow.size_diag
            size_diagInv := Array.size_setIfInBounds.trans hrow.size_diagInv
            rows := hrow.rows }

end Numeric

/-! ## Operations on factors -/

/-- The arrays of the factors fit the matrix, its order is a permutation, and no row lies outside of it. -/
structure Indexed (A : SparseMatrix T) (F : Factorization T) : Prop extends Fitted A F where
  order : Permutes F.perm F.inverse A.cols
  rows : ∀ p < F.lower.rowIdx.size, F.lower.rowAt p < A.cols

/-- Nothing is said about the values of the matrix. -/
theorem Indexed.withValues {F : Factorization T} (h : Indexed A F) {values : Array T} (hs : values.size = A.values.size) :
    Indexed { A with values } F :=
  { h.toFitted.withValues hs with order := h.order, rows := h.rows }

section Operations

variable [Scalar T]

/-- Factors the stored values from scratch. There must be a pointer and a count for every column. -/
def refactor (F : Factorization T) : Option (Factorization T × Except FactorError Unit) := do
  require (F.lower.colPtr.size = F.dim + 1 ∧ F.tree.count.size = F.dim)
  let out ← computeRows F.stored.matrix F.tree (List.range F.dim) F.beginning
  return ({ F with
    lower := out.1.lower
    diag := out.1.diag
    diagInv := out.1.diagInv
    positive := match out.2 with
      | .ok () => out.1.positive
      | .error _ => 0 }, out.2)

/-- Replaces the values of slots, of which there must be as many as values. -/
def updateValues (F : Factorization T) (slots : List Nat) (values : List T) : Option (Factorization T) := do
  require (slots.length = values.length)
  let M := F.stored.matrix
  let replaced ← (slots.zip values).foldlM (fun v e => do set v (← F.stored.slotOf[e.1]?) e.2) M.values
  return { F with stored := { F.stored with matrix := { M with values := replaced } } }

def modifySlot (wj beta : T) (s : Factorization.RankOne T) (p : Nat) : Option (Factorization.RankOne T) := do
  let i ← s.lower.rowIdx[p]?
  let l ← s.lower.values[p]?
  let wi := (← s.w[i]?) - wj * l
  let w ← set s.w i wi
  let values ← set s.lower.values p (l + beta * wi)
  return { s with w, lower := { s.lower with values } }

def modifyColumn (s : Factorization.RankOne T) (j : Nat) : Option (Factorization.RankOne T × Bool) := do
  let wj ← s.w[j]?
  let w ← set s.w j 0
  let dj ← s.diag[j]?
  let d := dj + s.weight * wj * wj
  if 0 < d then
    let beta := wj * s.weight / d
    let diag ← set s.diag j d
    let diagInv ← set s.diagInv j (Scalar.recip d)
    let changed ← (← slots s.lower j).foldlM (modifySlot wj beta)
      { s with w, weight := s.weight * (dj / d), diag, diagInv }
    return (changed, true)
  else return ({ s with w }, false)

/-- Changes column `j` and the columns above it in the tree. A way that does not end is a failure. -/
def modifyPath (tree : EliminationTree) :
    Nat → Factorization.RankOne T → Option Nat → Option (Factorization.RankOne T × Except FactorError Unit)
  | _, s, none => some (s, .ok ())
  | 0, _, some _ => none
  | fuel + 1, s, some j => do
    let column ← modifyColumn s j
    if column.2 then modifyPath tree fuel column.1 (← tree.parent[j]?)
    else return (column.1, .error .notPositiveDefinite)

/-- Turns factors of `A` into factors of `A + weight w wᵀ`. -/
def rankOne (F : Factorization T) (entries : List (Nat × T)) (weight : T) :
    Option (Factorization T × Except FactorError Unit) := do
  let w ← entries.foldlM (fun w e => do modify w (← F.inverse[e.1]?) (· + e.2)) (Array.replicate F.dim 0)
  let places ← entries.mapM fun e => F.inverse[e.1]?
  let out ← modifyPath F.tree F.dim { lower := F.lower, diag := F.diag, diagInv := F.diagInv, w, weight } places.min?
  let F := { F with lower := out.1.lower, diag := out.1.diag, diagInv := out.1.diagInv }
  match out.2 with
  | .ok () => return ({ F with positive := F.diag.countP fun d => 0 < d }, .ok ())
  | .error e => return (F, .error e)

/-- Solves `(L + I) x = b`. -/
def solveLower (L : SparseMatrix T) (b : Array T) : Option (Array T) :=
  (List.range b.size).foldlM
    (fun x j => do
      let xj ← x[j]?
      (← column L j).foldlM (fun x e => modify x e.1 (· - e.2 * xj)) x)
    b

/-- Solves `(L + I)ᵀ x = b`. -/
def solveUpper (L : SparseMatrix T) (b : Array T) : Option (Array T) :=
  (List.range b.size).reverse.foldlM
    (fun x j => do
      let s ← (← column L j).foldlM (fun s e => do return s + e.2 * (← x[e.1]?)) 0
      modify x j (· - s))
    b

/-- The solution of `A x = b`, where `b` must have the size of the matrix. -/
def solve (F : Factorization T) (b : Array T) : Option (Array T) := do
  require (b.size = F.dim)
  let gathered ← F.perm.toList.mapM (b[·]?)
  let y ← solveLower F.lower gathered.toArray
  require (y.size = F.diagInv.size)
  let x ← solveUpper F.lower (Array.zipWith (· * ·) y F.diagInv)
  let scattered ← F.inverse.toList.mapM (x[·]?)
  return scattered.toArray

variable {F : Factorization T}

namespace Indexed

theorem refactor (h : Indexed A F) : refactor F = some F.refactor ∧ Indexed A F.refactor.1 := by
  have hcols : F.stored.matrix.cols = A.cols := h.sorted.cols_eq
  have hunderway : Underway F.stored.matrix F.tree (fun _ => 0) F.beginning :=
    { fills := h.shape.fills_beginning
      size_diag := h.shape.size_diag
      size_diagInv := h.shape.size_diagInv
      rows := hcols.symm ▸ h.rows }
  have hdim : F.dim = F.stored.matrix.cols := h.shape.size_diag
  obtain ⟨hrows, height, hend⟩ := computeRows_eq h.sorted.layout h.shape.upper h.shape.accounts F.dim (by omega) hunderway
  obtain ⟨hfitted, hsame⟩ := h.toFitted.refactor
  have hptr : F.lower.colPtr.size = F.dim + 1 ∧ F.tree.count.size = F.dim := by
    rw [h.shape.room.size_colPtr, h.shape.room.cols_eq, h.shape.accounts.size_count, hdim]
    exact ⟨rfl, rfl⟩
  rw [← List.range_eq_range'] at hrows hend
  refine ⟨?_, { hfitted with order := hsame.perm.symm ▸ hsame.inverse.symm ▸ h.order, rows := ?_ }⟩
  · rw [Checked.refactor, require_eq hptr, hrows, Factorization.refactor_eq]
    rfl
  · rw [Factorization.refactor_eq]
    exact hcols ▸ hend.rows

omit [Scalar T] in
theorem updateValues (h : Indexed A F) {slots : List Nat} {values : List T} (hslots : ∀ k ∈ slots, k < A.values.size)
    (hlen : slots.length = values.length) :
    updateValues F slots values = some (F.updateValues slots values) ∧ Indexed A (F.updateValues slots values) := by
  have hloop := foldlM_eq (f := fun (v : Array T) (e : Nat × T) => do set v (← F.stored.slotOf[e.1]?) e.2)
    (g := fun v e => v.setIfInBounds (F.stored.slotOf.getD e.1 0) e.2)
    (fun v => v.size = F.stored.matrix.values.size) (l := slots.zip values) (b := F.stored.matrix.values) rfl
    fun v e he hsize => by
      have hk : e.1 < A.values.size := hslots e.1 (List.of_mem_zip he).1
      rw [get_eq (h.sorted.size_slotOf.symm ▸ hk) 0]
      exact ⟨set_eq (hsize.symm ▸ h.sorted.slot_lt hk) _, Array.size_setIfInBounds.trans hsize⟩
  refine ⟨?_, { h.toFitted.updateValues slots values with order := h.order, rows := h.rows }⟩
  rw [Checked.updateValues, require_eq hlen]
  exact congrArg (Option.bind · _) hloop.1

/-! ### Modification -/

/-- What a modification works on, with rows and lengths as those of the factors. -/
structure Modifiable (tree : EliminationTree) (n : Nat) (s : Factorization.RankOne T) : Prop where
  layout : Layout s.lower
  cols_eq : s.lower.cols = n
  rows : ∀ p < s.lower.rowIdx.size, s.lower.rowAt p < n
  size_w : s.w.size = n
  size_diag : s.diag.size = n
  size_diagInv : s.diagInv.size = n

variable {tree : EliminationTree} {n : Nat} {s : Factorization.RankOne T}

theorem modifySlot_eq (h : Modifiable tree n s) (wj beta : T) {p : Nat} (hp : p < s.lower.values.size) :
    modifySlot wj beta s p = some (Factorization.modifySlot wj beta s p) ∧
      Modifiable tree n (Factorization.modifySlot wj beta s p) ∧
        (Factorization.modifySlot wj beta s p).lower.values.size = s.lower.values.size := by
  have hrowIdx : p < s.lower.rowIdx.size := h.layout.size_rowIdx.symm ▸ hp
  have hrow : s.lower.rowIdx.getD p 0 < s.w.size := h.size_w.symm ▸ h.rows p hrowIdx
  refine ⟨?_, { h with layout := h.layout.withValues Array.size_setIfInBounds, size_w := ?_ }, Array.size_setIfInBounds⟩
  · rw [modifySlot]
    simp only [get_eq hrowIdx 0, get_eq hp 0, get_eq hrow 0, set_eq hrow, set_eq hp, Option.bind_eq_bind, Option.bind_some]
    rfl
  · exact Array.size_setIfInBounds.trans h.size_w

theorem modifyColumn_eq (h : Modifiable tree n s) {j : Nat} (hj : j < n) :
    modifyColumn s j = some (Factorization.modifyColumn s j) ∧ Modifiable tree n (Factorization.modifyColumn s j).1 := by
  have hw : j < s.w.size := h.size_w.symm ▸ hj
  have hdiag : j < s.diag.size := h.size_diag.symm ▸ hj
  have hdiagInv : j < s.diagInv.size := h.size_diagInv.symm ▸ hj
  have hcols : j < s.lower.cols := h.cols_eq.symm ▸ hj
  rw [modifyColumn, Factorization.modifyColumn]
  simp only [get_eq hw 0, get_eq hdiag 0, set_eq hw, set_eq hdiag, set_eq hdiagInv, slots_eq h.layout hcols,
    Option.bind_eq_bind, Option.bind_some]
  generalize s.w.getD j 0 = wj
  generalize s.diag.getD j 0 = dj
  split
  · have hstart : Modifiable tree n
        { s with
          w := s.w.setIfInBounds j 0
          weight := s.weight * (dj / (dj + s.weight * wj * wj))
          diag := s.diag.setIfInBounds j (dj + s.weight * wj * wj)
          diagInv := s.diagInv.setIfInBounds j (Scalar.recip (dj + s.weight * wj * wj)) } :=
      { h with
        size_w := Array.size_setIfInBounds.trans h.size_w
        size_diag := Array.size_setIfInBounds.trans h.size_diag
        size_diagInv := Array.size_setIfInBounds.trans h.size_diagInv }
    obtain ⟨hloop, hmodifiable, -⟩ := foldlM_eq
      (fun t => Modifiable tree n t ∧ t.lower.values.size = s.lower.values.size) ⟨hstart, rfl⟩
      fun t p hp hkept => by
        obtain ⟨ht, hsize⟩ := hkept
        obtain ⟨hstep, hnext, hnextSize⟩ := modifySlot_eq ht wj (wj * s.weight / (dj + s.weight * wj * wj))
          (hsize.symm ▸ h.layout.lt_size hcols hp)
        exact ⟨hstep, hnext, hnextSize.trans hsize⟩
    rw [hloop]
    exact ⟨rfl, hmodifiable⟩
  · exact ⟨rfl, { h with size_w := Array.size_setIfInBounds.trans h.size_w }⟩

/-- Parents are larger, so the way to a root is not longer than the fuel. -/
theorem modifyPath_eq {B : SparseMatrix T} (htree : Accounts B tree n) (hn : B.cols = n) (fuel : Nat)
    (h : Modifiable tree n s) {next : Option Nat} (hnext : ∀ j, next = some j → j < n ∧ n - j ≤ fuel) :
    modifyPath tree fuel s next = some (Factorization.modifyPath tree fuel s next) ∧
      Modifiable tree n (Factorization.modifyPath tree fuel s next).1 := by
  induction fuel generalizing s next with
  | zero =>
      cases next with
      | none => exact ⟨rfl, h⟩
      | some j =>
          have := hnext j rfl
          omega
  | succ fuel ih =>
      cases next with
      | none => exact ⟨rfl, h⟩
      | some j =>
          obtain ⟨hj, hfuel⟩ := hnext j rfl
          have hparent : j < tree.parent.size := by
            rw [htree.size_parent, hn]
            exact hj
          obtain ⟨hcolumn, hmodifiable⟩ := modifyColumn_eq h hj
          rw [modifyPath, Factorization.modifyPath, hcolumn, get_eq hparent none]
          simp only [Option.bind_eq_bind, Option.bind_some]
          generalize Factorization.modifyColumn s j = out at hmodifiable ⊢
          obtain ⟨t, positive⟩ := out
          cases positive with
          | true =>
              refine ih hmodifiable fun q hq => ?_
              have := htree.parent_gt j q hq
              omega
          | false => exact ⟨rfl, hmodifiable⟩

theorem rankOne (h : Indexed A F) {entries : List (Nat × T)} (weight : T) (hentries : ∀ e ∈ entries, e.1 < A.cols) :
    rankOne F entries weight = some (F.rankOne entries weight) ∧ Indexed A (F.rankOne entries weight).1 := by
  have hdim := h.dim_eq
  have hcols : F.stored.matrix.cols = A.cols := h.sorted.cols_eq
  have hplace : ∀ e ∈ entries, F.inverse[e.1]? = some (F.inverse.getD e.1 0) := fun e he =>
    get_eq (h.order.size_inverse.symm ▸ hentries e he) 0
  have hvector := foldlM_eq (f := fun (w : Array T) (e : Nat × T) => do modify w (← F.inverse[e.1]?) (· + e.2))
    (g := fun w e => w.modify (F.inverse.getD e.1 0) (· + e.2)) (fun w => w.size = A.cols) (l := entries)
    (b := Array.replicate F.dim 0) (Array.size_replicate.trans hdim) fun w e he hsize => by
      rw [hplace e he]
      exact ⟨modify_eq (hsize.symm ▸ h.order.inverse_lt e.1 (hentries e he)) _, Array.size_modify.trans hsize⟩
  have hstart : Modifiable F.tree A.cols
      { lower := F.lower, diag := F.diag, diagInv := F.diagInv, w := F.permutedVector entries, weight } :=
    { layout := h.shape.room.toLayout
      cols_eq := h.shape.room.cols_eq.trans hcols
      rows := h.rows
      size_w := hvector.2
      size_diag := hdim
      size_diagInv := h.shape.size_diagInv.trans hcols }
  have haccounts := h.shape.accounts
  rw [hcols] at haccounts
  have hfirst : ∀ j, F.firstPlace entries = some j → j < A.cols ∧ A.cols - j ≤ F.dim := by
    intro j hj
    obtain ⟨e, he, rfl⟩ := List.mem_map.mp (List.min?_mem hj)
    exact ⟨h.order.inverse_lt e.1 (hentries e he), by omega⟩
  obtain ⟨hpath, hmodifiable⟩ := modifyPath_eq haccounts hcols F.dim hstart hfirst
  obtain ⟨hfitted, hsame⟩ := h.toFitted.rankOne entries weight
  have hlower : (F.rankOne entries weight).1.lower = (Factorization.modifyPath F.tree F.dim
      { lower := F.lower, diag := F.diag, diagInv := F.diagInv, w := F.permutedVector entries, weight }
      (F.firstPlace entries)).1.lower := by
    unfold Factorization.rankOne
    simp only
    split <;> rfl
  refine ⟨?_, { hfitted with order := hsame.perm.symm ▸ hsame.inverse.symm ▸ h.order, rows := ?_ }⟩
  · rw [Checked.rankOne, mapM_eq hplace]
    refine (congrArg (Option.bind · _) hvector.1).trans ((congrArg (Option.bind · _) hpath).trans ?_)
    simp only [Option.bind_some, Factorization.rankOne]
    generalize Factorization.modifyPath F.tree F.dim
      { lower := F.lower, diag := F.diag, diagInv := F.diagInv, w := F.permutedVector entries, weight }
      (F.firstPlace entries) = out
    obtain ⟨t, outcome⟩ := out
    cases outcome with
    | ok u => rfl
    | error e => rfl
  · rw [hlower]
    exact hmodifiable.rows

/-! ### Solution -/

theorem solveLower_eq (h : Indexed A F) {b : Array T} (hb : b.size = A.cols) :
    solveLower F.lower b = some (Factorization.solveLower F.lower b) ∧
      (Factorization.solveLower F.lower b).size = A.cols := by
  refine foldlM_eq (fun x : Array T => x.size = A.cols) hb fun x j hj hsize => ?_
  rw [List.mem_range, hb] at hj
  have hcols : j < F.lower.cols := by
    rw [h.shape.room.cols_eq, h.sorted.cols_eq]
    exact hj
  rw [get_eq (hsize.symm ▸ hj) 0, column_eq h.shape.room.toLayout hcols]
  refine ⟨foldlM_modify_eq Prod.fst (fun (e : Nat × T) y => y - e.2 * x.getD j 0) fun e he => ?_, ?_⟩
  · obtain ⟨p, hp, rfl⟩ := List.mem_map.mp he
    rw [hsize]
    exact h.rows p (h.shape.room.size_rowIdx.symm ▸ h.shape.room.lt_size hcols hp)
  · exact (size_foldl_modify _ Prod.fst (fun (e : Nat × T) y => y - e.2 * x.getD j 0) x).trans hsize

theorem solveUpper_eq (h : Indexed A F) {b : Array T} (hb : b.size = A.cols) :
    solveUpper F.lower b = some (Factorization.solveUpper F.lower b) ∧
      (Factorization.solveUpper F.lower b).size = A.cols := by
  refine foldlM_eq (fun x : Array T => x.size = A.cols) hb fun x j hj hsize => ?_
  rw [List.mem_reverse, List.mem_range, hb] at hj
  have hcols : j < F.lower.cols := by
    rw [h.shape.room.cols_eq, h.sorted.cols_eq]
    exact hj
  obtain ⟨hsum, -⟩ := foldlM_eq (f := fun s (e : Nat × T) => do return s + e.2 * (← x[e.1]?))
    (g := fun s e => s + e.2 * x.getD e.1 0) (fun _ => True) (l := F.lower.column j) (b := 0) trivial fun s e he _ => by
      obtain ⟨p, hp, rfl⟩ := List.mem_map.mp he
      have hrow := h.rows p (h.shape.room.size_rowIdx.symm ▸ h.shape.room.lt_size hcols hp)
      rw [get_eq (hsize.symm ▸ hrow) 0]
      exact ⟨rfl, trivial⟩
  rw [column_eq h.shape.room.toLayout hcols]
  simp only [Option.bind_eq_bind, Option.bind_some]
  exact ⟨(congrArg (Option.bind · _) hsum).trans (modify_eq (hsize.symm ▸ hj) _), Array.size_modify.trans hsize⟩

theorem solve (h : Indexed A F) {b : Array T} (hb : b.size = A.cols) : solve F b = some (F.solve b) := by
  have hdim := h.dim_eq
  have hdiagInv : F.diagInv.size = A.cols := h.shape.size_diagInv.trans h.sorted.cols_eq
  have hgather : F.perm.toList.mapM (b[·]?) = some (F.perm.toList.map (b.getD · 0)) :=
    mapM_get_eq (fun i hi => hb.symm ▸ h.order.lt_of_mem_perm hi) 0
  have hsize : (F.perm.toList.map (b.getD · 0)).toArray.size = A.cols := by
    rw [List.size_toArray, List.length_map, Array.length_toList, h.order.size_perm]
  obtain ⟨hlower, hlowerSize⟩ := h.solveLower_eq hsize
  have hproduct : (Array.zipWith (· * ·) (Factorization.solveLower F.lower (F.perm.toList.map (b.getD · 0)).toArray)
      F.diagInv).size = A.cols := by
    rw [Array.size_zipWith, hlowerSize, hdiagInv, Nat.min_self]
  obtain ⟨hupper, hupperSize⟩ := h.solveUpper_eq hproduct
  have hscatter := mapM_get_eq (l := F.inverse.toList) (fun i hi => hupperSize.symm ▸ h.order.symm.lt_of_mem_perm hi) 0
  rw [Checked.solve, require_eq (hb.trans hdim.symm), hgather]
  simp only [Option.bind_eq_bind, Option.bind_some, hlower, require_eq (hlowerSize.trans hdiagInv.symm), hupper, hscatter]
  simp only [Factorization.solve, Factorization.solvePermuted, ← List.map_toArray, Array.toArray_toList]
  rfl

theorem size_solve (h : Indexed A F) (b : Array T) : (F.solve b).size = A.cols := by
  rw [Factorization.solve, Array.size_map, h.order.size_inverse]

/-! ### Construction -/

/-- The pattern of factors has zeros in the place of rows. -/
theorem analyze (hA : WellFormed A) (hupper : A.Upper) {perm inverse : Array Nat} (horder : Permutes perm inverse A.cols) :
    Indexed A (Factorization.analyze A perm inverse) := by
  have hfitted := @Factorization.fitted_analyze _ A _ hA.toLayout hupper perm inverse horder.inverse_lt
  refine { hfitted with order := horder, rows := fun p hp => ?_ }
  obtain ⟨j, hj, -⟩ := hfitted.shape.room.exists_column (hfitted.shape.room.size_rowIdx ▸ hp)
  have hcols : (Factorization.analyze A perm inverse).lower.cols = A.cols := rfl
  have hzero : (Factorization.analyze A perm inverse).lower.rowAt p = 0 := by
    rw [Factorization.analyze_eq, rowAt]
    exact (getD_replicate ..).trans (ite_self 0)
  rw [hzero]
  omega

end Indexed

/-- Factors of a matrix, in the order that is chosen to keep them sparse. -/
def ofMatrix [Elimination.Rule] (A : SparseMatrix T) (denseScale : Float) :
    Option (Except FactorError (Factorization T)) := do
  match Factorization.checkStructure A (← A.isUpper?) with
  | .error e => return .error e
  | .ok () =>
    match Factorization.chooseOrder A none denseScale with
    | .error e => return .error e
    | .ok perm =>
      match invertPermutation? perm with
      | none => return .error .invalidPermutation
      | some inverse =>
        let out ← refactor (← analyze A perm inverse)
        return out.2.map fun _ => out.1

theorem ofMatrix_eq [Elimination.Rule] (hA : WellFormed A) (hupper : A.Upper) {denseScale : Float}
    (horder : (Elimination.Rule.order (Elimination.graph A) denseScale).Perm (List.range A.cols)) :
    ofMatrix A denseScale = some (Factorization.ofMatrix A none denseScale) ∧
      ∀ F, Factorization.ofMatrix A none denseScale = .ok F → Indexed A F := by
  rw [ofMatrix, Factorization.isUpper?_eq_some hA.toLayout hupper, ← Factorization.isUpper_eq_true hupper]
  simp only [Option.bind_eq_bind, Option.bind_some]
  cases hcheck : Factorization.checkStructure A A.isUpper with
  | error e =>
      have hmodel : Factorization.ofMatrix A none denseScale = .error e := by
        rw [Factorization.ofMatrix, hcheck]
        rfl
      rw [hmodel]
      exact ⟨rfl, fun F hF => by cases hF⟩
  | ok u =>
      cases hchoose : Factorization.chooseOrder A none denseScale with
      | error e =>
          have hmodel : Factorization.ofMatrix A none denseScale = .error e := by
            rw [Factorization.ofMatrix, hcheck, hchoose]
            rfl
          rw [hmodel]
          exact ⟨rfl, fun F hF => by cases hF⟩
      | ok perm =>
          have hperm := Factorization.eq_order_of_chooseOrder hchoose
          have hsize : perm.size = A.cols := by
            rw [← hperm, List.size_toArray, horder.length_eq, List.length_range]
          obtain ⟨inverse, hinverse, hpermutes⟩ := @exists_invertPermutation perm (by
            rw [hsize, ← hperm]
            exact horder)
          rw [hsize] at hpermutes
          obtain ⟨hrefactor, hindexed⟩ := (Indexed.analyze hA hupper hpermutes).refactor
          rw [Factorization.ofMatrix_eq_ofPermutation hcheck hchoose hinverse]
          simp only [hinverse, analyze_eq hA.toLayout hupper hpermutes.inverse_lt hpermutes.size_inverse,
            Option.bind_some, hrefactor]
          refine ⟨rfl, fun F hF => ?_⟩
          obtain ⟨-, -, rfl⟩ := map_eq_ok.mp hF
          exact hindexed

end Operations

end AugLag.Checked
