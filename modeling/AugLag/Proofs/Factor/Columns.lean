import AugLag.Proofs.Factor.Pivots
import AugLag.Proofs.Factor.Tree
import AugLag.Proofs.Sparse.Entry
import AugLag.Factor.Numeric

/-!
# The columns of a factor in the making

Every column of the factor has room for the rows that the elimination tree foresees. It is filled from its first
slot on, and putting an entry into the next free slot leaves what the other columns hold as it is.
-/

namespace AugLag

open EliminationTree

/-! ## Room for the columns -/

variable {T : Type}

namespace SparseMatrix

/-- The columns of `L` have room for the rows that the tree of `A` foresees. -/
structure Room (A : SparseMatrix T) (tree : EliminationTree) (L : SparseMatrix T) : Prop extends Layout L where
  square : L.rows = A.cols
  cols_eq : L.cols = A.cols
  stop_eq : ∀ c < A.cols, L.stop c = L.first c + (rowsOf A tree c A.cols).length

/-- All columns are full, with their rows in order. -/
structure Full (A : SparseMatrix T) (tree : EliminationTree) (L : SparseMatrix T) : Prop extends Room A tree L where
  rows_eq : ∀ c < A.cols, (L.slots c).map L.rowAt = rowsOf A tree c A.cols

namespace Room

variable {A L L' : SparseMatrix T} {tree : EliminationTree}

/-- The room for the columns tells where they begin. -/
theorem first_eq (h : Room A tree L) (h' : Room A tree L') {j : Nat} (hj : j ≤ A.cols) : L.first j = L'.first j := by
  induction j with
  | zero => exact h.first_zero.trans h'.first_zero.symm
  | succ j ih => rw [first_succ, first_succ, h.stop_eq j hj, h'.stop_eq j hj, ih (by omega)]

theorem slots_eq (h : Room A tree L) (h' : Room A tree L') {c : Nat} (hc : c < A.cols) : L.slots c = L'.slots c := by
  rw [slots, slots, ← first_succ, ← first_succ, h.first_eq h' hc.le, h.first_eq h' hc]

/-- Matrices with the same room are equal if their columns are. -/
theorem ext [Scalar T] (h : Room A tree L) (h' : Room A tree L') (hcolumn : ∀ c < A.cols, L.column c = L'.column c) :
    L = L' :=
  h.toLayout.ext h'.toLayout (h.square.trans h'.square.symm) (h.cols_eq.trans h'.cols_eq.symm) fun c hc =>
    hcolumn c (h'.cols_eq ▸ hc)

end Room

namespace Full

variable {A L : SparseMatrix T} {tree : EliminationTree}

theorem withValues (h : Full A tree L) {values : Array T} (hs : values.size = L.values.size) :
    Full A tree { L with values } :=
  { h.toLayout.withValues hs with
    square := h.square
    cols_eq := h.cols_eq
    stop_eq := h.stop_eq
    rows_eq := h.rows_eq }

theorem nodup_rows (h : Full A tree L) {c : Nat} (hc : c < A.cols) : ((L.slots c).map L.rowAt).Nodup := by
  rw [h.rows_eq c hc]
  exact List.nodup_range.filter _

/-- Every row that reaches a column has its slot there. -/
theorem exists_slot (h : Full A tree L) {i c : Nat} (hc : c < A.cols) (hi : i < A.cols) (hreach : Reaches A tree i c) :
    ∃ p ∈ L.slots c, L.rowAt p = i := by
  have hmem : i ∈ (L.slots c).map L.rowAt := by
    rw [h.rows_eq c hc]
    exact mem_rowsOf.mpr ⟨hi, hreach⟩
  obtain ⟨p, hp, hrow⟩ := List.mem_map.mp hmem
  exact ⟨p, hp, hrow⟩

theorem row_reaches (h : Full A tree L) {c p : Nat} (hc : c < A.cols) (hp : p ∈ L.slots c) :
    L.rowAt p < A.cols ∧ Reaches A tree (L.rowAt p) c := by
  have hmem := List.mem_map_of_mem (f := L.rowAt) hp
  rw [h.rows_eq c hc] at hmem
  exact mem_rowsOf.mp hmem

end Full

end SparseMatrix

/-! ## Filling the columns -/

namespace Factorization

open SparseMatrix

variable [Scalar T] {A : SparseMatrix T} {tree : EliminationTree}

/-- The entries that column `c` holds so far. -/
def Progress.filled (s : Progress T) (c : Nat) : List (Nat × T) :=
  (List.range' (s.lower.first c) (s.next.getD c 0 - s.lower.first c)).map fun p => (s.lower.rowAt p, s.lower.valueAt p)

/-- Column `c` holds its entries in rows below `height c`, in the order of the rows. -/
structure Progress.Fills (A : SparseMatrix T) (tree : EliminationTree) (s : Progress T) (height : Nat → Nat) : Prop
    where
  room : Room A tree s.lower
  size_next : s.next.size = A.cols
  height_le : ∀ c < A.cols, height c ≤ A.cols
  next_eq : ∀ c < A.cols, s.next.getD c 0 = s.lower.first c + (rowsOf A tree c (height c)).length
  rows_eq : ∀ c < A.cols, (s.filled c).map Prod.fst = rowsOf A tree c (height c)

/-- Puts the entry of row `k` into the next free slot of column `c`. -/
def Progress.push (s : Progress T) (k c : Nat) (l : T) : Progress T :=
  { s with
    lower := { s.lower with
      rowIdx := s.lower.rowIdx.setIfInBounds (s.next.getD c 0) k
      values := s.lower.values.setIfInBounds (s.next.getD c 0) l }
    next := s.next.modify c (· + 1) }

namespace Progress.Fills

variable {s : Progress T} {height : Nat → Nat}

theorem congr (h : Fills A tree s height) {height' : Nat → Nat} (heq : ∀ c, height c = height' c) :
    Fills A tree s height' :=
  funext heq ▸ h

theorem filled_eq_nil (h : Fills A tree s height) {c : Nat} (hc : A.cols ≤ c) : s.filled c = [] := by
  rw [filled, getD_of_size_le _ (by rw [h.size_next]; exact hc), Nat.zero_sub]
  rfl

/-- A slot that is filled belongs to its column. -/
theorem mem_slots_of_lt (h : Fills A tree s height) {c p : Nat} (hc : c < A.cols) (hfirst : s.lower.first c ≤ p)
    (hp : p < s.next.getD c 0) : p ∈ s.lower.slots c := by
  have hle := length_rowsOf_mono A tree c (h.height_le c hc)
  rw [mem_slots, h.room.stop_eq c hc]
  rw [h.next_eq c hc] at hp
  omega

section Push

variable {k c : Nat}

/-- The next free slot of a column that row `k` reaches belongs to the column. -/
theorem next_mem_slots (h : Fills A tree s height) (hc : c < A.cols) (hk : k < A.cols) (hheight : height c = k)
    (hreach : Reaches A tree k c) : s.next.getD c 0 ∈ s.lower.slots c := by
  have hle := length_rowsOf_mono A tree c (Nat.succ_le_of_lt hk)
  rw [rowsOf_succ_of_reaches hreach, List.length_append, List.length_singleton] at hle
  rw [mem_slots, h.next_eq c hc, h.room.stop_eq c hc, hheight]
  omega

/-- Writing into the next free slot of a column leaves the filled slots of all columns alone. -/
theorem getD_push {α : Type} (h : Fills A tree s height) (hc : c < A.cols) (hslot : s.next.getD c 0 ∈ s.lower.slots c)
    {c' p : Nat} (hc' : c' < A.cols) (hfirst : s.lower.first c' ≤ p) (hp : p < s.next.getD c' 0) (v : Array α) (x d : α) :
    (v.setIfInBounds (s.next.getD c 0) x).getD p d = v.getD p d := by
  refine getD_setIfInBounds_of_ne _ _ _ ?_
  rintro rfl
  have hmem := h.mem_slots_of_lt hc' hfirst hp
  rw [← h.room.cols_eq] at hc hc'
  obtain rfl := h.room.column_unique hc' hc hmem hslot
  exact absurd hp (lt_irrefl _)

theorem filled_push_of_ne (h : Fills A tree s height) (hc : c < A.cols) (hslot : s.next.getD c 0 ∈ s.lower.slots c)
    (l : T) {c' : Nat} (hne : c' ≠ c) : (s.push k c l).filled c' = s.filled c' := by
  have hnext : (s.push k c l).next.getD c' 0 = s.next.getD c' 0 := getD_modify_of_ne _ _ _ hne.symm
  by_cases hc' : c' < A.cols
  · rw [filled, hnext, filled]
    refine List.map_congr_left fun p hp => ?_
    rw [List.mem_range'_1] at hp
    have hp₁ : s.lower.first c' ≤ p := hp.1
    have hp₂ : p < s.next.getD c' 0 := by
      have hp₃ : p < s.lower.first c' + (s.next.getD c' 0 - s.lower.first c') := hp.2
      omega
    exact Prod.ext (h.getD_push hc hslot hc' hp₁ hp₂ _ _ _) (h.getD_push hc hslot hc' hp₁ hp₂ _ _ _)
  · rw [filled, hnext, h.filled_eq_nil (not_lt.mp hc')]
    rw [getD_of_size_le _ (by rw [h.size_next]; omega), Nat.zero_sub]
    rfl

theorem filled_push_self (h : Fills A tree s height) (hc : c < A.cols) (hslot : s.next.getD c 0 ∈ s.lower.slots c)
    (l : T) : (s.push k c l).filled c = s.filled c ++ [(k, l)] := by
  have hle : s.lower.first c ≤ s.next.getD c 0 := (mem_slots.mp hslot).1
  have hnext : (s.push k c l).next.getD c 0 = s.next.getD c 0 + 1 :=
    getD_modify_self _ (by rw [h.size_next]; exact hc) _ _
  have hsize : s.next.getD c 0 < s.lower.values.size :=
    h.room.lt_size (by rw [h.room.cols_eq]; exact hc) hslot
  have hlast : ((s.push k c l).lower.rowAt (s.next.getD c 0), (s.push k c l).lower.valueAt (s.next.getD c 0)) = (k, l) := by
    refine Prod.ext ?_ ?_
    · exact getD_setIfInBounds_self _ (by rw [h.room.size_rowIdx]; exact hsize) _ _
    · exact getD_setIfInBounds_self _ hsize _ _
  have hlen : s.next.getD c 0 + 1 - s.lower.first c = s.next.getD c 0 - s.lower.first c + 1 := by omega
  have hend : s.lower.first c + (s.next.getD c 0 - s.lower.first c) = s.next.getD c 0 := by omega
  have hfirst : (s.push k c l).lower.first c = s.lower.first c := rfl
  rw [filled, hnext, hfirst, hlen, List.range'_1_concat, List.map_append, List.map_singleton, hend, hlast, filled]
  refine congrArg (· ++ [(k, l)]) (List.map_congr_left fun p hp => ?_)
  rw [List.mem_range'_1] at hp
  have hp₂ : p < s.next.getD c 0 := by omega
  exact Prod.ext (h.getD_push hc hslot hc hp.1 hp₂ _ _ _) (h.getD_push hc hslot hc hp.1 hp₂ _ _ _)

/-- The column is filled up to and including row `k`. -/
theorem push_fills (h : Fills A tree s height) (hc : c < A.cols) (hk : k < A.cols) (hheight : height c = k)
    (hreach : Reaches A tree k c) (l : T) : Fills A tree (s.push k c l) (Function.update height c (k + 1)) := by
  have hslot := h.next_mem_slots hc hk hheight hreach
  have hgrow := rowsOf_succ_of_reaches hreach
  refine
    { room :=
        { h.room.toLayout.withArrays Array.size_setIfInBounds Array.size_setIfInBounds with
          square := h.room.square
          cols_eq := h.room.cols_eq
          stop_eq := h.room.stop_eq }
      size_next := Array.size_modify.trans h.size_next
      height_le := fun c' hc' => ?_, next_eq := fun c' hc' => ?_, rows_eq := fun c' hc' => ?_ }
  · by_cases heq : c' = c
    · rw [heq, Function.update_self]
      exact hk
    · rw [Function.update_of_ne heq]
      exact h.height_le c' hc'
  · by_cases heq : c' = c
    · subst heq
      rw [Function.update_self, hgrow, List.length_append, List.length_singleton, ← hheight]
      refine (getD_modify_self _ (by rw [h.size_next]; exact hc) _ _).trans ?_
      rw [h.next_eq c' hc]
      rfl
    · rw [Function.update_of_ne heq]
      exact (getD_modify_of_ne _ _ _ (Ne.symm heq)).trans (h.next_eq c' hc')
  · by_cases heq : c' = c
    · subst heq
      rw [h.filled_push_self hc hslot, Function.update_self, hgrow, List.map_append, h.rows_eq c' hc, hheight]
      rfl
    · rw [h.filled_push_of_ne hc hslot l heq, Function.update_of_ne heq]
      exact h.rows_eq c' hc'

end Push

end Progress.Fills
end Factorization

/-! ## The numbers that a factor holds -/

variable {K : Type} [ExactScalar K]

namespace SparseMatrix

/-- The symmetric table of which the upper triangle is stored. -/
def sym (M : SparseMatrix K) (i j : Nat) : K := if i ≤ j then M.entry i j else M.entry j i

theorem sym_of_le {M : SparseMatrix K} {i j : Nat} (h : i ≤ j) : M.sym i j = M.entry i j := if_pos h

theorem sym_comm (M : SparseMatrix K) (i j : Nat) : M.sym i j = M.sym j i := by
  unfold sym
  rcases Nat.lt_trichotomy i j with hlt | rfl | hgt
  · rw [if_pos hlt.le, if_neg (by omega)]
  · rfl
  · rw [if_neg (by omega), if_pos hgt.le]

/-- A loop that subtracts a multiple of a column from a vector. -/
theorem getD_foldl_sub (entries : List (Nat × K)) (c : K) (y : Array K) {i : Nat} (hi : i < y.size) :
    (entries.foldl (fun y e => y.modify e.1 (· - e.2 * c)) y).getD i 0 = y.getD i 0 - sumAt i entries * c := by
  induction entries generalizing y with
  | nil => simp
  | cons e entries ih =>
      rw [List.foldl_cons, ih _ (by rwa [Array.size_modify]), getD_modify, sumAt_cons]
      by_cases he : e.1 = i
      · rw [if_pos ⟨he, hi⟩, if_pos he]
        ring
      · rw [if_neg fun h => he h.1, if_neg he, zero_add]

/-- The entries of a triangular matrix whose unit diagonal is not stored. -/
def unit (L : SparseMatrix K) (i c : Nat) : K := if i = c then 1 else L.entry i c

theorem unit_of_ne (L : SparseMatrix K) {i c : Nat} (h : i ≠ c) : L.unit i c = L.entry i c := if_neg h

namespace Full

variable {A L : SparseMatrix K} {tree : EliminationTree}

theorem entry_eq_zero (h : Full A tree L) {i c : Nat} (hic : ¬Reaches A tree i c) : L.entry i c = 0 := by
  refine SparseMatrix.entry_eq_zero fun p hp heq => hic ?_
  by_cases hc : c < A.cols
  · exact heq ▸ (h.row_reaches hc hp).2
  · rw [h.slots_of_le (by rw [h.cols_eq]; omega)] at hp
    exact absurd hp List.not_mem_nil

theorem entry_of_le (h : Full A tree L) {i c : Nat} (hic : i ≤ c) : L.entry i c = 0 :=
  h.entry_eq_zero fun hreach => absurd hreach.lt (not_lt.mpr hic)

theorem unitLower (h : Full A tree L) : UnitLower L.unit where
  one i := if_pos rfl
  zero i t hit := by
    rw [unit_of_ne L hit.ne]
    exact h.entry_of_le hit.le

/-- New values in the slots of one column leave the other columns as they were. -/
theorem unit_withValues_of_ne (h : Full A tree L) {values : Array K} {j t : Nat}
    (hj : j < A.cols) (htj : t ≠ j) (hrest : ∀ p, p ∉ L.slots j → values.getD p 0 = L.valueAt p) (i : Nat) :
    SparseMatrix.unit { L with values } i t = L.unit i t := by
  refine congrArg (fun x => if i = t then (1 : K) else x) (congrArg (sumAt i) (List.map_congr_left fun p hp => ?_))
  refine congrArg (L.rowAt p, ·) (hrest p fun hpj => htj ?_)
  change p ∈ L.slots t at hp
  by_cases ht : t < A.cols
  · rw [← h.cols_eq] at ht hj
    exact h.column_unique ht hj hp hpj
  · rw [h.slots_of_le (by rw [h.cols_eq]; omega)] at hp
    exact absurd hp List.not_mem_nil

end Full

end SparseMatrix

namespace Factorization

open SparseMatrix

/-- Nothing is stored outside of the rows that are foreseen. -/
theorem Progress.Fills.sumAt_eq_zero {A : SparseMatrix K} {tree : EliminationTree} {s : Progress K}
    {height : Nat → Nat} (h : s.Fills A tree height) {i c : Nat} (hic : c < A.cols → i < height c → ¬Reaches A tree i c) :
    sumAt i (s.filled c) = 0 := by
  by_cases hc : c < A.cols
  · refine SparseMatrix.sumAt_eq_zero fun e he heq => ?_
    have hmem : i ∈ rowsOf A tree c (height c) := by
      rw [← h.rows_eq c hc, ← heq]
      exact List.mem_map_of_mem he
    obtain ⟨hlt, hreach⟩ := mem_rowsOf.mp hmem
    exact hic hc hlt hreach
  · rw [h.filled_eq_nil (not_lt.mp hc), sumAt_nil]

end Factorization
end AugLag
