import AugLag.Proofs.Factor.Numeric
import AugLag.Proofs.Factor.Scratch

/-!
# Factorization in place

A factorization works in arrays that outlive it: a dense row and the marks of the columns on the paths of the row. They
are cleared when it starts, and each column that is eliminated from a row cleans up after itself, so that the next row
finds them cleared again. A computation in place therefore gives the factors that `refactor` gives, whatever was left in
the arrays. The slots of the factor that it writes are listed; they are the slots of each column in order.
-/

namespace AugLag.Factorization

open EliminationTree SparseMatrix Progress

/-- The arrays in which factors are computed, with whatever was left in them. -/
structure Buffers (T : Type) where
  y : Array T
  marked : Array Bool

/-- A computation of factors in place, with the columns and slots of the factor written so far. -/
structure InPlace (T : Type) extends Progress T where
  y : Array T
  marked : Array Bool
  written : List (Nat × Nat)

variable {T : Type} [Scalar T]

namespace InPlace

/-- Takes up a slot of column `k`: the pivot, or an entry of the row and the path that leads up from it. -/
def load (A : SparseMatrix T) (tree : EliminationTree) (k : Nat) (acc : InPlace T × List Nat) (p : Nat) :
    InPlace T × List Nat :=
  let (s, pattern) := acc
  let i := A.rowAt p
  if i = k then ({ s with diag := s.diag.setIfInBounds k (A.valueAt p) }, pattern)
  else
    let (marked, path) := tree.path k (k + 1) s.marked i
    ({ s with y := s.y.setIfInBounds i (A.valueAt p), marked }, path ++ pattern)

/-- Eliminates column `c` from row `k`, and clears its place in the row and its mark. -/
def eliminate (k : Nat) (s : InPlace T) (c : Nat) : InPlace T :=
  let yc := s.y.getD c 0
  let slot := s.next.getD c 0
  let y := (List.range' (s.lower.first c) (slot - s.lower.first c)).foldl
    (fun y p => y.modify (s.lower.rowAt p) (· - s.lower.valueAt p * yc)) s.y
  let l := yc * s.diagInv.getD c 0
  { s with
    lower := { s.lower with
      rowIdx := s.lower.rowIdx.setIfInBounds slot k
      values := s.lower.values.setIfInBounds slot l }
    diag := s.diag.modify k (· - yc * l)
    next := s.next.modify c (· + 1)
    y := y.setIfInBounds c 0
    marked := s.marked.setIfInBounds c false
    written := s.written ++ [(c, slot)] }

def computeRow (A : SparseMatrix T) (tree : EliminationTree) (s : InPlace T) (k : Nat) : InPlace T × T :=
  let (s, pattern) := (A.slots k).foldl (load A tree k) ({ s with diag := s.diag.setIfInBounds k 0 }, [])
  let s := pattern.foldl (eliminate k) s
  (s, s.diag.getD k 0)

def computeRows (A : SparseMatrix T) (tree : EliminationTree) :
    List Nat → InPlace T → InPlace T × Except FactorError Unit
  | [], s => (s, .ok ())
  | k :: rest, s =>
    let (s, pivot) := computeRow A tree s k
    if pivot == 0 || !Scalar.isFinite pivot then (s, .error .zeroPivot)
    else
      computeRows A tree rest
        { s with
          diagInv := s.diagInv.setIfInBounds k (Scalar.recip pivot)
          positive := if 0 < pivot then s.positive + 1 else s.positive }

/-- The columns are laid out anew by the counts of the tree, and the buffers are cleared. -/
def start (F : Factorization T) (b : Buffers T) : InPlace T :=
  let colPtr := (List.range F.dim).foldl
    (fun ptr j => ptr.setIfInBounds (j + 1) (ptr.getD j 0 + F.tree.count.getD j 0)) (F.lower.colPtr.setIfInBounds 0 0)
  { lower := { F.lower with colPtr }
    diag := F.diag
    diagInv := F.diagInv
    next := colPtr.pop
    positive := 0
    y := b.y.map fun _ => 0
    marked := b.marked.map fun _ => false
    written := [] }

end InPlace

/-- Factors the stored values from scratch in the given buffers. -/
def computeIn (F : Factorization T) (b : Buffers T) : InPlace T × Except FactorError Unit :=
  InPlace.computeRows F.stored.matrix F.tree (List.range F.dim) (InPlace.start F b)

/-- The factors that a computation in place leaves. -/
def refactorIn (F : Factorization T) (b : Buffers T) : Factorization T × Except FactorError Unit :=
  let (s, outcome) := F.computeIn b
  ({ F with
      lower := s.lower
      diag := s.diag
      diagInv := s.diagInv
      positive := match outcome with
        | .ok () => s.positive
        | .error _ => 0 }, outcome)

/-- The buffers have a place for every column. -/
structure Buffers.Fit (b : Buffers T) (F : Factorization T) : Prop where
  size_y : b.y.size = F.dim
  size_marked : b.marked.size = F.dim

variable {A : SparseMatrix T} {tree : EliminationTree} {k : Nat}

/-! ## Paths -/

/-- Only the marks below row `k` matter for a path. -/
theorem path_congr (fuel : Nat) {marks marks' : Array Bool} {i : Nat} (hsize : k ≤ marks.size) (hsize' : k ≤ marks'.size)
    (h : ∀ c < k, marks'.getD c true = marks.getD c true) :
    (tree.path k fuel marks' i).2 = (tree.path k fuel marks i).2 ∧
      ∀ c < k, (tree.path k fuel marks' i).1.getD c true = (tree.path k fuel marks i).1.getD c true := by
  induction fuel generalizing marks marks' i with
  | zero => exact ⟨rfl, h⟩
  | succ fuel ih =>
      unfold path
      by_cases hik : i < k
      · rw [h i hik]
        split
        · have hset : ∀ c < k, (marks'.setIfInBounds i true).getD c true = (marks.setIfInBounds i true).getD c true := by
            intro c hc
            rw [getD_setIfInBounds, getD_setIfInBounds, h c hc]
            by_cases hic : i = c
            · rw [if_pos ⟨hic, by omega⟩, if_pos ⟨hic, by omega⟩]
            · rw [if_neg fun hand => hic hand.1, if_neg fun hand => hic hand.1]
          cases tree.parentOf i with
          | none => exact ⟨rfl, hset⟩
          | some above =>
              obtain ⟨hlist, hmarks⟩ := @ih (marks.setIfInBounds i true) (marks'.setIfInBounds i true) above
                (by rwa [Array.size_setIfInBounds]) (by rwa [Array.size_setIfInBounds]) hset
              exact ⟨congrArg (i :: ·) hlist, hmarks⟩
        · exact ⟨rfl, h⟩
      · simp only [hik, decide_false, Bool.false_and]
        exact ⟨rfl, h⟩

/-- A path marks nothing from row `k` on. -/
theorem getD_path_of_le (fuel : Nat) (marks : Array Bool) (i : Nat) {c : Nat} (hc : k ≤ c) (d : Bool) :
    (tree.path k fuel marks i).1.getD c d = marks.getD c d := by
  induction fuel generalizing marks i with
  | zero => rfl
  | succ fuel ih =>
      unfold path
      split
      · next hgo =>
          simp only [Bool.and_eq_true, decide_eq_true_eq] at hgo
          have hset : (marks.setIfInBounds i true).getD c d = marks.getD c d :=
            getD_setIfInBounds_of_ne _ _ _ (by omega)
          cases tree.parentOf i with
          | none => exact hset
          | some above => exact (ih _ _).trans hset
      · rfl

/-! ## Taking up a column -/

namespace InPlace

/-- Some slots of column `k` are taken up, from a state `s₀`. In comparison, the row is spread out in a new array and
the paths are marked in a new one. -/
structure Loading (A : SparseMatrix T) (k : Nat) (s₀ : InPlace T) (acc : InPlace T × List Nat) (r : Row T)
    (reached : Array Bool × List Nat) : Prop where
  progress : acc.1.toProgress = { s₀.toProgress with diag := s₀.diag.setIfInBounds k r.pivot }
  written_eq : acc.1.written = s₀.written
  y_eq : acc.1.y = r.y
  pattern_eq : acc.2 = reached.2
  size_marked : acc.1.marked.size = A.cols
  size_reached : reached.1.size = k
  marked : ∀ c < k, acc.1.marked.getD c true = reached.1.getD c true
  unmarked : ∀ c, k ≤ c → acc.1.marked.getD c false = false

theorem load_pivot (s : InPlace T) (pattern : List Nat) {p : Nat} (hrow : A.rowAt p = k) :
    load A tree k (s, pattern) p = ({ s with diag := s.diag.setIfInBounds k (A.valueAt p) }, pattern) := if_pos hrow

theorem load_entry (s : InPlace T) (pattern : List Nat) {p : Nat} (hrow : A.rowAt p ≠ k) :
    load A tree k (s, pattern) p =
      ({ s with
          y := s.y.setIfInBounds (A.rowAt p) (A.valueAt p)
          marked := (tree.path k (k + 1) s.marked (A.rowAt p)).1 },
        (tree.path k (k + 1) s.marked (A.rowAt p)).2 ++ pattern) := if_neg hrow

theorem Loading.load {N : Nat} (hN : Accounts A tree N) (hk : k < A.cols) {s₀ : InPlace T}
    {acc : InPlace T × List Nat} {r : Row T} {reached : Array Bool × List Nat} (h : Loading A k s₀ acc r reached) (p : Nat) :
    Loading A k s₀ (load A tree k acc p)
      (if A.rowAt p = k then { r with pivot := A.valueAt p } else { r with y := r.y.setIfInBounds (A.rowAt p) (A.valueAt p) })
      (if A.rowAt p ≠ k then
        ((tree.path k (k + 1) reached.1 (A.rowAt p)).1, (tree.path k (k + 1) reached.1 (A.rowAt p)).2 ++ reached.2)
      else reached) := by
  obtain ⟨s, pattern⟩ := acc
  by_cases hrow : A.rowAt p = k
  · rw [load_pivot s pattern hrow, if_pos hrow, if_neg (not_not.mpr hrow)]
    refine { h with progress := ?_ }
    have hprogress := h.progress
    simp only at hprogress ⊢
    rw [hprogress, Array.setIfInBounds_setIfInBounds]
  · rw [load_entry s pattern hrow, if_neg hrow, if_pos hrow]
    have hmarked : s.marked.size = A.cols := h.size_marked
    obtain ⟨hlist, hmarks⟩ := @path_congr tree k (k + 1) reached.1 s.marked (A.rowAt p) h.size_reached.ge
      (hmarked ▸ hk.le) h.marked
    have hsize := (@path_spec _ A tree k N hN (k + 1) s.marked (A.rowAt p) (by omega)).size_eq
    have hsize' := (@path_spec _ A tree k N hN (k + 1) reached.1 (A.rowAt p) (by omega)).size_eq
    exact
      { progress := h.progress
        written_eq := h.written_eq
        y_eq := congrArg (fun y : Array T => y.setIfInBounds (A.rowAt p) (A.valueAt p)) h.y_eq
        pattern_eq := by
          show (tree.path k (k + 1) s.marked (A.rowAt p)).2 ++ pattern = _
          rw [hlist, show pattern = reached.2 from h.pattern_eq]
        size_marked := hsize.trans h.size_marked
        size_reached := hsize'.trans h.size_reached
        marked := hmarks
        unmarked := fun c hc => (getD_path_of_le _ _ _ hc _).trans (h.unmarked c hc) }

/-- The whole column is taken up: the row is the one that is spread out, and the stack holds the columns it reaches. -/
theorem Loading.foldl {N : Nat} (hN : Accounts A tree N) (hk : k < A.cols) (slots : List Nat) {s₀ : InPlace T}
    {acc : InPlace T × List Nat} {r : Row T} {reached : Array Bool × List Nat} (h : Loading A k s₀ acc r reached) :
    Loading A k s₀ (slots.foldl (InPlace.load A tree k) acc)
      ((slots.map fun p => (A.rowAt p, A.valueAt p)).foldl (fun r e =>
        if e.1 = k then { r with pivot := e.2 } else { r with y := r.y.setIfInBounds e.1 e.2 }) r)
      (((slots.map A.rowAt).filter (· ≠ k)).foldl (fun acc i =>
        let p := tree.path k (k + 1) acc.1 i
        (p.1, p.2 ++ acc.2)) reached) := by
  induction slots generalizing acc r reached with
  | nil => exact h
  | cons p slots ih =>
      have hstep := ih (h.load hN hk p)
      rw [List.map_cons, List.map_cons, List.foldl_cons, List.foldl_cons]
      by_cases hrow : A.rowAt p = k
      · rw [if_neg (not_not.mpr hrow)] at hstep
        rw [List.filter_cons_of_neg (by simpa using hrow)]
        exact hstep
      · rw [if_pos hrow] at hstep
        rw [List.filter_cons_of_pos (by simpa using hrow)]
        exact hstep

/-! ## Eliminating columns -/

/-- The columns in `rest` are still to be eliminated. In comparison, the row and the pivot are kept apart and nothing is
cleared. -/
structure Clearing (A : SparseMatrix T) (k : Nat) (rest : List Nat) (acc : Progress T × Row T) (s : InPlace T) : Prop where
  progress : s.toProgress = { acc.1 with diag := acc.1.diag.setIfInBounds k acc.2.pivot }
  size_y : s.y.size = A.cols
  size_row : acc.2.y.size = A.cols
  y_rest : ∀ c ∈ rest, s.y.getD c 0 = acc.2.y.getD c 0
  y_zero : ∀ c, c ∉ rest → s.y.getD c 0 = 0
  size_marked : s.marked.size = A.cols
  unmarked : ∀ c, c ∉ rest → s.marked.getD c false = false

/-- The slots that were written into a column are its first ones, in order. -/
structure Logged (A : SparseMatrix T) (s : InPlace T) : Prop where
  inside : ∀ e ∈ s.written, e.1 < A.cols ∧ e.2 ∈ s.lower.slots e.1
  written_eq : ∀ c < A.cols, (s.written.filter fun e => e.1 = c).map Prod.snd =
    List.range' (s.lower.first c) (s.next.getD c 0 - s.lower.first c)

theorem setIfInBounds_modify (v : Array T) (k : Nat) (x : T) (f : T → T) :
    (v.setIfInBounds k x).modify k f = v.setIfInBounds k (f x) := by
  refine array_ext_getD 0 (by simp) fun i hi => ?_
  rw [getD_modify, getD_setIfInBounds, getD_setIfInBounds, Array.size_setIfInBounds]
  by_cases hik : k = i ∧ i < v.size
  · rw [if_pos hik, if_pos hik, if_pos hik]
  · rw [if_neg hik, if_neg hik, if_neg hik]

theorem eliminate_eq (k : Nat) (s : InPlace T) (c : Nat) :
    eliminate k s c =
      { s.toProgress.push k c (s.y.getD c 0 * s.diagInv.getD c 0) with
        diag := s.diag.modify k (· - s.y.getD c 0 * (s.y.getD c 0 * s.diagInv.getD c 0))
        y := ((s.filled c).foldl (fun y e => y.modify e.1 (· - e.2 * s.y.getD c 0)) s.y).setIfInBounds c 0
        marked := s.marked.setIfInBounds c false
        written := s.written ++ [(c, s.next.getD c 0)] } := by
  rw [filled, List.foldl_map]
  rfl

/-- A column leaves the stack. The rows that it holds so far are those of columns that are still to be eliminated. -/
theorem Clearing.eliminate {c : Nat} {rest : List Nat} {acc : Progress T × Row T} {s : InPlace T}
    (h : Clearing A k (c :: rest) acc s) (hcols : ∀ t ∈ c :: rest, t < A.cols) (hnew : c ∉ rest)
    (hrows : ∀ e ∈ acc.1.filled c, e.1 ∈ rest) : Clearing A k rest (eliminateColumn k acc c) (eliminate k s c) := by
  obtain ⟨P, r⟩ := acc
  have hyc : s.y.getD c 0 = r.y.getD c 0 := h.y_rest c List.mem_cons_self
  have hprogress : s.toProgress = { P with diag := P.diag.setIfInBounds k r.pivot } := h.progress
  have hfilled : s.filled c = P.filled c := by rw [hprogress]; rfl
  have hdiagInv : s.diagInv = P.diagInv := by rw [hprogress]
  have hsize : ((P.filled c).foldl (fun y e => y.modify e.1 (· - e.2 * r.y.getD c 0)) s.y).size = A.cols :=
    (size_foldl_modify ..).trans h.size_y
  have hfold : ∀ {y : Array T}, y.size = A.cols → ∀ t < A.cols,
      ((P.filled c).foldl (fun y e => y.modify e.1 (· - e.2 * r.y.getD c 0)) y).getD t 0 =
        ((P.filled c).filter fun e => e.1 = t).foldl (fun x e => x - e.2 * r.y.getD c 0) (y.getD t 0) :=
    fun hy t ht => getD_foldl_modify _ _ _ _ (by rw [hy]; exact ht) _
  rw [eliminate_eq, eliminateColumn_eq, hyc, hfilled, hdiagInv]
  refine { progress := ?_, size_y := Array.size_setIfInBounds.trans hsize, size_row := (size_foldl_modify ..).trans h.size_row,
           y_rest := fun t ht => ?_, y_zero := fun t ht => ?_, size_marked := Array.size_setIfInBounds.trans h.size_marked,
           unmarked := fun t ht => ?_ }
  · simp only [hprogress, setIfInBounds_modify]
    rfl
  · have htc : c ≠ t := fun heq => hnew (heq ▸ ht)
    have ht' := hcols t (List.mem_cons_of_mem _ ht)
    simp only
    rw [getD_setIfInBounds_of_ne _ _ _ htc, hfold h.size_y t ht', hfold h.size_row t ht',
      h.y_rest t (List.mem_cons_of_mem _ ht)]
  · simp only
    by_cases htc : c = t
    · rw [← htc, getD_setIfInBounds_self _ (by rw [hsize]; exact hcols c List.mem_cons_self)]
    · rw [getD_setIfInBounds_of_ne _ _ _ htc]
      have hout : t ∉ c :: rest := fun hmem => (List.mem_cons.mp hmem).elim (fun heq => htc heq.symm) ht
      by_cases ht' : t < A.cols
      · have hnone : (P.filled c).filter (fun e => e.1 = t) = [] :=
          List.filter_eq_nil_iff.mpr fun e he heq => ht (of_decide_eq_true heq ▸ hrows e he)
        rw [hfold h.size_y t ht', hnone, List.foldl_nil, h.y_zero t hout]
      · exact getD_of_size_le _ (by rw [hsize]; omega) 0
  · simp only
    by_cases htc : c = t
    · subst htc
      by_cases hsize : c < s.marked.size
      · exact getD_setIfInBounds_self _ hsize _ _
      · exact getD_of_size_le _ (by rw [Array.size_setIfInBounds]; exact not_lt.mp hsize) false
    · rw [getD_setIfInBounds_of_ne _ _ _ htc]
      exact h.unmarked t fun hmem => (List.mem_cons.mp hmem).elim (fun heq => htc heq.symm) ht

/-- The slot that is written is the next one of its column. -/
theorem Logged.eliminate {s : InPlace T} (h : Logged A s) {height : Nat → Nat} (hs : s.Fills A tree height) {c : Nat}
    (hc : c < A.cols) (hslot : s.next.getD c 0 ∈ s.lower.slots c) : Logged A (eliminate k s c) where
  inside e he := by
    rcases List.mem_append.mp he with hmem | hmem
    · exact h.inside e hmem
    · rw [List.mem_singleton.mp hmem]
      exact ⟨hc, hslot⟩
  written_eq t ht := by
    have hwritten : (InPlace.eliminate k s c).written = s.written ++ [(c, s.next.getD c 0)] := rfl
    have hfirst : (InPlace.eliminate k s c).lower.first t = s.lower.first t := rfl
    have hnext : (InPlace.eliminate k s c).next.getD t 0 = if t = c then s.next.getD c 0 + 1 else s.next.getD t 0 :=
      getD_modify_of_lt _ (by rw [hs.size_next]; exact hc) _ _ _
    rw [hwritten, hfirst, hnext, List.filter_append, List.map_append, h.written_eq t ht]
    by_cases hct : c = t
    · subst hct
      have hle : s.lower.first c ≤ s.next.getD c 0 := (mem_slots.mp hslot).1
      have hlen : s.next.getD c 0 + 1 - s.lower.first c = s.next.getD c 0 - s.lower.first c + 1 := by omega
      have hend : s.lower.first c + (s.next.getD c 0 - s.lower.first c) = s.next.getD c 0 := by omega
      rw [if_pos rfl, hlen, List.range'_1_concat, hend]
      simp
    · rw [if_neg (Ne.symm hct)]
      simp [hct]

/-- All columns leave the stack, descendants before their ancestors. -/
theorem Clearing.foldl (htree : Accounts A tree A.cols) (hk : k < A.cols) (rest : List Nat) {done : List Nat}
    {acc : Progress T × Row T} {s : InPlace T} (h : Clearing A k rest acc s) (hlog : Logged A s)
    (hfills : acc.1.Fills A tree fun c => if c ∈ done then k + 1 else k)
    (hreach : ∀ c, c ∈ done ++ rest ↔ Reaches A tree k c) (hnodup : (done ++ rest).Nodup)
    (horder : (done ++ rest).Pairwise fun a c => ¬Above tree a c) :
    Clearing A k [] (rest.foldl (eliminateColumn k) acc) (rest.foldl (InPlace.eliminate k) s) ∧
      Logged A (rest.foldl (InPlace.eliminate k) s) := by
  induction rest generalizing done acc s with
  | nil => exact ⟨h, hlog⟩
  | cons c rest ih =>
      have hmem : ∀ t ∈ c :: rest, Reaches A tree k t := fun t ht => (hreach t).mp (List.mem_append_right _ ht)
      have hc : Reaches A tree k c := hmem c List.mem_cons_self
      have hcols : ∀ t ∈ c :: rest, t < A.cols := fun t ht => (hmem t ht).lt.trans hk
      have hnew : c ∉ done := fun hdone => (List.nodup_append.mp hnodup).2.2 c hdone c List.mem_cons_self rfl
      have hheight : (if c ∈ done then k + 1 else k) = k := if_neg hnew
      -- Row `r` of column `c` is above it in the tree, so it is on the stack and not done yet.
      have hrows : ∀ e ∈ acc.1.filled c, e.1 ∈ rest := by
        intro e he
        have hrow := List.mem_map_of_mem (f := Prod.fst) he
        rw [hfills.rows_eq c (hcols c List.mem_cons_self), hheight, mem_rowsOf] at hrow
        obtain ⟨hlt, hrow⟩ := hrow
        have habove := htree.above_of_reaches (hlt.trans hk) hrow
        rcases List.mem_append.mp ((hreach e.1).mpr (htree.reaches_of_common (hlt.trans hk) hrow hc hlt)) with hin | hin
        · exact absurd habove ((List.pairwise_append.mp horder).2.2 e.1 hin c List.mem_cons_self)
        · rcases List.mem_cons.mp hin with heq | hin
          · exact absurd hrow.lt (by rw [heq]; exact lt_irrefl c)
          · exact hin
      have hfills' : s.Fills A tree fun c => if c ∈ done then k + 1 else k := by
        rw [h.progress]
        exact hfills.withDiag _ _ _
      have hslot := hfills'.next_mem_slots (hcols c List.mem_cons_self) hk hheight hc
      have hstep := h.eliminate hcols (List.nodup_cons.mp (List.nodup_append.mp hnodup).2.1).1 hrows
      have hlog' := hlog.eliminate hfills' (k := k) (hcols c List.mem_cons_self) hslot
      rw [List.foldl_cons, List.foldl_cons]
      rw [List.append_cons] at hreach hnodup horder
      refine ih hstep hlog' ?_ hreach hnodup horder
      rw [← update_height]
      obtain ⟨P, r⟩ := acc
      rw [eliminateColumn_eq]
      exact hfills.push_fills (hcols c List.mem_cons_self) hk hheight hc _

/-! ## Rows -/

/-- The buffers are as if they were new. -/
structure Cleared (A : SparseMatrix T) (s : InPlace T) : Prop where
  y_eq : s.y = Array.replicate A.cols 0
  marked_eq : s.marked = Array.replicate A.cols false

theorem size_spread (A : SparseMatrix T) (k : Nat) : (spread A k).y.size = A.cols := by
  rw [spread, foldl_spread, size_foldl_setIfInBounds, Array.size_replicate]

/-- Nothing is spread out where the row does not reach. -/
theorem spread_eq_zero {c : Nat} (hc : c ∉ rowsAbove A k) : (spread A k).y.getD c 0 = 0 := by
  rw [spread, foldl_spread]
  refine (getD_foldl_set_of_forall_ne _ _ _ _ _ fun e he heq => ?_).trans (by rw [getD_replicate, ite_self])
  obtain ⟨hmem, hne⟩ := List.mem_filter.mp he
  obtain ⟨p, hp, rfl⟩ := List.mem_map.mp hmem
  exact hc (List.mem_filter.mpr ⟨heq ▸ List.mem_map_of_mem hp, by simpa [← heq] using hne⟩)

/-- The row with all of its column taken up. -/
theorem clearing_load (hupper : A.Upper) (htree : Accounts A tree A.cols) (hk : k < A.cols) {s : InPlace T}
    (h : Cleared A s) {out : InPlace T × List Nat}
    (hout : (A.slots k).foldl (InPlace.load A tree k) ({ s with diag := s.diag.setIfInBounds k 0 }, []) = out) :
    out.2 = tree.reach k (rowsAbove A k) ∧ Clearing A k (tree.reach k (rowsAbove A k)) (s.toProgress, spread A k) out.1 ∧
      out.1.written = s.written := by
  obtain ⟨hlisted, hrows⟩ := htree.listed_reach hupper hk
  have hstart : Loading A k s ({ s with diag := s.diag.setIfInBounds k 0 }, [])
      { y := Array.replicate A.cols 0, pivot := 0 } (Array.replicate k false, []) :=
    { progress := rfl
      written_eq := rfl
      y_eq := h.y_eq
      pattern_eq := rfl
      size_marked := by rw [h.marked_eq, Array.size_replicate]
      size_reached := Array.size_replicate
      marked := fun c hc => by
        show s.marked.getD c true = _
        rw [h.marked_eq, getD_replicate, getD_replicate, if_pos hc, if_pos (hc.trans hk)]
      unmarked := fun c _ => by
        show s.marked.getD c false = _
        rw [h.marked_eq, getD_replicate, ite_self] }
  have hload := hstart.foldl htree hk (A.slots k)
  rw [hout, ← rowsAbove] at hload
  have hspread : out.1.y = (spread A k).y := hload.y_eq
  refine ⟨hload.pattern_eq,
    { progress := hload.progress
      size_y := (congrArg Array.size hspread).trans (size_spread A k)
      size_row := size_spread A k
      y_rest := fun c _ => by rw [hspread]
      y_zero := fun c hc => by
        rw [hspread]
        exact spread_eq_zero fun hmem => hc (hrows c hmem)
      size_marked := hload.size_marked
      unmarked := fun c hc => ?_ }, hload.written_eq⟩
  by_cases hck : c < k
  · have hmark := hlisted.marked c hck
    rw [← hload.marked c hck, getD_true_iff (by rw [hload.size_marked]; omega)] at hmark
    exact Bool.eq_false_iff.mpr fun htrue => hc (hmark.mp htrue)
  · exact hload.unmarked c (not_lt.mp hck)

theorem Clearing.cleared {acc : Progress T × Row T} {s : InPlace T} (h : Clearing A k [] acc s) : Cleared A s where
  y_eq := array_ext_getD 0 (h.size_y.trans Array.size_replicate.symm) fun c _ => by
    rw [h.y_zero c List.not_mem_nil, getD_replicate, ite_self]
  marked_eq := array_ext_getD false (h.size_marked.trans Array.size_replicate.symm) fun c _ => by
    rw [h.unmarked c List.not_mem_nil, getD_replicate, ite_self]

omit [Scalar T] in
theorem Logged.congr {s s' : InPlace T} (h : Logged A s) (hwritten : s'.written = s.written) (hlower : s'.lower = s.lower)
    (hnext : s'.next = s.next) : Logged A s' where
  inside := by rw [hwritten, hlower]; exact h.inside
  written_eq := by rw [hwritten, hlower, hnext]; exact h.written_eq

/-- What a column is eliminated from keeps its diagonal. -/
theorem diag_foldl_eliminateColumn (columns : List Nat) (acc : Progress T × Row T) :
    (columns.foldl (eliminateColumn k) acc).1.diag = acc.1.diag := by
  induction columns generalizing acc with
  | nil => rfl
  | cons c columns ih => rw [List.foldl_cons, ih, eliminateColumn_eq]; rfl

/-- A row finds the buffers cleared and leaves them cleared, and it is the row that is computed apart. -/
theorem computeRow_eq (hupper : A.Upper) (htree : Accounts A tree A.cols) (hk : k < A.cols) {s : InPlace T}
    (h : Cleared A s) (hlog : Logged A s) (hfills : s.Fills A tree fun _ => k) (hdiag : s.diag.size = A.cols) :
    (computeRow A tree s k).1.toProgress = (Factorization.computeRow A tree s.toProgress k).1 ∧
      (computeRow A tree s k).2 = (Factorization.computeRow A tree s.toProgress k).2 ∧
        Cleared A (computeRow A tree s k).1 ∧ Logged A (computeRow A tree s k).1 := by
  obtain ⟨hnodup, hreach, horder⟩ := htree.reach_spec hupper hk
  have hstart : s.toProgress.Fills A tree fun c => if c ∈ ([] : List Nat) then k + 1 else k :=
    hfills.congr fun c => (if_neg List.not_mem_nil).symm
  rw [Factorization.computeRow_eq]
  unfold computeRow
  generalize hout : (A.slots k).foldl (InPlace.load A tree k) ({ s with diag := s.diag.setIfInBounds k 0 }, []) = out
  obtain ⟨hpattern, hclearing, hwritten⟩ := clearing_load hupper htree hk h hout
  obtain ⟨t, pattern⟩ := out
  obtain rfl : pattern = tree.reach k (rowsAbove A k) := hpattern
  have hlog' : Logged A t := by
    refine hlog.congr hwritten ?_ ?_
    · rw [hclearing.progress]
    · rw [hclearing.progress]
  obtain ⟨hlast, hlog''⟩ := hclearing.foldl htree hk _ hlog' hstart hreach hnodup horder
  refine ⟨hlast.progress, ?_, hlast.cleared, hlog''⟩
  refine (congrArg (fun P : Progress T => P.diag.getD k 0) hlast.progress).trans ?_
  refine getD_setIfInBounds_self _ ?_ _ _
  rw [diag_foldl_eliminateColumn, hdiag]
  exact hk

/-- The computation in place goes along with the other one, up to its end or the pivot that stops both. -/
theorem computeRows_eq (hupper : A.Upper) (htree : Accounts A tree A.cols) (m : Nat) (hkm : k + m = A.cols) {s : InPlace T}
    (h : Cleared A s) (hlog : Logged A s) (htwins : Twins A tree (fun _ => k) k k s.toProgress s.toProgress) :
    let out := computeRows A tree (List.range' k m) s
    let out' := Factorization.computeRows A tree (List.range' k m) s.toProgress
    out.1.toProgress = out'.1 ∧ out.2 = out'.2 ∧ Cleared A out.1 ∧ Logged A out.1 := by
  induction m generalizing k s with
  | zero => exact ⟨rfl, rfl, h, hlog⟩
  | succ m ih =>
      have hk : k < A.cols := by omega
      obtain ⟨hprogress, hpivot, hcleared, hlogged⟩ := computeRow_eq hupper htree hk h hlog htwins.fills htwins.size_diag
      obtain ⟨hrow, -⟩ := htwins.computeRow hupper htree hk
      rw [List.range'_succ, computeRows, Factorization.computeRows]
      generalize computeRow A tree s k = acc at hprogress hpivot hcleared hlogged ⊢
      generalize Factorization.computeRow A tree s.toProgress k = acc' at hprogress hpivot hrow ⊢
      obtain ⟨t, pivot⟩ := acc
      obtain ⟨P, pivot'⟩ := acc'
      obtain rfl : pivot = pivot' := hpivot
      obtain rfl : t.toProgress = P := hprogress
      dsimp only at hcleared hlogged hrow ⊢
      split
      · exact ⟨rfl, rfl, hcleared, hlogged⟩
      · exact ih (by omega) ⟨hcleared.y_eq, hcleared.marked_eq⟩ (hlogged.congr rfl rfl rfl) (hrow.store hk pivot)

/-! ## The start -/

/-- Laying out the columns anew by their counts changes nothing. -/
theorem colPtr_start {ptr counts : Array Nat} {n : Nat} (hzero : ptr.getD 0 0 = 0)
    (hcounts : ∀ j < n, ptr.getD (j + 1) 0 = ptr.getD j 0 + counts.getD j 0) :
    (List.range n).foldl (fun ptr j => ptr.setIfInBounds (j + 1) (ptr.getD j 0 + counts.getD j 0))
      (ptr.setIfInBounds 0 0) = ptr := by
  have hsame : ∀ {j x : Nat}, ptr.getD j 0 = x → ptr.setIfInBounds j x = ptr := by
    intro j x hx
    refine array_ext_getD 0 Array.size_setIfInBounds fun i hi => ?_
    rw [getD_setIfInBounds]
    by_cases hij : j = i ∧ i < ptr.size
    · rw [if_pos hij, ← hij.1, hx]
    · rw [if_neg hij]
  have hloop : ∀ m ≤ n, (List.range m).foldl (fun ptr j => ptr.setIfInBounds (j + 1) (ptr.getD j 0 + counts.getD j 0))
      (ptr.setIfInBounds 0 0) = ptr := by
    intro m
    induction m with
    | zero => exact fun _ => hsame hzero
    | succ m ih =>
        intro hm
        rw [List.range_succ, List.foldl_append, ih (by omega)]
        exact hsame (hcounts m hm)
  exact hloop n le_rfl

end InPlace

variable {F : Factorization T} {b : Buffers T}

theorem Shape.toProgress_start (h : Shape F) (b : Buffers T) : (InPlace.start F b).toProgress = F.beginning := by
  have hdim : F.dim = F.stored.matrix.cols := h.size_diag
  have hptr : (List.range F.dim).foldl
      (fun ptr j => ptr.setIfInBounds (j + 1) (ptr.getD j 0 + F.tree.count.getD j 0)) (F.lower.colPtr.setIfInBounds 0 0) =
        F.lower.colPtr := by
    refine InPlace.colPtr_start h.room.first_zero fun j hj => ?_
    rw [hdim] at hj
    rw [h.accounts.count_eq j hj]
    exact h.room.stop_eq j hj
  rw [InPlace.start]
  simp only [hptr]
  rfl

/-- The computation in place goes along with the computation apart, from the first row to the last. -/
theorem Shape.computeIn_spec (h : Shape F) (hb : b.Fit F) :
    let out := computeRows F.stored.matrix F.tree (List.range F.dim) F.beginning
    (F.computeIn b).1.toProgress = out.1 ∧ (F.computeIn b).2 = out.2 ∧
      InPlace.Cleared F.stored.matrix (F.computeIn b).1 ∧ InPlace.Logged F.stored.matrix (F.computeIn b).1 := by
  have hdim : F.dim = F.stored.matrix.cols := h.size_diag
  have hstart := h.toProgress_start b
  have hcleared : InPlace.Cleared F.stored.matrix (InPlace.start F b) :=
    { y_eq := Array.map_const'.trans (by rw [hb.size_y, hdim])
      marked_eq := Array.map_const'.trans (by rw [hb.size_marked, hdim]) }
  have hfills := h.fills_beginning
  have hlogged : InPlace.Logged F.stored.matrix (InPlace.start F b) :=
    { inside := fun e he => absurd he List.not_mem_nil
      written_eq := fun c hc => by
        have hlower : (InPlace.start F b).lower = F.beginning.lower := congrArg Progress.lower hstart
        have hnext : (InPlace.start F b).next = F.beginning.next := congrArg Progress.next hstart
        rw [hlower, hnext, hfills.next_eq c hc]
        simp [InPlace.start, rowsOf] }
  have htwins := h.twins_beginning h rfl rfl
  rw [← hstart] at htwins
  have hrows := InPlace.computeRows_eq h.upper h.accounts F.dim (by omega) hcleared hlogged htwins
  rw [hstart, ← List.range_eq_range'] at hrows
  exact hrows

/-- A factorization in place gives the factors of a factorization from scratch, whatever the buffers held. -/
theorem Shape.refactorIn_eq (h : Shape F) (hb : b.Fit F) : F.refactorIn b = F.refactor := by
  obtain ⟨hprogress, houtcome, -⟩ := h.computeIn_spec hb
  rw [refactor_eq]
  dsimp only
  rw [← hprogress, ← houtcome]
  rfl

end AugLag.Factorization
