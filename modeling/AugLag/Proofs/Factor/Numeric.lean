import AugLag.Proofs.Factor.Definite
import AugLag.Proofs.Factor.Shape

/-!
# Numeric factorization

Row `k` of the factor solves a triangular system with the rows before it. The values of the row are spread out in an
array. A column that has been eliminated from the row is not changed any more, since the columns are visited in the
order of the tree; so in the end the array holds the solution, and the new row extends the factorization.
-/

namespace AugLag.Factorization

open EliminationTree SparseMatrix Progress

variable {K : Type} [ExactScalar K] {A : SparseMatrix K} {tree : EliminationTree} {k : Nat} {a : Nat → Nat → K}

/-! ## The factor that is filled so far -/

/-- The entries of the unit lower triangular factor. -/
def Progress.unit (s : Progress K) (i c : Nat) : K := if i = c then 1 else sumAt i (s.filled c)

theorem Progress.Fills.sumAt_of_le {s : Progress K} {height : Nat → Nat} (h : s.Fills A tree height) {i c : Nat}
    (hic : i ≤ c) : sumAt i (s.filled c) = 0 :=
  h.sumAt_eq_zero fun _ _ hreach => absurd hreach.lt (not_lt.mpr hic)

theorem Progress.Fills.unitLower {s : Progress K} {height : Nat → Nat} (h : s.Fills A tree height) :
    UnitLower s.unit where
  one i := if_pos rfl
  zero i t hit := by
    rw [Progress.unit, if_neg hit.ne]
    exact h.sumAt_of_le hit.le

/-! ## Spreading out a column -/

/-- The column of the upper triangle has no row twice. -/
structure UpperPattern (A : SparseMatrix K) : Prop where
  upper : A.Upper
  nodup : ∀ j < A.cols, ((A.slots j).map A.rowAt).Nodup

omit [ExactScalar K] in
/-- The entries of the other rows go into the array, and the entry of row `k` becomes the pivot. -/
theorem foldl_spread (entries : List (Nat × K)) (r : Row K) :
    entries.foldl (fun r e => if e.1 = k then { r with pivot := e.2 } else { r with y := r.y.setIfInBounds e.1 e.2 }) r =
      { y := (entries.filter fun e => e.1 ≠ k).foldl (fun y e => y.setIfInBounds e.1 e.2) r.y
        pivot := (entries.filter fun e => e.1 = k).foldl (fun _ e => e.2) r.pivot } := by
  induction entries generalizing r with
  | nil => rfl
  | cons e entries ih =>
      rw [List.foldl_cons, ih]
      by_cases hk : e.1 = k
      · simp [hk]
      · simp [hk]

omit [ExactScalar K] in
theorem foldl_snd_eq {entries : List (Nat × K)} {x : K} (h : ∀ e ∈ entries, e.2 = x) (a : K) :
    entries.foldl (fun _ e => e.2) a = if entries = [] then a else x := by
  induction entries generalizing a with
  | nil => rfl
  | cons e entries ih =>
      rw [List.foldl_cons, ih fun e' he' => h e' (List.mem_cons_of_mem _ he'), h e List.mem_cons_self, ite_self,
        if_neg (List.cons_ne_nil _ _)]

theorem spread_spec (hA : UpperPattern A) (hk : k < A.cols) :
    (spread A k).y.size = A.cols ∧ (∀ i < k, (spread A k).y.getD i 0 = A.entry i k) ∧
      (spread A k).pivot = A.entry k k := by
  have hd := hA.nodup k hk
  rw [← map_fst_column] at hd
  have hvalue : ∀ e ∈ A.column k, e.2 = A.entry e.1 k := fun e he => (sumAt_eq_of_mem hd he).symm
  rw [spread, foldl_spread]
  refine ⟨by rw [size_foldl_setIfInBounds, Array.size_replicate], fun i hi => ?_, ?_⟩
  · have hsize : i < (Array.replicate A.cols (0 : K)).size := by
      rw [Array.size_replicate]
      omega
    by_cases hex : ∃ e ∈ A.column k, e.1 = i
    · obtain ⟨e, he, rfl⟩ := hex
      refine getD_foldl_set_of_mem _ _ _ _ _ hsize ⟨e, ?_, rfl⟩ fun e' he' heq => ?_
      · exact List.mem_filter.mpr ⟨he, by simpa using hi.ne⟩
      · rw [hvalue e' (List.mem_filter.mp he').1, heq]
    · have hnone : ∀ e ∈ A.column k, e.1 ≠ i := fun e he heq => hex ⟨e, he, heq⟩
      rw [getD_foldl_set_of_forall_ne _ _ _ _ _ fun e he => hnone e (List.mem_filter.mp he).1, getD_replicate, ite_self]
      exact (sumAt_eq_zero hnone).symm
  · have hpivot : ∀ e ∈ (A.column k).filter fun e => e.1 = k, e.2 = A.entry k k := by
      intro e he
      obtain ⟨hmem, heq⟩ := List.mem_filter.mp he
      rw [hvalue e hmem, of_decide_eq_true heq]
    rw [foldl_snd_eq hpivot]
    by_cases hnil : (A.column k).filter (fun e => e.1 = k) = []
    · rw [if_pos hnil]
      refine (sumAt_eq_zero fun e he heq => ?_).symm
      have := List.filter_eq_nil_iff.mp hnil e he
      exact this (decide_eq_true heq)
    · exact if_neg hnil

/-! ## Eliminating columns from a row -/

/-- The values of the columns that have been eliminated from the row. -/
def taken (done : List Nat) (y : Array K) (t : Nat) : K := if t ∈ done then y.getD t 0 else 0

section Taken

variable {done : List Nat} {y y' : Array K} {c : Nat}

/-- One more column, whose value and those of the columns before it have not changed. -/
theorem taken_append (hnew : c ∉ done) (hself : y'.getD c 0 = y.getD c 0)
    (hfrozen : ∀ t ∈ done, t < k → y'.getD t 0 = y.getD t 0) {t : Nat} (ht : t < k) :
    taken (done ++ [c]) y' t = taken done y t + if t = c then y.getD c 0 else 0 := by
  unfold taken
  simp only [List.mem_append, List.mem_singleton]
  by_cases htc : t = c
  · subst htc
    rw [if_pos (.inr rfl), if_neg hnew, if_pos rfl, hself, zero_add]
  · rw [if_neg htc, add_zero]
    by_cases htd : t ∈ done
    · rw [if_pos (.inl htd), if_pos htd, hfrozen t htd ht]
    · rw [if_neg (by simp [htd, htc]), if_neg htd]

theorem sum_mul_taken_append (hck : c < k) (hnew : c ∉ done) (hself : y'.getD c 0 = y.getD c 0)
    (hfrozen : ∀ t ∈ done, t < k → y'.getD t 0 = y.getD t 0) (f : Nat → K) :
    ∑ t ∈ Finset.range k, f t * taken (done ++ [c]) y' t =
      (∑ t ∈ Finset.range k, f t * taken done y t) + f c * y.getD c 0 := by
  rw [Finset.sum_congr rfl fun t ht => congrArg _ (taken_append hnew hself hfrozen (Finset.mem_range.mp ht))]
  simp only [mul_add, Finset.sum_add_distrib, mul_ite, mul_zero, Finset.sum_ite_eq', Finset.mem_range, hck, if_true]

theorem sum_sq_taken_append (hck : c < k) (hnew : c ∉ done) (hself : y'.getD c 0 = y.getD c 0)
    (hfrozen : ∀ t ∈ done, t < k → y'.getD t 0 = y.getD t 0) (g : Nat → K) :
    ∑ t ∈ Finset.range k, taken (done ++ [c]) y' t * (taken (done ++ [c]) y' t * g t) =
      (∑ t ∈ Finset.range k, taken done y t * (taken done y t * g t)) + y.getD c 0 * (y.getD c 0 * g c) := by
  have hterm : ∀ t ∈ Finset.range k, taken (done ++ [c]) y' t * (taken (done ++ [c]) y' t * g t) =
      taken done y t * (taken done y t * g t) + if t = c then y.getD c 0 * (y.getD c 0 * g c) else 0 := by
    intro t ht
    rw [taken_append hnew hself hfrozen (Finset.mem_range.mp ht)]
    by_cases htc : t = c
    · subst htc
      rw [if_pos rfl, if_pos rfl, taken, if_neg hnew]
      ring
    · rw [if_neg htc, if_neg htc, add_zero, add_zero]
  rw [Finset.sum_congr rfl hterm, Finset.sum_add_distrib, Finset.sum_ite_eq', if_pos (Finset.mem_range.mpr hck)]

end Taken

/-- The state after the elimination of some columns from row `k`, where `s₀` is the state before this row. -/
structure Eliminating (A : SparseMatrix K) (tree : EliminationTree) (k : Nat) (s₀ : Progress K) (done : List Nat)
    (acc : Progress K × Row K) : Prop where
  reaches : ∀ c ∈ done, Reaches A tree k c
  fills : acc.1.Fills A tree fun c => if c ∈ done then k + 1 else k
  diag_eq : acc.1.diag = s₀.diag
  diagInv_eq : acc.1.diagInv = s₀.diagInv
  positive_eq : acc.1.positive = s₀.positive
  size_y : acc.2.y.size = A.cols
  filled_of_mem : ∀ c ∈ done, acc.1.filled c = s₀.filled c ++ [(k, acc.2.y.getD c 0 * s₀.diagInv.getD c 0)]
  filled_of_not : ∀ c, c ∉ done → acc.1.filled c = s₀.filled c
  y_eq : ∀ i < k, acc.2.y.getD i 0 =
    A.entry i k - ∑ t ∈ Finset.range k, sumAt i (s₀.filled t) * taken done acc.2.y t
  pivot_eq : acc.2.pivot =
    A.entry k k - ∑ t ∈ Finset.range k, taken done acc.2.y t * (taken done acc.2.y t * s₀.diagInv.getD t 0)

theorem Eliminating.step {s₀ : Progress K} {done : List Nat} {acc : Progress K × Row K}
    (h : Eliminating A tree k s₀ done acc) (hs₀ : s₀.Fills A tree fun _ => k) (hk : k < A.cols)
    (htree : Accounts A tree A.cols) {c : Nat} (hreach : Reaches A tree k c) (hnew : c ∉ done)
    (horder : ∀ t ∈ done, ¬Above tree t c) :
    Eliminating A tree k s₀ (done ++ [c]) (eliminateColumn k acc c) := by
  obtain ⟨s, r⟩ := acc
  have hck : c < k := hreach.lt
  have hc : c < A.cols := hck.trans hk
  have hfilled : s.filled c = s₀.filled c := h.filled_of_not c hnew
  have hslot := h.fills.next_mem_slots hc hk (if_neg hnew) hreach
  rw [eliminateColumn_eq]
  generalize hl : r.y.getD c 0 * s.diagInv.getD c 0 = l
  generalize hy' : (s.filled c).foldl (fun y e => y.modify e.1 (· - e.2 * r.y.getD c 0)) r.y = y'
  have hsize : y'.size = A.cols := by
    rw [← hy', size_foldl_modify]
    exact h.size_y
  have hval : ∀ i < k, y'.getD i 0 = r.y.getD i 0 - sumAt i (s₀.filled c) * r.y.getD c 0 := by
    intro i hi
    rw [← hy', getD_foldl_sub _ _ _ (by rw [h.size_y]; omega), hfilled]
  -- Columns that are done already are not below column `c`, so it has no entries in their rows.
  have hfrozen : ∀ t, t ∈ done → t < k → y'.getD t 0 = r.y.getD t 0 := by
    intro t ht htk
    have hnone : sumAt t (s₀.filled c) = 0 := by
      refine hs₀.sumAt_eq_zero fun _ htk hreach' => horder t ht ?_
      exact htree.above_of_reaches (htk.trans hk) hreach'
    rw [hval t htk, hnone, zero_mul, sub_zero]
  have hself : y'.getD c 0 = r.y.getD c 0 := by
    rw [hval c hck, hs₀.sumAt_of_le le_rfl, zero_mul, sub_zero]
  refine
    { reaches := fun t ht => ?_, fills := ?_, diag_eq := h.diag_eq, diagInv_eq := h.diagInv_eq, positive_eq := h.positive_eq, size_y := hsize
      filled_of_mem := fun t ht => ?_, filled_of_not := fun t ht => ?_, y_eq := fun i hi => ?_, pivot_eq := ?_ }
  · rcases List.mem_append.mp ht with htd | htc
    · exact h.reaches t htd
    · exact List.mem_singleton.mp htc ▸ hreach
  · have hpush := h.fills.push_fills hc hk (if_neg hnew) hreach l
    rw [update_height] at hpush
    exact hpush
  · show (s.push k c l).filled t = s₀.filled t ++ [(k, y'.getD t 0 * s₀.diagInv.getD t 0)]
    by_cases htc : t = c
    · subst htc
      rw [h.fills.filled_push_self hc hslot, hfilled, hself, ← hl, h.diagInv_eq]
    · have htd : t ∈ done := by simpa [htc] using ht
      rw [h.fills.filled_push_of_ne hc hslot l htc, h.filled_of_mem t htd, hfrozen t htd (h.reaches t htd).lt]
  · rw [List.mem_append, List.mem_singleton, not_or] at ht
    exact (h.fills.filled_push_of_ne hc hslot l ht.2).trans (h.filled_of_not t ht.1)
  · show y'.getD i 0 = _
    rw [hval i hi, h.y_eq i hi, sum_mul_taken_append hck hnew hself hfrozen]
    ring
  · show r.pivot - _ = _
    rw [h.pivot_eq, sum_sq_taken_append hck hnew hself hfrozen, ← hl, h.diagInv_eq]
    ring

theorem Eliminating.foldl {s₀ : Progress K} (hs₀ : s₀.Fills A tree fun _ => k) (hk : k < A.cols)
    (htree : Accounts A tree A.cols) (rest : List Nat) {done : List Nat} {acc : Progress K × Row K}
    (h : Eliminating A tree k s₀ done acc) (hreach : ∀ c ∈ rest, Reaches A tree k c) (hnodup : (done ++ rest).Nodup)
    (horder : (done ++ rest).Pairwise fun a c => ¬Above tree a c) :
    Eliminating A tree k s₀ (done ++ rest) (rest.foldl (eliminateColumn k) acc) := by
  induction rest generalizing done acc with
  | nil =>
      rw [List.append_nil]
      exact h
  | cons c rest ih =>
      have hnew : c ∉ done := fun hc => (List.nodup_append.mp hnodup).2.2 c hc c List.mem_cons_self rfl
      have hbelow : ∀ t ∈ done, ¬Above tree t c := fun t ht =>
        (List.pairwise_append.mp horder).2.2 t ht c List.mem_cons_self
      have hstep := h.step hs₀ hk htree (hreach c List.mem_cons_self) hnew hbelow
      rw [List.append_cons] at hnodup horder ⊢
      exact ih hstep (fun t ht => hreach t (List.mem_cons_of_mem _ ht)) hnodup horder

/-! ## Rows -/

/-- The rows below `k` are eliminated. -/
structure Progress.Rows (A : SparseMatrix K) (tree : EliminationTree) (s : Progress K) (k : Nat) : Prop where
  fills : s.Fills A tree fun _ => k
  size_diag : s.diag.size = A.cols
  size_diagInv : s.diagInv.size = A.cols
  elim : Eliminated A.sym s.unit (s.diag.getD · 0) k

/-- The pivots below `k` are not zero, and they are inverted and counted. -/
structure Progress.Pivots (s : Progress K) (k : Nat) : Prop where
  ne_zero : ∀ c < k, s.diag.getD c 0 ≠ 0
  diagInv_eq : ∀ c < k, s.diagInv.getD c 0 = (s.diag.getD c 0)⁻¹
  positive_eq : s.positive = (List.range k).countP fun c => 0 < s.diag.getD c 0

section Complete

variable {s₀ : Progress K} {done : List Nat} {acc : Progress K × Row K}

/-- Rows before `k` of the factor stay as they are. -/
theorem Eliminating.unit_of_ne (h : Eliminating A tree k s₀ done acc) {i : Nat} (hik : i ≠ k) (c : Nat) :
    acc.1.unit i c = s₀.unit i c := by
  unfold Progress.unit
  by_cases hc : c ∈ done
  · rw [h.filled_of_mem c hc, sumAt_append, sumAt_cons, if_neg (Ne.symm hik), sumAt_nil, add_zero, add_zero]
  · rw [h.filled_of_not c hc]

theorem Eliminating.unit_row (h : Eliminating A tree k s₀ done acc) (hs₀ : s₀.Fills A tree fun _ => k) {c : Nat}
    (hck : c < k) : acc.1.unit k c = taken done acc.2.y c * s₀.diagInv.getD c 0 := by
  have hold : sumAt k (s₀.filled c) = 0 := hs₀.sumAt_eq_zero fun _ hlt => absurd hlt (lt_irrefl k)
  rw [Progress.unit, if_neg hck.ne', taken]
  by_cases hc : c ∈ done
  · rw [h.filled_of_mem c hc, sumAt_append, hold, sumAt_cons, if_pos rfl, sumAt_nil, add_zero, zero_add, if_pos hc]
  · rw [h.filled_of_not c hc, hold, if_neg hc, zero_mul]

/-- Once all columns that row `k` reaches are eliminated, the values of the row solve its triangular system. -/
theorem Eliminating.solved (h : Eliminating A tree k s₀ done acc) (hs₀ : s₀.Fills A tree fun _ => k)
    (hk : k < A.cols) (htree : Accounts A tree A.cols) (hdone : ∀ c, c ∈ done ↔ Reaches A tree k c) {i : Nat} (hi : i < k) :
    A.entry i k = ∑ t ∈ Finset.range i, s₀.unit i t * taken done acc.2.y t + taken done acc.2.y i := by
  have hsum : ∑ t ∈ Finset.range k, sumAt i (s₀.filled t) * taken done acc.2.y t =
      ∑ t ∈ Finset.range i, s₀.unit i t * taken done acc.2.y t := by
    have hsub : Finset.range i ⊆ Finset.range k := Finset.range_subset_range.mpr hi.le
    rw [← Finset.sum_subset hsub fun t _ ht => ?_]
    · refine Finset.sum_congr rfl fun t ht => ?_
      rw [Progress.unit, if_neg (Finset.mem_range.mp ht).ne']
    · rw [Finset.mem_range, not_lt] at ht
      rw [hs₀.sumAt_of_le ht, zero_mul]
  have hy := h.y_eq i hi
  rw [hsum] at hy
  by_cases hmem : i ∈ done
  · rw [taken, if_pos hmem, hy]
    ring
  · -- A column out of reach has no entry in the row, and no column has entries in both of these rows.
    have hentry : A.entry i k = 0 := by
      refine entry_eq_zero fun p hp heq => hmem ((hdone i).mpr ?_)
      rw [← heq]
      exact .entry hp (by omega)
    have hzero : ∀ t ∈ Finset.range i, s₀.unit i t * taken done acc.2.y t = 0 := by
      intro t ht
      have hti := Finset.mem_range.mp ht
      by_cases htd : t ∈ done
      · have hnone : sumAt i (s₀.filled t) = 0 := by
          refine hs₀.sumAt_eq_zero fun _ hik hreach => hmem ((hdone i).mpr ?_)
          exact htree.reaches_of_common (hik.trans hk) hreach ((hdone t).mp htd) hik
        rw [Progress.unit, if_neg hti.ne', hnone, zero_mul]
      · rw [taken, if_neg htd, mul_zero]
    rw [hentry, Finset.sum_eq_zero hzero, taken, if_neg hmem, add_zero]

/-- The new row extends the factorization of the rows before it. -/
theorem Eliminating.eliminated (h : Eliminating A tree k s₀ done acc) (hs₀ : s₀.Rows A tree k) (hp : s₀.Pivots k)
    (hk : k < A.cols) (htree : Accounts A tree A.cols) (hdone : ∀ c, c ∈ done ↔ Reaches A tree k c)
    (hunit : UnitLower acc.1.unit) {d : Nat → K} (hself : d k = acc.2.pivot)
    (hother : ∀ c ≠ k, d c = s₀.diag.getD c 0) : Eliminated A.sym acc.1.unit d (k + 1) := by
  -- The new row times the pivots gives back the values of the row.
  have hscaled : ∀ t < k, s₀.diag.getD t 0 * acc.1.unit k t = taken done acc.2.y t := by
    intro t ht
    rw [h.unit_row hs₀.fills ht, hp.diagInv_eq t ht, mul_left_comm, mul_inv_cancel₀ (hp.ne_zero t ht), mul_one]
  refine eliminated_of_entry hunit (sym_comm A) fun j hj i hij => ?_
  have hbefore : ∀ t ∈ Finset.range i, d t = s₀.diag.getD t 0 := by
    intro t ht
    have hti := Finset.mem_range.mp ht
    exact hother t (by omega)
  rw [Finset.sum_congr rfl fun t ht => by rw [hbefore t ht]]
  rcases Nat.lt_succ_iff_lt_or_eq.mp hj with hjk | rfl
  · have hik : i < k := hij.trans_lt hjk
    rw [hother i hik.ne, h.unit_of_ne hjk.ne i, hs₀.elim.entry hs₀.fills.unitLower hik hjk]
    refine congrArg (· + _) (Finset.sum_congr rfl fun t _ => ?_)
    rw [h.unit_of_ne hik.ne, h.unit_of_ne hjk.ne]
  · rw [sym_of_le hij]
    rcases hij.eq_or_lt with rfl | hik
    · rw [hself, h.pivot_eq, hunit.one, mul_one]
      have hsum : ∑ t ∈ Finset.range i, acc.1.unit i t * (s₀.diag.getD t 0 * acc.1.unit i t) =
          ∑ t ∈ Finset.range i, taken done acc.2.y t * (taken done acc.2.y t * s₀.diagInv.getD t 0) := by
        refine Finset.sum_congr rfl fun t ht => ?_
        have hti := Finset.mem_range.mp ht
        rw [hscaled t hti, h.unit_row hs₀.fills hti]
        ring
      rw [hsum]
      ring
    · rw [hother i hik.ne, h.solved hs₀.fills hk htree hdone hik, hscaled i hik]
      refine congrArg (· + _) (Finset.sum_congr rfl fun t ht => ?_)
      have hti := Finset.mem_range.mp ht
      rw [h.unit_of_ne hik.ne, hscaled t (hti.trans hik)]

end Complete

theorem computeRow_spec {s : Progress K} (hA : UpperPattern A) (htree : Accounts A tree A.cols) (hk : k < A.cols)
    (h : s.Rows A tree k) (hp : s.Pivots k) :
    (computeRow A tree s k).1.Rows A tree (k + 1) ∧ (computeRow A tree s k).1.Pivots k ∧
      (computeRow A tree s k).1.diag.getD k 0 = (computeRow A tree s k).2 := by
  obtain ⟨hnodup, hdone, horder⟩ := htree.reach_spec hA.upper hk
  obtain ⟨hsize, hy, hpivot⟩ := spread_spec hA hk
  have hstart : Eliminating A tree k s [] (s, spread A k) :=
    { reaches := fun c hc => absurd hc List.not_mem_nil
      fills := h.fills.congr fun c => (if_neg List.not_mem_nil).symm
      diag_eq := rfl
      diagInv_eq := rfl
      positive_eq := rfl
      size_y := hsize
      filled_of_mem := fun c hc => absurd hc List.not_mem_nil
      filled_of_not := fun _ _ => rfl
      y_eq := fun i hi => by simp [taken, hy i hi]
      pivot_eq := by simp [taken, hpivot] }
  have hrow := Eliminating.foldl h.fills hk htree (tree.reach k (rowsAbove A k)) hstart (fun c hc => (hdone c).mp hc)
    hnodup horder
  rw [List.nil_append] at hrow
  rw [computeRow_eq]
  dsimp only
  generalize (tree.reach k (rowsAbove A k)).foldl (eliminateColumn k) (s, spread A k) = acc at hrow ⊢
  generalize tree.reach k (rowsAbove A k) = done at hdone hrow
  have hdiag_self : (acc.1.diag.setIfInBounds k acc.2.pivot).getD k 0 = acc.2.pivot :=
    getD_setIfInBounds_self _ (by rw [hrow.diag_eq, h.size_diag]; exact hk) _ _
  have hdiag_of_ne : ∀ c, c ≠ k → (acc.1.diag.setIfInBounds k acc.2.pivot).getD c 0 = s.diag.getD c 0 := by
    intro c hc
    rw [getD_setIfInBounds_of_ne _ _ _ hc.symm, hrow.diag_eq]
  have hfills : acc.1.Fills A tree fun _ => k + 1 := hrow.fills.of_rowsOf (fun _ _ => hk) (rowsOf_height hdone)
  refine ⟨{ fills := hfills.withDiag _ _ _, size_diag := ?_, size_diagInv := ?_,
            elim := hrow.eliminated h hp hk htree hdone hfills.unitLower hdiag_self hdiag_of_ne },
    { ne_zero := fun c hc => ?_, diagInv_eq := fun c hc => ?_, positive_eq := ?_ }, hdiag_self⟩
  · rw [Array.size_setIfInBounds, hrow.diag_eq, h.size_diag]
  · exact (congrArg Array.size hrow.diagInv_eq).trans h.size_diagInv
  · show (acc.1.diag.setIfInBounds k acc.2.pivot).getD c 0 ≠ 0
    rw [hdiag_of_ne c hc.ne]
    exact hp.ne_zero c hc
  · show acc.1.diagInv.getD c 0 = ((acc.1.diag.setIfInBounds k acc.2.pivot).getD c 0)⁻¹
    rw [hdiag_of_ne c hc.ne, hrow.diagInv_eq]
    exact hp.diagInv_eq c hc
  · refine (hrow.positive_eq.trans hp.positive_eq).trans (List.countP_congr fun c hc => ?_)
    rw [hdiag_of_ne c (List.mem_range.mp hc).ne]

theorem Progress.Rows.store {s : Progress K} (h : s.Rows A tree (k + 1)) (hp : s.Pivots k) (hk : k < A.cols)
    (hne : s.diag.getD k 0 ≠ 0) :
    let s' : Progress K :=
      { s with
        diagInv := s.diagInv.setIfInBounds k (Scalar.recip (s.diag.getD k 0))
        positive := if 0 < s.diag.getD k 0 then s.positive + 1 else s.positive }
    s'.Rows A tree (k + 1) ∧ s'.Pivots (k + 1) := by
  intro s'
  refine ⟨{ fills := h.fills.withDiag _ _ _, size_diag := h.size_diag, size_diagInv := ?_, elim := h.elim },
    { ne_zero := fun c hc => ?_, diagInv_eq := fun c hc => ?_, positive_eq := ?_ }⟩
  · exact Array.size_setIfInBounds.trans h.size_diagInv
  · rcases Nat.lt_succ_iff_lt_or_eq.mp hc with hlt | rfl
    · exact hp.ne_zero c hlt
    · exact hne
  · rcases Nat.lt_succ_iff_lt_or_eq.mp hc with hlt | rfl
    · exact (getD_setIfInBounds_of_ne _ _ _ hlt.ne').trans (hp.diagInv_eq c hlt)
    · rw [← Scalar.recip_eq_inv]
      exact getD_setIfInBounds_self _ (by rw [h.size_diagInv]; exact hk) _ _
  · show (if 0 < s.diag.getD k 0 then s.positive + 1 else s.positive) = _
    rw [List.range_succ, List.countP_append, List.countP_singleton, hp.positive_eq]
    by_cases hpos : 0 < s.diag.getD k 0
    · rw [if_pos hpos, if_pos (decide_eq_true hpos)]
    · rw [if_neg hpos, if_neg (by rw [decide_eq_false hpos]; exact Bool.false_ne_true)]
      rfl

/-! ## All rows -/

/-- What a computation of rows ends with: all rows, or the first row whose pivot is zero. -/
theorem computeRows_spec (hA : UpperPattern A) (htree : Accounts A tree A.cols) (m : Nat) {s : Progress K}
    (hk : k + m = A.cols) (h : s.Rows A tree k) (hp : s.Pivots k) :
    let out := computeRows A tree (List.range' k m) s
    (out.2 = .ok () ∧ out.1.Rows A tree A.cols ∧ out.1.Pivots A.cols) ∨
      (out.2 = .error .zeroPivot ∧ ∃ j < A.cols, out.1.Rows A tree (j + 1) ∧ out.1.diag.getD j 0 = 0) := by
  induction m generalizing k s with
  | zero =>
      obtain rfl : k = A.cols := hk
      exact .inl ⟨rfl, h, hp⟩
  | succ m ih =>
      have hlt : k < A.cols := by omega
      obtain ⟨hrow, hpivots, hdiag⟩ := computeRow_spec hA htree hlt h hp
      rw [List.range'_succ, computeRows]
      generalize computeRow A tree s k = out at hrow hpivots hdiag ⊢
      obtain ⟨s', pivot⟩ := out
      simp only at hrow hpivots hdiag ⊢
      subst hdiag
      by_cases hzero : s'.diag.getD k 0 = 0
      · rw [if_pos (by rw [hzero]; simp)]
        exact .inr ⟨rfl, k, hlt, hrow, hzero⟩
      · rw [if_neg (by rw [beq_false_of_ne hzero, Scalar.isFinite_eq_true]; exact Bool.false_ne_true)]
        obtain ⟨hrows', hpivots'⟩ := hrow.store hpivots hlt hzero
        exact ih (by omega) hrows' hpivots'

/-! ## Factors -/

/-- The factors are those of the table `a` in the order of elimination. -/
structure Factors (F : Factorization K) (a : Nat → Nat → K) : Prop where
  full : Full F.stored.matrix F.tree F.lower
  elim : Eliminated a F.lower.unit (F.diag.getD · 0) F.dim
  ne_zero : ∀ c < F.dim, F.diag.getD c 0 ≠ 0
  diagInv_eq : ∀ c < F.dim, F.diagInv.getD c 0 = (F.diag.getD c 0)⁻¹
  positive_eq : F.positive = (List.range F.dim).countP fun c => 0 < F.diag.getD c 0

/-- Before the first row nothing is eliminated, whatever the arrays hold. -/
theorem Shape.start {F : Factorization K} (h : Shape F) :
    F.beginning.Rows F.stored.matrix F.tree 0 ∧ F.beginning.Pivots 0 := by
  refine ⟨{ fills := h.fills_beginning, size_diag := h.size_diag, size_diagInv := h.size_diagInv, elim := ?_ },
    { ne_zero := fun c hc => ?_, diagInv_eq := fun c hc => ?_, positive_eq := rfl }⟩
  · intro i hi
    exact absurd hi (Nat.not_lt_zero i)
  · exact absurd hc (Nat.not_lt_zero c)
  · exact absurd hc (Nat.not_lt_zero c)

/-- All rows together are factors of the stored matrix. -/
theorem Progress.Rows.factors {F : Factorization K} {s : Progress K}
    (h : s.Rows F.stored.matrix F.tree F.stored.matrix.cols) (hp : s.Pivots F.stored.matrix.cols) :
    Factors { F with lower := s.lower, diag := s.diag, diagInv := s.diagInv, positive := s.positive }
      F.stored.matrix.sym := by
  have hdim : ({ F with lower := s.lower, diag := s.diag, diagInv := s.diagInv, positive := s.positive } :
      Factorization K).dim = F.stored.matrix.cols := h.size_diag
  have hunit : ∀ i c, c < F.stored.matrix.cols → s.lower.unit i c = s.unit i c := by
    intro i c hc
    rw [Progress.unit, h.fills.filled_eq_column hc]
    rfl
  refine { full := { h.fills.room with rows_eq := fun c hc => ?_ }, elim := ?_, ne_zero := ?_, diagInv_eq := ?_,
           positive_eq := ?_ }
  · rw [← h.fills.rows_eq c hc, h.fills.filled_eq_column hc, map_fst_column]
  · rw [hdim]
    intro i hi j hj
    rw [h.elim i hi j hj]
    refine Finset.sum_congr rfl fun t ht => ?_
    rw [hunit i t (Finset.mem_range.mp ht), hunit j t (Finset.mem_range.mp ht)]
  · rw [hdim]
    exact hp.ne_zero
  · rw [hdim]
    exact hp.diagInv_eq
  · rw [hdim]
    exact hp.positive_eq

/-- The factorization succeeds with factors of the stored matrix, or it meets a pivot zero. -/
theorem Shape.refactor_spec {F : Factorization K} (h : Shape F) (hA : UpperPattern F.stored.matrix) :
    Shape F.refactor.1 ∧ SameAnalysis F F.refactor.1 ∧
      (F.refactor.2 = .ok () ∧ F.refactor.1.Factors F.stored.matrix.sym ∨
        F.refactor.2 = .error .zeroPivot ∧
          ∃ k v, PivotVector (leading F.dim F.stored.matrix.sym) k 0 v) := by
  have hdim : F.dim = F.stored.matrix.cols := h.size_diag
  obtain ⟨hrows, hpivots⟩ := h.start
  have hspec := @computeRows_spec _ _ _ _ 0 hA h.accounts F.dim _ (by rw [hdim, Nat.zero_add]) hrows hpivots
  rw [← List.range_eq_range'] at hspec
  rw [refactor_eq]
  simp only at hspec ⊢
  generalize computeRows F.stored.matrix F.tree (List.range F.dim) _ = out at hspec ⊢
  obtain ⟨s, outcome⟩ := out
  simp only at hspec ⊢
  have hshape : ∀ {k : Nat} (positive : Nat), s.Rows F.stored.matrix F.tree k →
      Shape { F with lower := s.lower, diag := s.diag, diagInv := s.diagInv, positive } :=
    fun _ hs => { upper := h.upper, accounts := h.accounts, room := hs.fills.room, size_diag := hs.size_diag,
                  size_diagInv := hs.size_diagInv }
  have hsame : ∀ {k : Nat} (positive : Nat), s.Rows F.stored.matrix F.tree k →
      SameAnalysis F { F with lower := s.lower, diag := s.diag, diagInv := s.diagInv, positive } :=
    fun _ hs => { perm := rfl, inverse := rfl, stored := rfl, tree := rfl, dim := hs.size_diag.trans hdim.symm }
  rcases hspec with ⟨rfl, hs, hp⟩ | ⟨rfl, j, hj, hs, hzero⟩
  · exact ⟨hshape _ hs, hsame _ hs, .inl ⟨rfl, hs.factors hp⟩⟩
  · refine ⟨hshape _ hs, hsame _ hs, .inr ⟨rfl, ⟨j, by rw [hdim]; exact hj⟩, ?_⟩⟩
    have := @Eliminated.exists_pivotVector _ _ F.dim _ _ _ ⟨j, by rw [hdim]; exact hj⟩ hs.elim hs.fills.unitLower
    rw [show s.diag.getD j 0 = 0 from hzero] at this
    exact this

end AugLag.Factorization
