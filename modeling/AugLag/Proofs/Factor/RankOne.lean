import AugLag.Proofs.Factor.Numeric
import AugLag.Proofs.Sparse.Product
import AugLag.Factor.RankOne

/-!
# Rank one modifications

A multiple of the square of a vector is moved into the factors column by column. What is left of the vector lives on
the rows of the next column, so the path of the tree leads through all columns that change. A column takes its share
as long as its new pivot is positive, which it is if the modified matrix is positive definite.
-/

namespace AugLag.Factorization

open EliminationTree SparseMatrix
open scoped Matrix

variable {K : Type} [ExactScalar K] {A : SparseMatrix K} {tree : EliminationTree}

/-! ## Positive definite leading forms -/

/-- A table plus a multiple of the square of a vector. -/
def plusSquare (a : Nat → Nat → K) (weight : K) (w : Nat → K) (i k : Nat) : K := a i k + weight * (w i * w k)

/-- If a vector starts at place `j`, the vector of pivot `j` shows the pivot that the modified matrix would have. -/
theorem not_posDef_of_pivot {N : Nat} {a ℓ : Nat → Nat → K} {d w : Nat → K} {weight : K} {j : Fin N}
    (h : Eliminated a ℓ d N) (hℓ : UnitLower ℓ) (hw : ∀ i < (j : Nat), w i = 0)
    (hpivot : d j + weight * (w j * w j) ≤ 0) : ¬PosDef (leading N (plusSquare a weight w)) := by
  intro hpos
  obtain ⟨v, hv⟩ := (h.mono hℓ j.isLt).exists_pivotVector hℓ
  have hdot : ∑ k : Fin N, w k * v k = w j := by
    rw [Finset.sum_eq_single j, hv.one, mul_one]
    · intro k _ hkj
      rcases lt_or_gt_of_ne hkj with hlt | hgt
      · rw [hw k hlt, zero_mul]
      · rw [hv.zero k hgt, mul_zero]
    · intro hmem
      exact absurd (Finset.mem_univ j) hmem
  have himage : ∀ i : Fin N, (leading N (plusSquare a weight w) *ᵥ v) i = (leading N a *ᵥ v) i + weight * w j * w i := by
    intro i
    have hsum : ∑ k : Fin N, plusSquare a weight w i k * v k =
        (∑ k : Fin N, a i k * v k) + weight * w i * ∑ k : Fin N, w k * v k := by
      rw [Finset.mul_sum, ← Finset.sum_add_distrib]
      refine Finset.sum_congr rfl fun k _ => ?_
      rw [plusSquare]
      ring
    refine hsum.trans ?_
    rw [hdot]
    exact congrArg (_ + ·) (by ring)
  have hform : v ⬝ᵥ leading N (plusSquare a weight w) *ᵥ v = d j + weight * (w j * w j) := by
    have hsplit : v ⬝ᵥ leading N (plusSquare a weight w) *ᵥ v =
        v ⬝ᵥ leading N a *ᵥ v + weight * w j * ∑ k : Fin N, w k * v k := by
      rw [dotProduct, dotProduct, Finset.mul_sum, ← Finset.sum_add_distrib]
      refine Finset.sum_congr rfl fun k _ => ?_
      rw [himage]
      ring
    rw [hsplit, hdot, hv.dotProduct_eq hv.zero, hv.one]
    ring
  have hzero := hpos.eq_zero (hform.trans_le hpivot)
  have hone := hv.one
  rw [hzero] at hone
  exact zero_ne_one hone

/-! ## One column -/

theorem getD_w_modifySlot (wj beta : K) (s : RankOne K) {p : Nat} (hrow : s.lower.rowAt p < s.w.size) (i : Nat) :
    (modifySlot wj beta s p).w.getD i 0 =
      if i = s.lower.rowAt p then s.w.getD i 0 - wj * s.lower.valueAt p else s.w.getD i 0 := by
  refine (getD_setIfInBounds_of_lt _ hrow _ _ _).trans ?_
  by_cases hi : i = s.lower.rowAt p
  · rw [if_pos hi, if_pos hi, hi]
  · rw [if_neg hi, if_neg hi]

theorem valueAt_modifySlot (wj beta : K) (s : RankOne K) {p : Nat} (hp : p < s.lower.values.size) (q : Nat) :
    (modifySlot wj beta s p).lower.valueAt q =
      if q = p then s.lower.valueAt p + beta * (s.w.getD (s.lower.rowAt p) 0 - wj * s.lower.valueAt p)
      else s.lower.valueAt q :=
  getD_setIfInBounds_of_lt _ hp _ _ _

/-- The slots of one column are changed independently of each other. -/
theorem foldl_modifySlot (wj beta : K) (slots : List Nat) (s : RankOne K) (hrows : (slots.map s.lower.rowAt).Nodup)
    (hslots : ∀ p ∈ slots, p < s.lower.values.size ∧ s.lower.rowAt p < s.w.size) :
    ∃ values w, slots.foldl (modifySlot wj beta) s = { s with lower := { s.lower with values }, w } ∧
      values.size = s.lower.values.size ∧ w.size = s.w.size ∧
      (∀ p ∈ slots, w.getD (s.lower.rowAt p) 0 = s.w.getD (s.lower.rowAt p) 0 - wj * s.lower.valueAt p ∧
        values.getD p 0 = s.lower.valueAt p + beta * w.getD (s.lower.rowAt p) 0) ∧
      (∀ i, (∀ p ∈ slots, s.lower.rowAt p ≠ i) → w.getD i 0 = s.w.getD i 0) ∧
      ∀ p, p ∉ slots → values.getD p 0 = s.lower.valueAt p := by
  induction slots generalizing s with
  | nil =>
      exact ⟨s.lower.values, s.w, rfl, rfl, rfl, fun p hp => absurd hp List.not_mem_nil, fun _ _ => rfl, fun _ _ => rfl⟩
  | cons p slots ih =>
      rw [List.map_cons, List.nodup_cons] at hrows
      obtain ⟨hp, hrow⟩ := hslots p List.mem_cons_self
      have hfresh : ∀ q ∈ slots, s.lower.rowAt q ≠ s.lower.rowAt p := fun q hq heq =>
        hrows.1 (heq ▸ List.mem_map_of_mem hq)
      have hnot : p ∉ slots := fun hmem => hfresh p hmem rfl
      obtain ⟨values, w, hfold, hvalues, hw, hin, hout, hrest⟩ := ih (modifySlot wj beta s p) hrows.2 fun q hq => by
        obtain ⟨h₁, h₂⟩ := hslots q (List.mem_cons_of_mem _ hq)
        exact ⟨h₁.trans_eq Array.size_setIfInBounds.symm, h₂.trans_eq Array.size_setIfInBounds.symm⟩
      have hwp := getD_w_modifySlot wj beta s hrow
      have hvp := valueAt_modifySlot wj beta s hp
      refine ⟨values, w, ?_, ?_, ?_, fun q hq => ?_, fun i hi => ?_, fun q hq => ?_⟩
      · rw [List.foldl_cons, hfold]
        rfl
      · exact hvalues.trans Array.size_setIfInBounds
      · exact hw.trans Array.size_setIfInBounds
      · rcases List.mem_cons.mp hq with rfl | hq
        · have hlast : w.getD (s.lower.rowAt q) 0 = _ := hout (s.lower.rowAt q) hfresh
          rw [hwp, if_pos rfl] at hlast
          refine ⟨hlast, (hrest q hnot).trans ?_⟩
          rw [hvp, if_pos rfl, hlast]
        · have hqp : q ≠ p := fun heq => hnot (heq ▸ hq)
          have hvq : values.getD q 0 = (modifySlot wj beta s p).lower.valueAt q + beta * w.getD (s.lower.rowAt q) 0 :=
            (hin q hq).2
          have hwq : w.getD (s.lower.rowAt q) 0 = (modifySlot wj beta s p).w.getD (s.lower.rowAt q) 0 -
              wj * (modifySlot wj beta s p).lower.valueAt q := (hin q hq).1
          rw [hwp, if_neg (hfresh q hq), hvp, if_neg hqp] at hwq
          refine ⟨hwq, hvq.trans ?_⟩
          rw [hvp, if_neg hqp]
      · have hlast : w.getD i 0 = _ := hout i fun q hq => hi q (List.mem_cons_of_mem _ hq)
        rw [hlast, hwp, if_neg (Ne.symm (hi p List.mem_cons_self))]
      · rw [List.mem_cons, not_or] at hq
        rw [hrest q hq.2, hvp, if_neg hq.1]

/-- The state in which the column of place `next` is to be modified. The factors and the rest of the vector together
are the target. -/
structure Modifying (A : SparseMatrix K) (tree : EliminationTree) (target : Nat → Nat → K) (s : RankOne K)
    (next : Option Nat) : Prop where
  full : Full A tree s.lower
  size_diag : s.diag.size = A.cols
  size_diagInv : s.diagInv.size = A.cols
  size_w : s.w.size = A.cols
  ne_zero : ∀ c < A.cols, s.diag.getD c 0 ≠ 0
  diagInv_eq : ∀ c < A.cols, s.diagInv.getD c 0 = (s.diag.getD c 0)⁻¹
  support : ∀ i, s.w.getD i 0 ≠ 0 → ∃ j, next = some j ∧ (i = j ∨ Reaches A tree i j)
  elim : Eliminated (plusSquare target (-s.weight) (s.w.getD · 0)) s.lower.unit (s.diag.getD · 0) A.cols

/-- A multiple of a square split at one column, which takes its share. -/
theorem square_split {d e α wj ℓ ℓ' w w' : K} (he : e ≠ 0) (hde : d + α * wj * wj = e) :
    d * (ℓ * ℓ') + α * ((w + wj * ℓ) * (w' + wj * ℓ')) =
      e * ((ℓ + wj * α / e * w) * (ℓ' + wj * α / e * w')) + α * (d / e) * (w * w') := by
  obtain rfl : d = e - α * wj * wj := eq_sub_of_add_eq hde
  field_simp
  ring

namespace Modifying

variable {target : Nat → Nat → K} {s : RankOne K} {j : Nat}

/-- Outside of the column at hand and the rows in it nothing is left of the vector. -/
theorem w_eq_zero (h : Modifying A tree target s (some j)) {i : Nat} (hij : i ≠ j) (hi : ¬Reaches A tree i j) :
    s.w.getD i 0 = 0 := by
  by_contra hne
  obtain ⟨j', hj', hor⟩ := h.support i hne
  obtain rfl := Option.some_inj.mp hj'
  rcases hor with heq | hreach
  · exact hij heq
  · exact hi hreach

theorem not_posDef (h : Modifying A tree target s (some j)) (hj : j < A.cols)
    (hpivot : s.diag.getD j 0 + s.weight * s.w.getD j 0 * s.w.getD j 0 ≤ 0) : ¬PosDef (leading A.cols target) := by
  have hw : ∀ i < j, s.w.getD i 0 = 0 := fun i hi =>
    h.w_eq_zero hi.ne fun hreach => absurd hreach.lt hi.asymm
  have htarget : plusSquare (plusSquare target (-s.weight) (s.w.getD · 0)) s.weight (s.w.getD · 0) = target := by
    funext i k
    rw [plusSquare, plusSquare]
    ring
  have hnot := @not_posDef_of_pivot _ _ A.cols _ _ _ (s.w.getD · 0) s.weight ⟨j, hj⟩ h.elim h.full.unitLower hw
    (by rw [← mul_assoc]; exact hpivot)
  rwa [htarget] at hnot

end Modifying

/-- What a modification of column `j` with the new pivot `e` does to a state: a multiple of the old column leaves the
vector, and a multiple of what is left of the vector enters the column. -/
structure Shares (A : SparseMatrix K) (tree : EliminationTree) (j : Nat) (e : K) (s s' : RankOne K) : Prop where
  full : Full A tree s'.lower
  size_w : s'.w.size = s.w.size
  weight_eq : s'.weight = s.weight * (s.diag.getD j 0 / e)
  diag_eq : s'.diag = s.diag.setIfInBounds j e
  diagInv_eq : s'.diagInv = s.diagInv.setIfInBounds j e⁻¹
  w_self : s'.w.getD j 0 = 0
  w_eq : ∀ i < A.cols, s.w.getD i 0 = s'.w.getD i 0 + s.w.getD j 0 * s.lower.unit i j
  unit_self : ∀ i < A.cols,
    s'.lower.unit i j = s.lower.unit i j + s.w.getD j 0 * s.weight / e * s'.w.getD i 0
  unit_of_ne : ∀ i t, t ≠ j → s'.lower.unit i t = s.lower.unit i t

namespace Modifying

variable {target : Nat → Nat → K} {s s' : RankOne K} {j : Nat} {e : K}

theorem modifyColumn_shares (h : Modifying A tree target s (some j)) (hj : j < A.cols)
    (he : s.diag.getD j 0 + s.weight * s.w.getD j 0 * s.w.getD j 0 = e) (hpivot : 0 < e) :
    ∃ s', modifyColumn s j = (s', true) ∧ Shares A tree j e s s' := by
  obtain ⟨values, w, hfold, hvalues, hw, hin, hout, hrest⟩ := foldl_modifySlot (s.w.getD j 0)
    (s.w.getD j 0 * s.weight / e) (s.lower.slots j)
    { s with
      w := s.w.setIfInBounds j 0
      weight := s.weight * (s.diag.getD j 0 / e)
      diag := s.diag.setIfInBounds j e
      diagInv := s.diagInv.setIfInBounds j (Scalar.recip e) } (h.full.nodup_rows hj) fun p hp =>
      ⟨h.full.lt_size (by rw [h.full.cols_eq]; exact hj) hp, by
        rw [Array.size_setIfInBounds, h.size_w]
        exact (h.full.row_reaches hj hp).1⟩
  have hcolumn : modifyColumn s j =
      ({ lower := { s.lower with values }
         diag := s.diag.setIfInBounds j e
         diagInv := s.diagInv.setIfInBounds j (Scalar.recip e)
         w
         weight := s.weight * (s.diag.getD j 0 / e) }, true) := by
    simp only [modifyColumn]
    rw [he, if_pos hpivot]
    exact congrArg (·, true) hfold
  simp only at hin hout hrest hvalues hw
  rw [Array.size_setIfInBounds] at hw
  have hfull : Full A tree { s.lower with values } := h.full.withValues hvalues
  have hwj : w.getD j 0 = 0 := by
    rw [hout j fun p hp => ((h.full.row_reaches hj hp).2.lt).ne',
      getD_setIfInBounds_self _ (by rw [h.size_w]; exact hj)]
  -- A row other than `j` has a slot in the column, or its entry there is zero and it has no part of the vector.
  have hrow : ∀ i < A.cols, s.w.getD i 0 = w.getD i 0 + s.w.getD j 0 * s.lower.unit i j ∧
      SparseMatrix.unit { s.lower with values } i j = s.lower.unit i j + s.w.getD j 0 * s.weight / e * w.getD i 0 := by
    intro i hi
    by_cases hij : i = j
    · subst hij
      rw [hwj, h.full.unitLower.one, hfull.unitLower.one]
      simp
    · rw [SparseMatrix.unit_of_ne _ hij, SparseMatrix.unit_of_ne _ hij]
      by_cases hreach : Reaches A tree i j
      · obtain ⟨p, hp, rfl⟩ := h.full.exists_slot hj hi hreach
        obtain ⟨hwp, hvp⟩ := hin p hp
        rw [getD_setIfInBounds_of_ne _ _ _ (Ne.symm hij)] at hwp
        have hnew : entry { s.lower with values } (s.lower.rowAt p) j = values.getD p 0 :=
          entry_rowAt (hfull.nodup_rows hj) hp
        rw [hnew, hvp, entry_rowAt (h.full.nodup_rows hj) hp, hwp]
        exact ⟨by ring, rfl⟩
      · have hnone : ∀ p ∈ s.lower.slots j, s.lower.rowAt p ≠ i := fun p hp heq =>
          hreach (heq ▸ (h.full.row_reaches hj hp).2)
        rw [hfull.entry_eq_zero hreach, h.full.entry_eq_zero hreach, hout i hnone,
          getD_setIfInBounds_of_ne _ _ _ (Ne.symm hij), h.w_eq_zero hij hreach]
        simp
  exact ⟨_, hcolumn,
    { full := hfull
      size_w := hw
      weight_eq := rfl
      diag_eq := rfl
      diagInv_eq := by rw [Scalar.recip_eq_inv]
      w_self := hwj
      w_eq := fun i hi => (hrow i hi).1
      unit_self := fun i hi => (hrow i hi).2
      unit_of_ne := fun i t htj => h.full.unit_withValues_of_ne hj htj hrest i }⟩

/-- What is left of the vector lives on the rows of the parent. -/
theorem support_shares (h : Modifying A tree target s (some j)) (hs' : Shares A tree j e s s')
    (htree : Accounts A tree A.cols) {i : Nat} (hi : s'.w.getD i 0 ≠ 0) :
    ∃ q, tree.parentOf j = some q ∧ (i = q ∨ Reaches A tree i q) := by
  have hi' : i < A.cols := by
    by_contra hle
    exact hi (getD_of_size_le _ (by rw [hs'.size_w, h.size_w]; omega) 0)
  have hij : i ≠ j := fun heq => hi (heq ▸ hs'.w_self)
  have hreach : Reaches A tree i j := by
    by_contra hnot
    have hsplit := hs'.w_eq i hi'
    rw [SparseMatrix.unit_of_ne _ hij, h.full.entry_eq_zero hnot, mul_zero, add_zero, h.w_eq_zero hij hnot] at hsplit
    exact hi hsplit.symm
  obtain ⟨q, hq, hle⟩ := htree.parent_le i hi' j hreach
  refine ⟨q, hq, ?_⟩
  rcases hle.eq_or_lt with heq | hlt
  · exact .inl heq.symm
  · exact .inr (.parent hreach hq hlt)

/-- Only the summand of column `j` and the square of the vector change, and their sum does not. -/
theorem elim_shares (h : Modifying A tree target s (some j)) (hs' : Shares A tree j e s s') (hj : j < A.cols)
    (he : s.diag.getD j 0 + s.weight * s.w.getD j 0 * s.w.getD j 0 = e) (hpivot : e ≠ 0)
    (hdiag : ∀ c < A.cols, s'.diag.getD c 0 = if c = j then e else s.diag.getD c 0) :
    Eliminated (plusSquare target (-s'.weight) (s'.w.getD · 0)) s'.lower.unit (s'.diag.getD · 0) A.cols := by
  intro i hi k hk
  have hold := h.elim i hi k hk
  have hmem : j ∈ Finset.range A.cols := Finset.mem_range.mpr hj
  rw [← Finset.add_sum_erase _ _ hmem] at hold ⊢
  have hsame : ∑ t ∈ (Finset.range A.cols).erase j, s'.lower.unit i t * s'.diag.getD t 0 * s'.lower.unit k t =
      ∑ t ∈ (Finset.range A.cols).erase j, s.lower.unit i t * s.diag.getD t 0 * s.lower.unit k t := by
    refine Finset.sum_congr rfl fun t ht => ?_
    obtain ⟨htj, ht⟩ := Finset.mem_erase.mp ht
    rw [hs'.unit_of_ne i t htj, hs'.unit_of_ne k t htj, hdiag t (Finset.mem_range.mp ht), if_neg htj]
  have hsplit := @square_split _ _ _ _ _ _ (s.lower.unit i j) (s.lower.unit k j) (s'.w.getD i 0) (s'.w.getD k 0) hpivot he
  rw [← hs'.w_eq i hi, ← hs'.w_eq k hk, ← hs'.unit_self i hi, ← hs'.unit_self k hk] at hsplit
  simp only [plusSquare, hs'.weight_eq, hdiag j hj, if_pos] at hold ⊢
  rw [hsame]
  linear_combination hold + hsplit

/-- A column with a positive new pivot takes its share, and its parent is next. -/
theorem column (h : Modifying A tree target s (some j)) (htree : Accounts A tree A.cols) (hj : j < A.cols)
    (hpivot : 0 < s.diag.getD j 0 + s.weight * s.w.getD j 0 * s.w.getD j 0) :
    ∃ s', modifyColumn s j = (s', true) ∧ Modifying A tree target s' (tree.parentOf j) := by
  obtain ⟨s', hcolumn, hs'⟩ := h.modifyColumn_shares hj rfl hpivot
  have hdiag : ∀ c < A.cols, s'.diag.getD c 0 =
      if c = j then s.diag.getD j 0 + s.weight * s.w.getD j 0 * s.w.getD j 0 else s.diag.getD c 0 := by
    intro c _
    rw [hs'.diag_eq, getD_setIfInBounds_of_lt _ (by rw [h.size_diag]; exact hj)]
  refine ⟨s', hcolumn,
    { full := hs'.full
      size_diag := by rw [hs'.diag_eq, Array.size_setIfInBounds, h.size_diag]
      size_diagInv := by rw [hs'.diagInv_eq, Array.size_setIfInBounds, h.size_diagInv]
      size_w := hs'.size_w.trans h.size_w
      ne_zero := fun c hc => ?_
      diagInv_eq := fun c hc => ?_
      support := fun i hi => h.support_shares hs' htree hi
      elim := h.elim_shares hs' hj rfl hpivot.ne' hdiag }⟩
  · rw [hdiag c hc]
    split
    · exact hpivot.ne'
    · exact h.ne_zero c hc
  · rw [hs'.diagInv_eq, getD_setIfInBounds_of_lt _ (by rw [h.size_diagInv]; exact hj), hdiag c hc]
    split
    · rfl
    · exact h.diagInv_eq c hc

/-- The path ends with factors of the target, or at a pivot that rules out that the target is positive definite. -/
theorem path (htree : Accounts A tree A.cols) (fuel : Nat) {s : RankOne K} {next : Option Nat}
    (h : Modifying A tree target s next) (hfuel : ∀ j, next = some j → j < A.cols ∧ A.cols ≤ fuel + j) :
    let out := modifyPath tree fuel s next
    (Full A tree out.1.lower ∧ out.1.diag.size = A.cols ∧ out.1.diagInv.size = A.cols) ∧
      (out.2 = .ok () ∧ Modifying A tree target out.1 none ∨
        out.2 = .error .notPositiveDefinite ∧ ¬PosDef (leading A.cols target)) := by
  induction fuel generalizing s next with
  | zero =>
      cases next with
      | none => exact ⟨⟨h.full, h.size_diag, h.size_diagInv⟩, .inl ⟨rfl, h⟩⟩
      | some j =>
          have := hfuel j rfl
          omega
  | succ fuel ih =>
      cases next with
      | none => exact ⟨⟨h.full, h.size_diag, h.size_diagInv⟩, .inl ⟨rfl, h⟩⟩
      | some j =>
          obtain ⟨hj, hlen⟩ := hfuel j rfl
          rw [modifyPath]
          by_cases hpivot : 0 < s.diag.getD j 0 + s.weight * s.w.getD j 0 * s.w.getD j 0
          · obtain ⟨s', hcolumn, hs'⟩ := h.column htree hj hpivot
            rw [hcolumn]
            refine ih hs' fun q hq => ?_
            obtain ⟨hgt, hlt⟩ := htree.parent_gt j q hq
            exact ⟨hlt, by omega⟩
          · have hcolumn : modifyColumn s j = ({ s with w := s.w.setIfInBounds j 0 }, false) := by
              simp only [modifyColumn]
              rw [if_neg hpivot]
            rw [hcolumn]
            exact ⟨⟨h.full, h.size_diag, h.size_diagInv⟩, .inr ⟨rfl, h.not_posDef hj (not_lt.mp hpivot)⟩⟩

end Modifying

/-! ## Signs of the pivots -/

theorem diag_modifySlots (wj beta : K) (slots : List Nat) (s : RankOne K) :
    (slots.foldl (modifySlot wj beta) s).diag = s.diag := by
  induction slots generalizing s with
  | nil => rfl
  | cons p slots ih => rw [List.foldl_cons, ih, modifySlot]

theorem diag_pos_modifyColumn {s : RankOne K} (j : Nat) {c : Nat} (hc : 0 < s.diag.getD c 0) :
    0 < (modifyColumn s j).1.diag.getD c 0 := by
  simp only [modifyColumn]
  split
  · next hpivot =>
      simp only [diag_modifySlots, getD_setIfInBounds]
      split
      · exact hpivot
      · exact hc
  · exact hc

/-- A pivot that was positive is so after a modification, whether or not it succeeds. -/
theorem diag_pos_modifyPath {c : Nat} (fuel : Nat) {s : RankOne K} (next : Option Nat) (hc : 0 < s.diag.getD c 0) :
    0 < (modifyPath tree fuel s next).1.diag.getD c 0 := by
  induction fuel generalizing s next with
  | zero => exact hc
  | succ fuel ih =>
      cases next with
      | none => exact hc
      | some j =>
          have hcolumn := diag_pos_modifyColumn j hc
          rw [modifyPath]
          split
          · next heq =>
              rw [heq] at hcolumn
              exact ih _ hcolumn
          · next heq =>
              rw [heq] at hcolumn
              exact hcolumn

/-! ## The modification of factors -/

variable {F : Factorization K} {a : Nat → Nat → K}

theorem size_permutedVector (F : Factorization K) (entries : List (Nat × K)) :
    (F.permutedVector entries).size = F.dim :=
  (size_foldl_modify ..).trans Array.size_replicate

theorem getD_permutedVector (F : Factorization K) (entries : List (Nat × K)) {i : Nat} (hi : i < F.dim) :
    (F.permutedVector entries).getD i 0 = ((entries.filter fun e => F.inverse.getD e.1 0 = i).map Prod.snd).sum := by
  rw [permutedVector, getD_foldl_modify _ _ _ _ (by rw [Array.size_replicate]; exact hi), getD_replicate, if_pos hi,
    foldl_add_eq_sum, zero_add]

/-- The vector starts at the first place of its entries, and all of its places are linked to that one. -/
theorem permutedVector_support (entries : List (Nat × K))
    (hlinked : ∀ e ∈ entries, ∀ e' ∈ entries, F.inverse.getD e.1 0 < F.inverse.getD e'.1 0 →
      Reaches A tree (F.inverse.getD e'.1 0) (F.inverse.getD e.1 0))
    {i : Nat} (hi : (F.permutedVector entries).getD i 0 ≠ 0) :
    ∃ j, F.firstPlace entries = some j ∧ (i = j ∨ Reaches A tree i j) := by
  have hlt : i < F.dim := by
    by_contra hle
    exact hi (getD_of_size_le _ (by rw [size_permutedVector]; omega) 0)
  obtain ⟨e, he, rfl⟩ : ∃ e ∈ entries, F.inverse.getD e.1 0 = i := by
    by_contra hnone
    refine hi ?_
    have hnil : entries.filter (fun e => F.inverse.getD e.1 0 = i) = [] :=
      List.filter_eq_nil_iff.mpr fun e he heq => hnone ⟨e, he, of_decide_eq_true heq⟩
    rw [getD_permutedVector F entries hlt, hnil, List.map_nil, List.sum_nil]
  have hmem : F.inverse.getD e.1 0 ∈ entries.map fun e => F.inverse.getD e.1 0 :=
    List.mem_map_of_mem (f := fun e : Nat × K => F.inverse.getD e.1 0) he
  cases hfirst : F.firstPlace entries with
  | none =>
      rw [firstPlace, List.min?_eq_none_iff] at hfirst
      rw [hfirst] at hmem
      exact absurd hmem List.not_mem_nil
  | some j =>
      obtain ⟨hj, hle⟩ := List.min?_eq_some_iff.mp hfirst
      obtain ⟨e', he', rfl⟩ := List.mem_map.mp hj
      refine ⟨_, rfl, ?_⟩
      rcases (hle _ hmem).eq_or_lt with heq | hlt'
      · exact .inl heq.symm
      · exact .inr (hlinked e' he' e he hlt')

theorem countP_eq (v : Array K) (p : K → Bool) : v.countP p = (List.range v.size).countP fun c => p (v.getD c 0) := by
  have hlist : v.toList = (List.range v.size).map fun c => v.getD c 0 := by
    refine List.ext_getElem (by simp) fun c h₁ h₂ => ?_
    have hc : c < v.size := by simpa using h₁
    simp [Array.getD_eq_getD_getElem?, hc]
  rw [← Array.countP_toList, hlist, List.countP_map]
  rfl

/-- The pivots are positive. -/
def Positive (F : Factorization K) : Prop := ∀ c < F.dim, 0 < F.diag.getD c 0

/-- Before the first column is modified, the factors and the whole vector together are the target. -/
theorem Factors.modifying (h : F.Factors a) (hF : Shape F) (entries : List (Nat × K)) (weight : K)
    (hlinked : ∀ e ∈ entries, ∀ e' ∈ entries, F.inverse.getD e.1 0 < F.inverse.getD e'.1 0 →
      Reaches F.stored.matrix F.tree (F.inverse.getD e'.1 0) (F.inverse.getD e.1 0)) :
    Modifying F.stored.matrix F.tree (plusSquare a weight ((F.permutedVector entries).getD · 0))
      { lower := F.lower, diag := F.diag, diagInv := F.diagInv, w := F.permutedVector entries, weight }
      (F.firstPlace entries) := by
  have hdim : F.dim = F.stored.matrix.cols := hF.size_diag
  exact
    { full := h.full
      size_diag := hF.size_diag
      size_diagInv := hF.size_diagInv
      size_w := (size_permutedVector F entries).trans hdim
      ne_zero := fun c hc => h.ne_zero c (by rw [hdim]; exact hc)
      diagInv_eq := fun c hc => h.diagInv_eq c (by rw [hdim]; exact hc)
      support := fun i hi => permutedVector_support entries hlinked hi
      elim := by
        intro i hi k hk
        have helim := h.elim
        rw [hdim] at helim
        rw [← helim i hi k hk, plusSquare, plusSquare]
        ring }

/-- When the path has ended nothing is left of the vector, so that the factors are those of the target. -/
theorem Modifying.factors {target : Nat → Nat → K} {s : RankOne K}
    (h : Modifying F.stored.matrix F.tree target s none) :
    Factors { F with
      lower := s.lower
      diag := s.diag
      diagInv := s.diagInv
      positive := s.diag.countP fun d => 0 < d } target := by
  have hzero : ∀ i, s.w.getD i 0 = 0 := by
    intro i
    by_contra hne
    obtain ⟨j, hj, -⟩ := h.support i hne
    cases hj
  have hdim : dim { F with
      lower := s.lower
      diag := s.diag
      diagInv := s.diagInv
      positive := s.diag.countP fun d => 0 < d } = F.stored.matrix.cols := h.size_diag
  refine { full := h.full, elim := ?_, ne_zero := ?_, diagInv_eq := ?_, positive_eq := countP_eq _ _ }
  · rw [hdim]
    intro i hi k hk
    have helim := h.elim i hi k hk
    rw [plusSquare, hzero, zero_mul, mul_zero, add_zero] at helim
    exact helim
  · rw [hdim]
    exact h.ne_zero
  · rw [hdim]
    exact h.diagInv_eq

/-- Factors are modified unless a new pivot is not positive, which rules out that the modified matrix is positive
definite. No pivot that was positive ceases to be. -/
theorem Factors.rankOne_cases (h : F.Factors a) (hF : Shape F) (entries : List (Nat × K)) (weight : K)
    (hin : ∀ e ∈ entries, F.inverse.getD e.1 0 < F.dim)
    (hlinked : ∀ e ∈ entries, ∀ e' ∈ entries, F.inverse.getD e.1 0 < F.inverse.getD e'.1 0 →
      Reaches F.stored.matrix F.tree (F.inverse.getD e'.1 0) (F.inverse.getD e.1 0)) :
    Shape (F.rankOne entries weight).1 ∧ SameAnalysis F (F.rankOne entries weight).1 ∧
      ((F.rankOne entries weight).2 = .ok () ∧
          (F.rankOne entries weight).1.Factors (plusSquare a weight ((F.permutedVector entries).getD · 0)) ∧
          (F.Positive → (F.rankOne entries weight).1.Positive) ∨
        (F.rankOne entries weight).2 = .error .notPositiveDefinite ∧
          ¬PosDef (leading F.dim (plusSquare a weight ((F.permutedVector entries).getD · 0)))) := by
  have hdim : F.dim = F.stored.matrix.cols := hF.size_diag
  have hfirst : ∀ j, F.firstPlace entries = some j → j < F.stored.matrix.cols ∧ F.stored.matrix.cols ≤ F.dim + j := by
    intro j hj
    obtain ⟨hmem, -⟩ := List.min?_eq_some_iff.mp hj
    obtain ⟨e, he, rfl⟩ := List.mem_map.mp hmem
    have := hin e he
    omega
  have hpath := (h.modifying hF entries weight hlinked).path hF.accounts F.dim hfirst
  have hkept := fun c => @diag_pos_modifyPath _ _ F.tree c F.dim
    { lower := F.lower, diag := F.diag, diagInv := F.diagInv, w := F.permutedVector entries, weight }
    (F.firstPlace entries)
  simp only [rankOne]
  generalize modifyPath F.tree F.dim
    { lower := F.lower, diag := F.diag, diagInv := F.diagInv, w := F.permutedVector entries, weight }
    (F.firstPlace entries) = out at hpath hkept ⊢
  obtain ⟨s, outcome⟩ := out
  obtain ⟨⟨hfull, hdiag, hdiagInv⟩, hcases⟩ := hpath
  simp only at hfull hdiag hdiagInv hcases
  have hshape : ∀ positive, Shape { F with lower := s.lower, diag := s.diag, diagInv := s.diagInv, positive } := fun _ =>
    { upper := hF.upper, accounts := hF.accounts, room := hfull.toRoom, size_diag := hdiag, size_diagInv := hdiagInv }
  have hsame : ∀ positive,
      SameAnalysis F { F with lower := s.lower, diag := s.diag, diagInv := s.diagInv, positive } := fun _ =>
    { perm := rfl, inverse := rfl, stored := rfl, tree := rfl, dim := hdiag.trans hdim.symm }
  rcases hcases with ⟨rfl, hs⟩ | ⟨rfl, hnot⟩
  · refine ⟨hshape _, hsame _, .inl ⟨rfl, hs.factors, fun hpos c hc => hkept c (hpos c ?_)⟩⟩
    rw [hdim, ← hdiag]
    exact hc
  · refine ⟨hshape _, hsame _, .inr ⟨rfl, ?_⟩⟩
    rw [hdim]
    exact hnot

end AugLag.Factorization
