import AugLag.Proofs.Sparse.Entry
import AugLag.Sparse.Product

/-!
# Products with a vector

The product loops scatter or gather the entries of one column after the other. Here they are the products of
linear algebra with the matrix that the sparse matrix stands for.
-/

namespace AugLag

variable {K : Type} [ExactScalar K] {m n : Nat}

theorem Vec.get_prescale (y : Vector K n) (b : K) (i : Fin n) : (prescale y b).get i = b * y.get i := by
  unfold prescale
  by_cases h0 : b = 0
  · subst h0
    simp
  · by_cases h1 : b = 1
    · subst h1
      simp
    · simp [h0, h1, mul_comm b]

namespace SparseMatrix

open scoped Matrix

/-! ## Sums over a column -/

/-- Every step of a loop over vectors adds something to element `i`. -/
theorem get_foldl_add {β : Type} (l : List β) (step : Vector K m → β → Vector K m) (g : β → K) (i : Fin m)
    (hstep : ∀ y, ∀ b ∈ l, (step y b).get i = y.get i + g b) (y : Vector K m) :
    (l.foldl step y).get i = y.get i + (l.map g).sum := by
  induction l generalizing y with
  | nil => simp
  | cons b l ih =>
      rw [List.foldl_cons, ih fun y b' hb' => hstep y b' (List.mem_cons_of_mem _ hb'),
        hstep y b List.mem_cons_self, List.map_cons, List.sum_cons, add_assoc]

theorem get_foldl_update (entries : List (Nat × K)) (c : K) (y : Vector K m) (i : Fin m) :
    (entries.foldl (fun y e => Vec.update y e.1 (· + e.2 * c)) y).get i = y.get i + sumAt i entries * c := by
  induction entries generalizing y with
  | nil => simp
  | cons e entries ih =>
      rw [List.foldl_cons, ih, Vec.get_update, sumAt_cons]
      by_cases he : e.1 = i
      · rw [if_pos he, if_pos he]
        ring
      · rw [if_neg he, if_neg he, zero_add]

theorem sum_map_get (entries : List (Nat × K)) (x : Vector K m) :
    (entries.map fun e => e.2 * Vec.get x e.1).sum = ∑ i : Fin m, sumAt i entries * x.get i := by
  induction entries with
  | nil => simp
  | cons e entries ih =>
      simp only [List.map_cons, List.sum_cons, ih, sumAt_cons, add_mul, Finset.sum_add_distrib, add_left_inj]
      by_cases he : e.1 < m
      · have hother : ∀ i : Fin m, i ≠ ⟨e.1, he⟩ → (if e.1 = i then e.2 else 0) * x.get i = 0 := by
          intro i hi
          rw [if_neg fun heq => hi (Fin.ext heq.symm), zero_mul]
        rw [Finset.sum_eq_single ⟨e.1, he⟩ (fun i _ => hother i) (by simp), if_pos rfl]
        exact congrArg _ (Vec.get_eq_of_lt x ⟨e.1, he⟩)
      · rw [Vec.get_eq_zero_of_le x (not_lt.mp he), mul_zero]
        refine (Finset.sum_eq_zero fun i _ => ?_).symm
        rw [if_neg (by omega), zero_mul]

theorem foldl_add_eq_sum {β : Type} (l : List β) (g : β → K) (a : K) :
    l.foldl (fun acc b => acc + g b) a = a + (l.map g).sum := by
  induction l generalizing a with
  | nil => simp
  | cons b l ih => rw [List.foldl_cons, ih, List.map_cons, List.sum_cons, add_assoc]

theorem sum_map_finRange (g : Fin n → K) : ((List.finRange n).map g).sum = ∑ j, g j := by
  rw [← List.ofFn_eq_map, List.sum_ofFn]

/-! ## Products -/

theorem get_mulAdd (A : SparseMatrix K) (y : Vector K m) (x : Vector K n) (a b : K) (i : Fin m) :
    (A.mulAdd y x a b).get i = b * y.get i + a * ((A.toMatrix m n) *ᵥ x.get) i := by
  have hmul : ((A.toMatrix m n) *ᵥ x.get) i = ∑ j : Fin n, A.entry i j * x.get j := rfl
  unfold mulAdd
  by_cases ha : a = 0
  · subst ha
    simp [Vec.get_prescale]
  · rw [beq_false_of_ne ha, if_neg Bool.false_ne_true]
    have hstep (y : Vector K m) (j : Fin n) :
        ((A.column j).foldl (fun y e => Vec.update y e.1 (· + e.2 * (a * x.get j))) y).get i =
          y.get i + A.entry i j * (a * x.get j) := get_foldl_update _ _ _ _
    rw [get_foldl_add _ _ (fun j : Fin n => A.entry i j * (a * x.get j)) i fun y j _ => hstep y j, sum_map_finRange,
      Vec.get_prescale, hmul, Finset.mul_sum]
    refine congrArg _ (Finset.sum_congr rfl fun j _ => ?_)
    ring

theorem columnDot_eq (A : SparseMatrix K) (x : Vector K m) (j : Nat) :
    A.columnDot x j = ∑ i : Fin m, A.entry i j * x.get i := by
  rw [columnDot, foldl_add_eq_sum, zero_add, sum_map_get]
  rfl

theorem get_adjointMulAdd (A : SparseMatrix K) (y : Vector K n) (x : Vector K m) (a b : K) (j : Fin n) :
    (A.adjointMulAdd y x a b).get j = b * y.get j + a * ((A.toMatrix m n)ᵀ *ᵥ x.get) j := by
  have hmul : ((A.toMatrix m n)ᵀ *ᵥ x.get) j = ∑ i : Fin m, A.entry i j * x.get i := rfl
  unfold adjointMulAdd
  by_cases ha : a = 0
  · subst ha
    simp [Vec.get_prescale]
  · rw [beq_false_of_ne ha, if_neg Bool.false_ne_true, Vec.get_mapIdx, Vec.get_prescale, columnDot_eq, hmul]

/-- A column of a symmetric product: its own part is scattered, and the mirrored part is gathered. -/
theorem foldl_symStep (entries : List (Nat × K)) (x : Vector K n) (a xj : K) (j : Nat) (acc : Vector K n × K) :
    entries.foldl (symStep x a xj j) acc =
      (entries.foldl (fun y e => Vec.update y e.1 (· + e.2 * (a * xj))) acc.1,
        acc.2 + ((entries.filter fun e => e.1 ≠ j).map fun e => e.2 * Vec.get x e.1).sum) := by
  induction entries generalizing acc with
  | nil => simp
  | cons e entries ih =>
      have hscatter : a * e.2 * xj = e.2 * (a * xj) := by ring
      rw [List.foldl_cons, ih, symStep, List.foldl_cons, hscatter]
      by_cases he : e.1 = j
      · simp [he]
      · simp [he, add_assoc]

theorem sumAt_filter_ne (i j : Nat) (entries : List (Nat × K)) :
    sumAt i (entries.filter fun e => e.1 ≠ j) = if i = j then 0 else sumAt i entries := by
  by_cases hij : i = j
  · subst hij
    rw [if_pos rfl]
    refine sumAt_eq_zero fun e he => ?_
    simpa using (List.mem_filter.mp he).2
  · rw [if_neg hij, sumAt, sumAt, List.filter_filter]
    refine congrArg (fun l : List (Nat × K) => (l.map Prod.snd).sum) (List.filter_congr fun e _ => ?_)
    by_cases he : e.1 = i
    · simp [he, hij]
    · simp [he]

theorem get_symMulAdd {Q : SparseMatrix K} (hQ : Upper Q) (hn : Q.cols = n) (y x : Vector K n) (a b : K)
    (i : Fin n) : (Q.symMulAdd y x a b).get i = b * y.get i + a * ((Q.symMatrix n) *ᵥ x.get) i := by
  -- Column `j` adds its own part everywhere, and the mirrored part at place `j`.
  have hstep (y : Vector K n) (j : Fin n) :
      (Vec.update ((Q.column j).foldl (symStep x a (x.get j) j) (y, 0)).1 j
        (· + a * ((Q.column j).foldl (symStep x a (x.get j) j) (y, 0)).2)).get i =
        y.get i + (a * (Q.entry i j * x.get j) +
          if j = i then a * ∑ r : Fin n, (if r = i then 0 else Q.entry r i) * x.get r else 0) := by
    rw [foldl_symStep, Vec.get_update, get_foldl_update, zero_add, sum_map_get]
    simp only [sumAt_filter_ne, Fin.val_inj]
    by_cases hj : j = i
    · subst hj
      rw [if_pos rfl, if_pos rfl, entry]
      simp only [entry]
      ring
    · rw [if_neg hj, if_neg hj, entry]
      ring
  have hentry (r : Fin n) : Q.entry i r * x.get r + (if r = i then 0 else Q.entry r i) * x.get r =
      Q.symMatrix n i r * x.get r := by
    rw [symMatrix, Matrix.of_apply, ← add_mul]
    rcases lt_trichotomy i r with hlt | rfl | hgt
    · rw [if_pos hlt.le, if_neg hlt.ne', hQ.entry_eq_zero (by omega) hlt, add_zero]
    · rw [if_pos rfl, if_pos le_rfl, add_zero]
    · rw [if_neg (not_le.mpr hgt), if_neg hgt.ne, hQ.entry_eq_zero (by omega) hgt, zero_add]
  unfold symMulAdd
  rw [get_foldl_add _ _ _ i fun y j _ => hstep y j, Vec.get_prescale, sum_map_finRange, Finset.sum_add_distrib,
    Finset.sum_ite_eq' Finset.univ i, if_pos (Finset.mem_univ i), ← Finset.mul_sum, ← mul_add,
    ← Finset.sum_add_distrib]
  exact congrArg _ (congrArg _ (Finset.sum_congr rfl fun r _ => hentry r))

end SparseMatrix
end AugLag
