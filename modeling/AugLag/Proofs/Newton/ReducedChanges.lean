import AugLag.Proofs.Factor.RankOne
import AugLag.Proofs.Insertion
import AugLag.Proofs.Newton.Hessian
import AugLag.Newton.Reduced

/-!
# Changes of the matrix of the Newton step

Between two states with one proximal weight the matrix changes by squares of rows. If the changes come by decreasing
weight, the matrices in between are positive definite whenever the first and the last one are: as long as the weights
are positive the matrix grows, and from there on it shrinks towards the last one.
-/

namespace AugLag.ReducedSystem

open SparseMatrix Factorization
open scoped Matrix

variable {K : Type} [ExactScalar K] {Q A : SparseMatrix K} {n m : Nat} {M : Nat → Nat → K}

/-- A table plus the squares of the rows that change. -/
def plusChanges (A : SparseMatrix K) (M : Nat → Nat → K) (changes : List (Change K)) (i k : Nat) : K :=
  M i k + (changes.map fun c => c.weight * (A.entry c.row i * A.entry c.row k)).sum

theorem plusChanges_nil (A : SparseMatrix K) (M : Nat → Nat → K) : plusChanges A M [] = M := by
  funext i k
  simp [plusChanges]

theorem plusChanges_cons (A : SparseMatrix K) (M : Nat → Nat → K) (c : Change K) (rest : List (Change K)) :
    plusChanges A M (c :: rest) = plusChanges A (plusSquare M c.weight (A.entry c.row)) rest := by
  funext i k
  simp only [plusChanges, plusSquare, List.map_cons, List.sum_cons, add_assoc]

/-! ## Definiteness on the way -/

/-- The product of a row with a vector. -/
def rowProduct (A : SparseMatrix K) (r : Nat) (x : Fin n → K) : K := ∑ i : Fin n, A.entry r i * x i

theorem form_plusSquare (M : Nat → Nat → K) (weight : K) (r : Nat) (x : Fin n → K) :
    x ⬝ᵥ leading n (plusSquare M weight (A.entry r)) *ᵥ x =
      x ⬝ᵥ leading n M *ᵥ x + weight * (rowProduct A r x * rowProduct A r x) := by
  have hrow : ∀ i : Fin n, (leading n (plusSquare M weight (A.entry r)) *ᵥ x) i =
      (leading n M *ᵥ x) i + weight * rowProduct A r x * A.entry r i := by
    intro i
    simp only [Matrix.mulVec, dotProduct, leading, Matrix.of_apply, plusSquare, rowProduct, Finset.mul_sum,
      Finset.sum_mul, ← Finset.sum_add_distrib]
    refine Finset.sum_congr rfl fun k _ => ?_
    ring
  simp only [dotProduct, hrow, mul_add, Finset.sum_add_distrib, add_right_inj]
  conv_rhs => rw [← mul_assoc, rowProduct, Finset.mul_sum]
  refine Finset.sum_congr rfl fun i _ => ?_
  rw [rowProduct]
  ring

theorem form_plusChanges (M : Nat → Nat → K) (changes : List (Change K)) (x : Fin n → K) :
    x ⬝ᵥ leading n (plusChanges A M changes) *ᵥ x =
      x ⬝ᵥ leading n M *ᵥ x +
        (changes.map fun c => c.weight * (rowProduct A c.row x * rowProduct A c.row x)).sum := by
  induction changes generalizing M with
  | nil => rw [plusChanges_nil, List.map_nil, List.sum_nil, add_zero]
  | cons c rest ih => rw [plusChanges_cons, ih, form_plusSquare, List.map_cons, List.sum_cons, add_assoc]

/-- If the changes come by decreasing weight, a matrix on the way to a positive definite one is positive definite. -/
theorem posDef_prefix {before after : List (Change K)} {c : Change K}
    (hsorted : (before ++ c :: after).Pairwise fun a b => b.weight ≤ a.weight) (hfirst : PosDef (leading n M))
    (hlast : PosDef (leading n (plusChanges A M (before ++ c :: after)))) :
    PosDef (leading n (plusChanges A M (before ++ [c]))) := by
  intro x hx
  rw [form_plusChanges]
  have hsquare : ∀ b : Change K, 0 ≤ rowProduct A b.row x * rowProduct A b.row x := fun b => mul_self_nonneg _
  have hpairs := List.pairwise_append.mp hsorted
  rcases le_total 0 c.weight with hc | hc
  · -- So far everything was added to the first matrix.
    have hsum : 0 ≤ ((before ++ [c]).map fun c => c.weight * (rowProduct A c.row x * rowProduct A c.row x)).sum := by
      refine List.sum_nonneg fun y hy => ?_
      obtain ⟨b, hb, rfl⟩ := List.mem_map.mp hy
      refine mul_nonneg ?_ (hsquare b)
      rcases List.mem_append.mp hb with hb | hb
      · exact hc.trans (hpairs.2.2 b hb c List.mem_cons_self)
      · rw [List.mem_singleton.mp hb]
        exact hc
    exact add_pos_of_pos_of_nonneg (hfirst x hx) hsum
  · -- What is left only takes away.
    have hrest : (after.map fun c => c.weight * (rowProduct A c.row x * rowProduct A c.row x)).sum ≤ 0 := by
      have hterm : ∀ b ∈ after, b.weight * (rowProduct A b.row x * rowProduct A b.row x) ≤ 0 := fun b hb =>
        mul_nonpos_of_nonpos_of_nonneg (((List.pairwise_cons.mp hpairs.2.1).1 b hb).trans hc) (hsquare b)
      exact (List.sum_le_sum hterm).trans_eq (by simp)
    have hform := hlast x hx
    rw [form_plusChanges, List.append_cons, List.map_append, List.sum_append, ← add_assoc] at hform
    exact hform.trans_le (add_le_of_nonpos_right hrest)

/-! ## The changes between two states -/

/-- A change belongs to a row, however the scalars calculate. -/
theorem row_lt_of_mem_changes {T : Type} [Scalar T] {oldActive active : Vector Bool m} {oldSigma sigma : Vector T m}
    {c : Change T} (hc : c ∈ changes oldActive oldSigma active sigma) : c.row < m := by
  have hmem := (perm_insertionSort _ _).mem_iff.mp hc
  obtain ⟨r, -, hr⟩ := List.mem_filterMap.mp hmem
  have hrow : c.row = r := by
    unfold rowChange at hr
    split at hr
    · rw [← Option.some.inj hr]
    · rw [← Option.some.inj hr]
    · split at hr
      · cases hr
      · rw [← Option.some.inj hr]
    · cases hr
  rw [hrow]
  exact r.isLt

variable {oldActive active : Vector Bool m} {oldSigma sigma : Vector K m}

/-- A change of a row is the change of its penalty. -/
theorem rowChange_cases (r : Fin m) :
    rowChange oldActive oldSigma active sigma r = none ∧ activePenalty active sigma r = activePenalty oldActive oldSigma r ∨
      rowChange oldActive oldSigma active sigma r =
        some { row := r, weight := activePenalty active sigma r - activePenalty oldActive oldSigma r } := by
  unfold rowChange activePenalty
  cases ho : oldActive.get r with
  | false =>
      cases hn : active.get r with
      | false => exact .inl ⟨rfl, rfl⟩
      | true => exact .inr (by simp)
  | true =>
      cases hn : active.get r with
      | false => exact .inr (by simp)
      | true =>
          by_cases heq : sigma.get r = oldSigma.get r
          · exact .inl (by simp [heq])
          · exact .inr (by simp [heq])

theorem sorted_changes (oldActive : Vector Bool m) (oldSigma : Vector K m) (active : Vector Bool m)
    (sigma : Vector K m) : (changes oldActive oldSigma active sigma).Pairwise fun a b => b.weight ≤ a.weight := by
  have hsorted := @pairwise_insertionSort (Change K) (fun a b => decide (b.weight < a.weight))
    (fun a b hab => by simpa using (of_decide_eq_true hab).le)
    (fun a b c hab hbc => by
      simp only [decide_eq_false_iff_not, not_lt] at hab hbc ⊢
      exact hab.trans hbc)
    ((List.finRange m).filterMap (rowChange oldActive oldSigma active sigma))
  exact hsorted.imp fun hab => by simpa using hab

/-- The changes lead from the matrix of one state to that of the other. -/
theorem plusChanges_hessianTable (Q A : SparseMatrix K) (oldActive : Vector Bool m) (oldSigma : Vector K m)
    (active : Vector Bool m) (sigma : Vector K m) (rho : K) :
    plusChanges A (hessianTable Q A oldActive oldSigma rho) (changes oldActive oldSigma active sigma) =
      hessianTable Q A active sigma rho := by
  funext i k
  have hperm := ((perm_insertionSort (fun a b : Change K => decide (b.weight < a.weight))
    ((List.finRange m).filterMap (rowChange oldActive oldSigma active sigma))).map fun c =>
      c.weight * (A.entry c.row i * A.entry c.row k)).sum_eq
  have hsum : (((List.finRange m).filterMap (rowChange oldActive oldSigma active sigma)).map fun c =>
      c.weight * (A.entry c.row i * A.entry c.row k)).sum =
        ∑ r : Fin m, (activePenalty active sigma r - activePenalty oldActive oldSigma r) * (A.entry r i * A.entry r k) := by
    rw [Fin.sum_univ_def]
    induction List.finRange m with
    | nil => rfl
    | cons r l ih =>
        rw [List.map_cons, List.sum_cons, ← ih]
        rcases @rowChange_cases _ _ _ oldActive active oldSigma sigma r with ⟨hnone, heq⟩ | hsome
        · rw [List.filterMap_cons_none hnone, heq, sub_self, zero_mul, zero_add]
        · rw [List.filterMap_cons_some hsome, List.map_cons, List.sum_cons]
  rw [plusChanges, changes, hperm, hsum, hessianTable, hessianTable, add_assoc, add_right_inj, ← Finset.sum_add_distrib]
  refine Finset.sum_congr rfl fun r _ => ?_
  ring

end AugLag.ReducedSystem
