import AugLag.Proofs.Factor.Calls
import AugLag.Proofs.Factor.Decomposition

/-!
# Modified factors

Over an ordered field the factors of a matrix stay exact through any number of modifications by vectors whose entries are
linked pairwise in the pattern. While all pivots are positive, a modification succeeds exactly if the modified matrix is
positive definite.
-/

namespace AugLag

open scoped Matrix

variable {K : Type} [ExactScalar K] {A : SparseMatrix K}

namespace SparseMatrix

theorem Readable.column_trim (h : Readable A) {j : Nat} (hj : j < A.cols) : A.trim.column j = A.column j := by
  show (A.trim.slots j).map _ = (A.slots j).map _
  rw [h.slots_trim hj]
  refine List.map_congr_left fun k hk => ?_
  rw [h.rowAt_trim (h.lt_nnz hj hk), h.valueAt_trim (h.lt_nnz hj hk)]

theorem Readable.sym_trim (h : Readable A) {i k : Nat} (hi : i < A.cols) (hk : k < A.cols) :
    A.trim.sym i k = A.sym i k := by
  simp only [sym, entry, h.column_trim hi, h.column_trim hk]

omit [ExactScalar K] in
theorem Readable.distinct_trim (h : Readable A) (hdistinct : ∀ j < A.cols, ((A.slots j).map A.rowAt).Nodup) :
    Distinct A.trim :=
  { h.layout_trim with
    nodup_rows := fun j hj => by
      have hj' : j < A.cols := hj
      have hrows : (A.slots j).map A.trim.rowAt = (A.slots j).map A.rowAt :=
        List.map_congr_left fun k hk => h.rowAt_trim (h.lt_nnz hj' hk)
      rw [h.slots_trim hj', hrows]
      exact hdistinct j hj' }

end SparseMatrix

namespace Factorization

open SparseMatrix PermutedUpper

variable {order : Option (Array Nat)} {denseScale : Float}
variable {F F' : Factorization K} {inverse : Array Nat} {current : Array K} {M : Nat → Nat → K}

/-- The entries of any two places of the vector are stored in the upper triangle of the matrix. -/
def Linked (A : SparseMatrix K) (indices : Array Nat) : Prop :=
  ∀ i ∈ indices, ∀ j ∈ indices, i < j → ∃ k ∈ A.slots j, A.rowAt k = i

instance (indices : Array Nat) : Decidable (Linked A indices) :=
  inferInstanceAs (Decidable (∀ i ∈ indices, ∀ j ∈ indices, i < j → ∃ k ∈ A.slots j, A.rowAt k = i))

/-- The vector with the given entries. Entries of one place are added. -/
def vectorOf (indices : Array Nat) (entries : Array K) (i : Nat) : K := sumAt i (indices.toList.zip entries.toList)

/-- Factors that are those of the table `M`, with the values last given for the slots of the matrix: new factors, those
of a factorization from scratch that succeeds, whatever was called before, and modifications of either. -/
inductive Holding [Elimination.Rule] (A : SparseMatrix K) (order : Option (Array Nat)) (denseScale : Float) :
    Factorization K → Array K → (Nat → Nat → K) → Prop
  | new {F : Factorization K} : ofMatrix? A order denseScale = some (.ok F) → Holding A order denseScale F A.values A.sym
  | refactor {F : Factorization K} {current : Array K} {b : Buffers K} :
      Reached A order denseScale F current → b.Fit F → (F.refactorIn b).2 = .ok () →
      Holding A order denseScale (F.refactorIn b).1 current (sym { A with values := current })
  | rankOne {F F' : Factorization K} {current : Array K} {M : Nat → Nat → K} {indices : Array Nat} {entries : Array K}
      {weight : K} : Holding A order denseScale F current M → Linked A indices →
      F.rankOne? indices entries weight = some (F', .ok ()) →
      Holding A order denseScale F' current (plusSquare M weight (vectorOf indices entries))
  | updateValues {F F' : Factorization K} {current : Array K} {M : Nat → Nat → K} {slots : Array Nat} {given : Array K} :
      Holding A order denseScale F current M → F.updateValues? slots given = some F' →
      Holding A order denseScale F' (overwrite current slots given) M

/-- The factors multiply to the table in the order of elimination, and no others do. -/
structure FactorsOf (F : Factorization K) (M : Nat → Nat → K) : Prop where
  /-- The factor `L` is stored without its unit diagonal. -/
  below : ∀ c < F.dim, ∀ p ∈ F.lower.slots c, c < F.lower.rowAt p ∧ F.lower.rowAt p < F.dim
  product : (1 + F.lower.toMatrix F.dim F.dim) * Matrix.diagonal (values F.dim F.diag) *
    (1 + F.lower.toMatrix F.dim F.dim)ᵀ = leading F.dim (F.reordered M)
  diagInv_eq : ∀ i, values F.dim F.diagInv i = (values F.dim F.diag i)⁻¹
  only : ∀ (L : Matrix (Fin F.dim) (Fin F.dim) K) (d : Fin F.dim → K), (∀ i, L i i = 1) → (∀ i j, i < j → L i j = 0) →
    L * Matrix.diagonal d * Lᵀ = leading F.dim (F.reordered M) → L = 1 + F.lower.toMatrix F.dim F.dim ∧ d = values F.dim F.diag

/-! ## Factors of a table -/

/-- A triangular matrix with units on the diagonal as an infinite table. -/
def extended {N : Nat} (L : Matrix (Fin N) (Fin N) K) (i t : Nat) : K :=
  if h : i < N ∧ t < N then L ⟨i, h.1⟩ ⟨t, h.2⟩ else if i = t then 1 else 0

theorem extended_of_lt {N i t : Nat} (L : Matrix (Fin N) (Fin N) K) (hi : i < N) (ht : t < N) :
    extended L i t = L ⟨i, hi⟩ ⟨t, ht⟩ := dif_pos ⟨hi, ht⟩

theorem unitLower_extended {N : Nat} {L : Matrix (Fin N) (Fin N) K} (hone : ∀ i, L i i = 1)
    (hzero : ∀ i j, i < j → L i j = 0) : UnitLower (extended L) where
  one i := by
    by_cases hi : i < N
    · rw [extended_of_lt L hi hi, hone]
    · rw [extended, dif_neg fun h => hi h.1, if_pos rfl]
  zero i t hit := by
    by_cases ht : t < N
    · rw [extended_of_lt L (hit.trans ht) ht]
      exact hzero _ _ hit
    · rw [extended, dif_neg fun h => ht h.2, if_neg hit.ne]

theorem Represents.factorsOf (h : F.Represents M) (hA : Analysis A F) : FactorsOf F M where
  below c hc p hp := by
    have hcols : F.stored.matrix.cols = F.dim := hA.shape.size_diag.symm
    obtain ⟨hrow, hreach⟩ := h.full.row_reaches (hcols ▸ hc) hp
    exact ⟨hreach.lt, hcols ▸ hrow⟩
  product := by
    rw [h.one_add_lower]
    exact h.elim.leading_eq.symm
  diagInv_eq i := h.diagInv_eq i i.isLt
  only L d hone hzero hproduct := by
    let d' : Nat → K := fun t => if ht : t < F.dim then d ⟨t, ht⟩ else 0
    have hd : ∀ t : Fin F.dim, d' t = d t := fun t => dif_pos t.isLt
    have helim : Eliminated (F.reordered M) (extended L) d' F.dim := by
      intro i hi k hk
      have hentry := congrFun (congrFun hproduct ⟨i, hi⟩) ⟨k, hk⟩
      rw [Matrix.mul_apply] at hentry
      refine hentry.symm.trans ?_
      rw [Finset.sum_range]
      refine Finset.sum_congr rfl fun t _ => ?_
      rw [Matrix.mul_diagonal, Matrix.transpose_apply, extended_of_lt L hi t.isLt, extended_of_lt L hk t.isLt, hd]
    have hunique := h.elim.unique helim (Full.unitLower h.full) (unitLower_extended hone hzero) h.ne_zero
    refine ⟨?_, funext fun t => (hd t).symm.trans (hunique t t.isLt).1.symm⟩
    rw [h.one_add_lower]
    ext i t
    exact (extended_of_lt L i.isLt t.isLt).symm.trans ((hunique t t.isLt).2 i i.isLt).symm

/-! ## What the calls keep -/

/-- The factors follow the values last given, and they are those of the table. -/
structure Keeps (A : SparseMatrix K) (inverse : Array Nat) (F : Factorization K) (current : Array K)
    (M : Nat → Nat → K) : Prop extends Follows A F.perm inverse F current where
  analysis : Analysis A.trim F
  represents : F.Represents M

variable (hdistinct : ∀ j < A.cols, ((A.slots j).map A.rowAt).Nodup)

include hdistinct in
theorem Follows.analysis (h : Follows A F.perm inverse F current) : Analysis A.trim F :=
  { h.fitted with
    distinct := h.toReadable.distinct_trim hdistinct
    order := by
      rw [h.pattern.inverse]
      exact h.permutes }

include hdistinct in
/-- A factorization from scratch that succeeds gives the factors of the values last given. -/
theorem Follows.keeps_refactor (h : Follows A F.perm inverse F current) (hok : F.refactor.2 = .ok ()) :
    Keeps A inverse F.refactor.1 current (sym { A with values := current }) := by
  have hvalues := h.toReadable.withValues h.size_values
  have hsize : (trim { A with values := current }).values.size = A.trim.values.size :=
    hvalues.size_values_trim.trans h.size_values_trim.symm
  have hanalysis := h.analysis hdistinct
  have hnew : Analysis (trim { A with values := current }) F :=
    { hanalysis.toFitted.withValues hsize with
      distinct := hanalysis.distinct.withValues hsize
      order := hanalysis.order }
  obtain ⟨hanalysis', hsame, hcases⟩ := hnew.refactor h.holds
  have hfollows := h.refactor
  rw [← hsame.perm] at hfollows
  refine { hfollows with analysis := hfollows.analysis hdistinct, represents := ?_ }
  rcases hcases with ⟨-, hrepresents⟩ | ⟨herror, -⟩
  · refine hrepresents.congr hanalysis' fun i hi k hk => ?_
    rw [hanalysis'.dim_eq] at hi hk
    exact hvalues.sym_trim hi hk
  · exact absurd (herror.symm.trans hok) nofun

/-- New values leave the factors alone. -/
theorem Represents.updateValues (h : F.Represents M) (slots : List Nat) (given : List K) :
    (F.updateValues slots given).Represents M where
  full := @Full.of_values _ (F.updateValues slots given).stored.matrix _ _ F.stored.matrix.values h.full
  elim := h.elim
  ne_zero := h.ne_zero
  diagInv_eq := h.diagInv_eq
  positive_eq := h.positive_eq

/-- The vector of a modification that is accepted fits the factors. -/
theorem rankOne?_eq_some {indices : Array Nat} {entries : Array K} {weight : K}
    {out : Factorization K × Except FactorError Unit} :
    F.rankOne? indices entries weight = some out ↔
      (indices.size = entries.size ∧ ∀ i ∈ indices, i < F.dim) ∧
        F.rankOne (indices.toList.zip entries.toList) weight = out := by
  rw [rankOne?]
  split
  · next hfit =>
      have hin : ∀ i ∈ indices, i < F.dim := fun i hi =>
        of_decide_eq_true (Array.all_eq_true_iff_forall_mem.mp hfit.2 i hi)
      rw [Option.some.injEq]
      exact ⟨fun h => ⟨⟨hfit.1, hin⟩, h⟩, And.right⟩
  · next hnot =>
      refine iff_of_false nofun fun h => hnot ⟨h.1.1, ?_⟩
      exact Array.all_eq_true_iff_forall_mem.mpr fun i hi => decide_eq_true (h.1.2 i hi)

/-- A modification of factors that are those of a table. -/
theorem Keeps.rankOne_cases (h : Keeps A inverse F current M) {indices : Array Nat} (hin : ∀ i ∈ indices, i < F.dim)
    (hlinked : Linked A indices) (entries : Array K) (weight : K) :
    SameAnalysis F (F.rankOne (indices.toList.zip entries.toList) weight).1 ∧
      ((F.rankOne (indices.toList.zip entries.toList) weight).2 = .ok () ∧
          Keeps A inverse (F.rankOne (indices.toList.zip entries.toList) weight).1 current
            (plusSquare M weight (vectorOf indices entries)) ∧
          (F.Positive → (F.rankOne (indices.toList.zip entries.toList) weight).1.Positive) ∨
        (F.rankOne (indices.toList.zip entries.toList) weight).2 = .error .notPositiveDefinite ∧
          ¬PosDef (leading F.dim (plusSquare M weight (vectorOf indices entries)))) := by
  have hplace : ∀ e ∈ indices.toList.zip entries.toList, e.1 ∈ indices := fun e he =>
    Array.mem_toList_iff.mp (List.of_mem_zip he).1
  have hdim : F.dim = A.cols := h.analysis.dim_eq
  have hlinked' : ∀ e ∈ indices.toList.zip entries.toList, ∀ e' ∈ indices.toList.zip entries.toList, e.1 < e'.1 →
      ∃ k ∈ A.trim.slots e'.1, A.trim.rowAt k = e.1 := by
    intro e he e' he' hlt
    obtain ⟨k, hk, hrow⟩ := hlinked e.1 (hplace e he) e'.1 (hplace e' he') hlt
    have hcol : e'.1 < A.cols := hdim ▸ hin e'.1 (hplace e' he')
    exact ⟨k, h.toReadable.slots_trim hcol ▸ hk, (h.toReadable.rowAt_trim (h.toReadable.lt_nnz hcol hk)).trans hrow⟩
  obtain ⟨hanalysis, hsame, hcases⟩ :=
    h.represents.rankOne_cases h.analysis weight (fun e he => hin e.1 (hplace e he)) hlinked'
  refine ⟨hsame, hcases.imp_left ?_⟩
  rintro ⟨hok, hrepresents, hpositive⟩
  have hfollows := h.toFollows.rankOne (indices.toList.zip entries.toList) weight
  rw [← hsame.perm] at hfollows
  exact ⟨hok, { hfollows with analysis := hanalysis, represents := hrepresents }, hpositive⟩

section

variable [Elimination.Rule]
variable (horder : order = none → (Elimination.Rule.order (Elimination.graph A) denseScale).Perm (List.range A.cols))

include horder hdistinct in
/-- The factors held are those of their table. -/
theorem Holding.keeps (h : Holding A order denseScale F current M) : ∃ inverse, Keeps A inverse F current M := by
  induction h with
  | new hF =>
      obtain ⟨inverse, haccepted, hfresh⟩ := accepted_of_ofMatrix? horder hF
      have hrefactor := ofPermutation_eq_ok.mp hfresh
      have hkeeps := (Follows.analyze haccepted).keeps_refactor hdistinct (congrArg Prod.snd hrefactor)
      rw [hrefactor] at hkeeps
      exact ⟨inverse, hkeeps⟩
  | refactor hreached hb hok =>
      obtain ⟨inverse, hF⟩ := hreached.follows horder
      rw [hF.fitted.shape.refactorIn_eq hb] at hok ⊢
      exact ⟨inverse, hF.keeps_refactor hdistinct hok⟩
  | @rankOne F F' current M indices entries weight _ hlinked hF' ih =>
      obtain ⟨inverse, hF⟩ := ih
      obtain ⟨⟨-, hin⟩, hout⟩ := rankOne?_eq_some.mp hF'
      obtain ⟨-, ⟨-, hkeeps, -⟩ | ⟨herror, -⟩⟩ := hF.rankOne_cases hin hlinked entries weight
      · rw [hout] at hkeeps
        exact ⟨inverse, hkeeps⟩
      · rw [hout] at herror
        cases herror
  | @updateValues F F' current M slots given _ hF' ih =>
      obtain ⟨inverse, hF⟩ := ih
      unfold updateValues? at hF'
      split at hF'
      · next hfit =>
          obtain rfl := Option.some.inj hF'
          have hfollows := @Follows.updateValues _ _ _ _ _ _ _ hF.toFollows slots given fun k hk => by
            have hall := Array.all_eq_true_iff_forall_mem.mp hfit.2 k (Array.mem_toList_iff.mp hk)
            rw [hF.fitted.sorted.size_slotOf, hF.size_values_trim] at hall
            exact of_decide_eq_true hall
          exact ⟨inverse,
            { hfollows with
              analysis := Follows.analysis hdistinct hfollows
              represents := hF.represents.updateValues _ _ }⟩
      · cases hF'

include horder hdistinct in
/-- While all pivots are positive, a modification by a vector whose entries are linked pairwise succeeds exactly if the
modified matrix is positive definite, and then the factors are exactly those of this matrix. Otherwise it is refused. -/
theorem Holding.rankOne_exact (h : Holding A order denseScale F current M) (hpos : ∀ c < F.dim, 0 < F.diag.getD c 0)
    {indices : Array Nat} {entries : Array K} (hsize : indices.size = entries.size) (hin : ∀ i ∈ indices, i < F.dim)
    (hlinked : Linked A indices) (weight : K) :
    ∃ F' outcome, F.rankOne? indices entries weight = some (F', outcome) ∧
      (outcome = .ok () ↔ PosDef (leading F.dim (plusSquare M weight (vectorOf indices entries)))) ∧
      (outcome = .ok () → F'.perm = F.perm ∧ F'.dim = F.dim ∧
        FactorsOf F' (plusSquare M weight (vectorOf indices entries)) ∧ F'.positive = F'.dim) ∧
      (outcome ≠ .ok () → outcome = .error .notPositiveDefinite) := by
  obtain ⟨inverse, hF⟩ := h.keeps hdistinct horder
  refine ⟨_, _, rankOne?_eq_some.mpr ⟨⟨hsize, hin⟩, rfl⟩, ?_⟩
  obtain ⟨hsame, ⟨hok, hkeeps, hpositive⟩ | ⟨herror, hnot⟩⟩ := hF.rankOne_cases hin hlinked entries weight
  · have hpositive' := hpositive hpos
    refine ⟨iff_of_true hok ?_, fun _ => ⟨hsame.perm, hsame.dim, ?_, ?_⟩, fun hne => absurd hok hne⟩
    · rw [← hsame.dim]
      exact (hkeeps.represents.posDef_iff hkeeps.analysis).mpr hpositive'
    · exact hkeeps.represents.factorsOf hkeeps.analysis
    · exact hkeeps.represents.positive_iff.mpr hpositive'
  · have hne : (F.rankOne (indices.toList.zip entries.toList) weight).2 ≠ .ok () := by
      rw [herror]
      exact nofun
    exact ⟨iff_of_false hne hnot, fun hok => absurd hok hne, fun _ => herror⟩

end

namespace Sample

/-- The factors of the shuffled matrix after a modification in which one place is given twice. -/
def raised : Option (Factorization ℚ) := do
  let made ← ofMatrix? shuffled (some backwards) 1
  let F ← made.toOption
  let out ← F.rankOne? #[2, 0, 2] #[1, -1, 1] 2
  out.2.toOption.map fun _ => out.1

end Sample

open Sample in
/-- A second modification takes a part of the matrix away again. -/
theorem Holding.rankOne_exact_raised :
    ∃ F M, Holding shuffled (some backwards) 1 F shuffled.values M ∧ raised = some F ∧
      ∃ F' outcome, F.rankOne? #[1, 0] #[1, 1] (-1) = some (F', outcome) ∧
        (outcome = .ok () ↔ PosDef (leading F.dim (plusSquare M (-1) (vectorOf #[1, 0] #[1, 1])))) ∧
        (outcome = .ok () → F'.perm = F.perm ∧ F'.dim = F.dim ∧
          FactorsOf F' (plusSquare M (-1) (vectorOf #[1, 0] #[1, 1])) ∧ F'.positive = F'.dim) ∧
        (outcome ≠ .ok () → outcome = .error .notPositiveDefinite) := by
  have hall : raised.any (fun F => F.dim = 3 ∧ ∀ c < 3, 0 < F.diag.getD c 0) = true := by decide +kernel
  obtain ⟨F, hF, hfine⟩ := (Option.any_eq_true _ _).mp hall
  obtain ⟨hdim, hpos⟩ := of_decide_eq_true hfine
  have hmade := hF
  unfold raised at hmade
  obtain ⟨made, hnew, hmade⟩ := Option.bind_eq_some_iff.mp hmade
  obtain ⟨F₀, hF₀, hmade⟩ := Option.bind_eq_some_iff.mp hmade
  obtain ⟨⟨G, outcome⟩, hout, hG⟩ := Option.bind_eq_some_iff.mp hmade
  obtain rfl : made = .ok F₀ := by
    cases made with
    | error e => cases hF₀
    | ok G => exact congrArg Except.ok (Option.some.inj hF₀)
  obtain ⟨u, hu, rfl⟩ := Option.map_eq_some_iff.mp hG
  obtain rfl : outcome = .ok () := by
    cases outcome with
    | error e => cases hu
    | ok u => rfl
  have hlinked : Linked shuffled #[2, 0, 2] := by decide +kernel
  have hheld := (Holding.new hnew).rankOne hlinked hout
  refine ⟨G, _, hheld, hF, ?_⟩
  exact hheld.rankOne_exact (by decide +kernel) (by simp) (by rwa [hdim]) rfl (by rw [hdim]; decide) (by decide +kernel) (-1)

end Factorization
end AugLag
