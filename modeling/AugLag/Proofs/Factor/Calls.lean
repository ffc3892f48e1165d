import AugLag.Proofs.Factor.Accepted
import AugLag.Proofs.Factor.InPlace
import AugLag.Factor.RankOne
import AugLag.Factor.Solve

/-!
# Factors after some calls

Whatever is called on the factors of a matrix, their arrays keep fitting its pattern, and the stored values are those that
were last given. So a factorization from scratch ends like the construction of new factors from these values.
-/

namespace AugLag.Factorization

open SparseMatrix PermutedUpper

variable {T : Type} [Scalar T] {A : SparseMatrix T} {order : Option (Array Nat)} {denseScale : Float}
variable {F F' : Factorization T} {perm inverse : Array Nat} {values : Array T}

/-- The values of a matrix after some of them are given anew, one after the other. -/
def overwrite (values : Array T) (slots : Array Nat) (given : Array T) : Array T :=
  (slots.toList.zip given.toList).foldl (fun v e => v.setIfInBounds e.1 e.2) values

/-- The factors of a matrix after some calls, and the values last given for its slots. A factorization from scratch may
find anything in its buffers. Solving leaves the factors alone. -/
inductive Reached [Elimination.Rule] (A : SparseMatrix T) (order : Option (Array Nat)) (denseScale : Float) :
    Factorization T → Array T → Prop
  | new {F : Factorization T} : ofMatrix? A order denseScale = some (.ok F) → Reached A order denseScale F A.values
  | updateValues {F F' : Factorization T} {values : Array T} {slots : Array Nat} {given : Array T} :
      Reached A order denseScale F values → F.updateValues? slots given = some F' →
      Reached A order denseScale F' (overwrite values slots given)
  | refactor {F : Factorization T} {values : Array T} {b : Buffers T} :
      Reached A order denseScale F values → b.Fit F → Reached A order denseScale (F.refactorIn b).1 values
  | rankOne {F : Factorization T} {values : Array T} {indices : Array Nat} {entries : Array T} {weight : T}
      {out : Factorization T × Except FactorError Unit} :
      Reached A order denseScale F values → F.rankOne? indices entries weight = some out →
      Reached A order denseScale out.1 values
  | solve {F : Factorization T} {values b x : Array T} :
      Reached A order denseScale F values → F.solve? b = some x → Reached A order denseScale F values

/-! ## What the calls keep -/

/-- The factors fit the pattern of the matrix, and hold the given values in the place of its own. -/
structure Follows (A : SparseMatrix T) (perm inverse : Array Nat) (F : Factorization T) (values : Array T) : Prop
    extends Accepted A perm inverse where
  size_values : values.size = A.values.size
  fitted : Fitted A.trim F
  pattern : SamePattern (analyze A.trim perm inverse) F
  holds : F.stored.Holds (trim { A with values })

/-- Values written to slots, and to the slots of the permuted matrix that belong to them. -/
theorem getD_foldl_set_slotOf {slotOf : Array Nat} {N : Nat}
    (hinj : ∀ k < N, ∀ k' < N, slotOf.getD k 0 = slotOf.getD k' 0 → k = k') (l : List (Nat × T))
    (hl : ∀ e ∈ l, e.1 < N) {v w : Array T} {k : Nat} (hk : k < N) (hv : slotOf.getD k 0 < v.size) (hw : k < w.size)
    (h : v.getD (slotOf.getD k 0) 0 = w.getD k 0) :
    (l.foldl (fun v e => v.setIfInBounds (slotOf.getD e.1 0) e.2) v).getD (slotOf.getD k 0) 0 =
      (l.foldl (fun w e => w.setIfInBounds e.1 e.2) w).getD k 0 := by
  induction l generalizing v w with
  | nil => exact h
  | cons e l ih =>
      refine ih (fun e' he' => hl e' (List.mem_cons_of_mem _ he')) (by rwa [Array.size_setIfInBounds])
        (by rwa [Array.size_setIfInBounds]) ?_
      dsimp only
      by_cases hek : e.1 = k
      · rw [hek, getD_setIfInBounds_self _ hv, getD_setIfInBounds_self _ hw]
      · have hslot : slotOf.getD e.1 0 ≠ slotOf.getD k 0 := fun heq => hek (hinj e.1 (hl e List.mem_cons_self) k hk heq)
        rw [getD_setIfInBounds_of_ne _ _ _ hslot, getD_setIfInBounds_of_ne _ _ _ hek]
        exact h

namespace Follows

/-- Factors of a matrix are those of its pattern, with its own values. -/
theorem analyze (h : Accepted A perm inverse) :
    Follows A perm inverse (analyze A.trim perm inverse) A.values :=
  { h with
    size_values := rfl
    fitted := fitted_analyze h.layout_trim h.upper_trim h.permutes.inverse_lt
    pattern := SamePattern.refl _
    holds := holds_ofMatrix h.layout_trim h.upper_trim h.permutes.inverse_lt }

/-- Factors with the same analysis follow the same values. -/
theorem of_same (h : Follows A perm inverse F values) (hF' : Fitted A.trim F') (hs : SameAnalysis F F') :
    Follows A perm inverse F' values :=
  { h with
    fitted := hF'
    pattern := h.pattern.trans hs.pattern
    holds := by rw [hs.stored]; exact h.holds }

theorem refactor (h : Follows A perm inverse F values) : Follows A perm inverse F.refactor.1 values := by
  obtain ⟨hF', hs⟩ := h.fitted.refactor
  exact h.of_same hF' hs

theorem rankOne (h : Follows A perm inverse F values) (entries : List (Nat × T)) (weight : T) :
    Follows A perm inverse (F.rankOne entries weight).1 values := by
  obtain ⟨hF', hs⟩ := h.fitted.rankOne entries weight
  exact h.of_same hF' hs

theorem updateValues (h : Follows A perm inverse F values) {slots : Array Nat} {given : Array T}
    (hslots : ∀ k ∈ slots.toList, k < A.nnz) :
    Follows A perm inverse (F.updateValues slots.toList given.toList) (overwrite values slots given) := by
  have hsize : (overwrite values slots given).size = values.size :=
    size_foldl_setIfInBounds _ Prod.fst Prod.snd _
  have hvalues := h.toReadable.withValues h.size_values
  have hvalues' := h.toReadable.withValues (hsize.trans h.size_values)
  have hnnz : A.trim.values.size = A.nnz := h.size_values_trim
  refine
    { h with
      size_values := hsize.trans h.size_values
      fitted := h.fitted.updateValues _ _
      pattern := h.pattern.trans (samePattern_updateValues F _ _)
      holds := fun k hk => ?_ }
  have hk' : k < A.nnz := hk.trans_eq hvalues'.size_values_trim
  have hold : F.stored.matrix.valueAt (F.stored.slotOf.getD k 0) = values.getD k 0 :=
    (h.holds k (hk'.trans_eq hvalues.size_values_trim.symm)).trans (hvalues.valueAt_trim hk')
  refine Eq.trans ?_ (hvalues'.valueAt_trim hk').symm
  refine getD_foldl_set_slotOf (by rw [← hnnz]; exact h.fitted.sorted.slot_inj) _ (fun e he => ?_) hk'
    (h.fitted.sorted.slot_lt (hnnz.symm ▸ hk')) ?_ hold
  · exact hslots e.1 (List.of_mem_zip he).1
  · rw [h.size_values]
    exact hk'.trans_le h.room

end Follows

/-- What is reached follows the values last given. -/
theorem Reached.follows [Elimination.Rule] (horder : order = none →
      (Elimination.Rule.order (Elimination.graph A) denseScale).Perm (List.range A.cols))
    (h : Reached A order denseScale F values) : ∃ inverse, Follows A F.perm inverse F values := by
  induction h with
  | new hF =>
      obtain ⟨inverse, haccepted, hfresh⟩ := accepted_of_ofMatrix? horder hF
      have hfollows := (Follows.analyze haccepted).refactor
      rw [ofPermutation_eq_ok.mp hfresh] at hfollows
      exact ⟨inverse, hfollows⟩
  | @updateValues F F' values slots given _ hF' ih =>
      obtain ⟨inverse, hF⟩ := ih
      unfold updateValues? at hF'
      split at hF'
      · next hfit =>
          obtain rfl := Option.some.inj hF'
          refine ⟨inverse, hF.updateValues fun k hk => ?_⟩
          have hall := Array.all_eq_true_iff_forall_mem.mp hfit.2 k (Array.mem_toList_iff.mp hk)
          rw [hF.fitted.sorted.size_slotOf, hF.size_values_trim] at hall
          exact of_decide_eq_true hall
      · cases hF'
  | refactor _ hb ih =>
      obtain ⟨inverse, hF⟩ := ih
      rw [hF.fitted.shape.refactorIn_eq hb]
      exact ⟨inverse, hF.fitted.refactor.2.perm ▸ hF.refactor⟩
  | rankOne _ hout ih =>
      obtain ⟨inverse, hF⟩ := ih
      unfold rankOne? at hout
      split at hout
      · obtain rfl := Option.some.inj hout
        exact ⟨inverse, (hF.fitted.rankOne _ _).2.perm ▸ hF.rankOne _ _⟩
      · cases hout
  | solve _ _ ih => exact ih

/-- Values can be given for all slots of the matrix. -/
theorem Follows.exists_updateValues (h : Follows A perm inverse F values) {slots : Array Nat} {given : Array T}
    (hsize : slots.size = given.size) (hslots : ∀ k ∈ slots, k < A.nnz) : ∃ F', F.updateValues? slots given = some F' := by
  refine ⟨_, if_pos ⟨hsize, Array.all_eq_true_iff_forall_mem.mpr fun k hk => decide_eq_true ?_⟩⟩
  rw [h.fitted.sorted.size_slotOf, h.size_values_trim]
  exact hslots k hk

/-! ## Factorization from scratch -/

/-- The analysis of a matrix does not look at its values. -/
theorem samePattern_analyze (A : SparseMatrix T) (values : Array T) (perm inverse : Array Nat) :
    SamePattern (Factorization.analyze A perm inverse) (Factorization.analyze { A with values } perm inverse) := by
  -- The matrices that are stored differ in their values alone.
  have hstored : ∃ values', PermutedUpper.ofMatrix { A with values } inverse =
      { PermutedUpper.ofMatrix A inverse with
        matrix := { (PermutedUpper.ofMatrix A inverse).matrix with values := values' } } := by
    rw [PermutedUpper.ofMatrix_eq, PermutedUpper.ofMatrix_eq]
    exact ⟨_, rfl⟩
  obtain ⟨values', hstored⟩ := hstored
  have hanalyze : Factorization.analyze { A with values } perm inverse =
      { Factorization.analyze A perm inverse with
        stored := { PermutedUpper.ofMatrix A inverse with
          matrix := { (PermutedUpper.ofMatrix A inverse).matrix with values := values' } } } := by
    rw [Factorization.analyze, hstored]
    rfl
  rw [hanalyze]
  exact ⟨rfl, rfl, ⟨values', rfl⟩, rfl, rfl⟩

/-- Factors of one pattern that hold the same values store the same matrix. -/
theorem SamePattern.stored_eq {B : SparseMatrix T} (hs : SamePattern F F') (hF : Fitted A F) (hF' : Fitted B F')
    (hsize : B.values.size = A.values.size) (h : F.stored.Holds B) (h' : F'.stored.Holds B) : F'.stored = F.stored := by
  obtain ⟨stored, hstored⟩ := hs.stored
  have hvalues : F'.stored.matrix.values = F.stored.matrix.values := by
    refine array_ext_getD 0 ?_ fun p hp => ?_
    · rw [hF'.sorted.size_values, hF.sorted.size_values, hsize]
    · rw [hF'.sorted.size_values, hsize, ← hF.sorted.size_values] at hp
      obtain ⟨k, hk, rfl⟩ := hF.sorted.exists_slotOf hp
      have hk' := h' k (hk.trans_eq hsize.symm)
      rw [show F'.stored.slotOf = F.stored.slotOf by rw [hstored]] at hk'
      exact hk'.trans (h k (hk.trans_eq hsize.symm)).symm
  rw [hstored] at hvalues ⊢
  rw [show stored = F.stored.matrix.values from hvalues]

/-- Factors that follow some values and new factors of these values have the same analysis. -/
theorem Follows.sameAnalysis (h : Follows A perm inverse F values) :
    SameAnalysis F (Factorization.analyze (trim { A with values }) perm inverse) := by
  have hnew := Follows.analyze (h.toAccepted.withValues h.size_values)
  have hpattern : SamePattern F (Factorization.analyze (trim { A with values }) perm inverse) :=
    h.pattern.symm.trans (samePattern_analyze A.trim _ perm inverse)
  have hsize : (trim { A with values }).values.size = A.trim.values.size :=
    (h.toReadable.withValues h.size_values).size_values_trim.trans h.size_values_trim.symm
  exact
    { perm := hpattern.perm
      inverse := hpattern.inverse
      stored := hpattern.stored_eq h.fitted hnew.fitted hsize h.holds hnew.holds
      tree := hpattern.tree
      dim := hpattern.dim }

/-- Whatever was called on factors, and whatever is left in their buffers: a factorization from scratch succeeds exactly
if new factors of the values last given can be made in the same order, and then it gives these factors. -/
theorem Reached.refactor_as_new [Elimination.Rule] (horder : order = none →
      (Elimination.Rule.order (Elimination.graph A) denseScale).Perm (List.range A.cols))
    (h : Reached A order denseScale F values) {b : Buffers T} (hb : b.Fit F) (scale : Float) :
    F.refactorIn b = F.refactor ∧
      ∃ fresh, ofMatrix? { A with values } (some F.perm) scale = some fresh ∧
        F.refactor.2 = fresh.map (fun _ => ()) ∧ ∀ G, fresh = .ok G → F.refactor.1 = G := by
  obtain ⟨inverse, hF⟩ := h.follows horder
  have hnew := Follows.analyze (hF.toAccepted.withValues hF.size_values)
  refine ⟨hF.fitted.shape.refactorIn_eq hb, _, (hF.toAccepted.withValues hF.size_values).ofMatrix?_eq scale, ?_⟩
  obtain ⟨houtcome, -, -, hequal⟩ := hF.fitted.shape.refactor_congr hnew.fitted.shape hF.sameAnalysis
  rw [ofPermutation]
  generalize (Factorization.analyze (trim { A with values }) F.perm inverse).refactor = out at houtcome hequal
  obtain ⟨G, outcome⟩ := out
  dsimp only at houtcome hequal ⊢
  cases outcome with
  | error e => exact ⟨houtcome.symm, fun G' hG' => by cases hG'⟩
  | ok u => exact ⟨houtcome.symm, fun G' hG' => (hequal houtcome.symm).symm.trans (Except.ok.inj hG')⟩

namespace Sample

/-- A matrix of dimension 3 with the rows of its columns in any order. -/
def shuffled : SparseMatrix ℚ where
  rows := 3
  cols := 3
  colPtr := #[0, 1, 3, 6]
  rowIdx := #[0, 1, 0, 2, 0, 1]
  values := #[4, 5, 1, 6, 2, 1]

/-- The same matrix with another last entry on the diagonal. -/
def revised : SparseMatrix ℚ := { shuffled with values := #[4, 5, 1, 9, 2, 1] }

def backwards : Array Nat := #[2, 1, 0]

/-- Buffers in which everything is wrong. -/
def littered (F : Factorization ℚ) : Buffers ℚ where
  y := Array.replicate F.dim 7
  marked := Array.replicate F.dim true

theorem fit_littered (F : Factorization ℚ) : (littered F).Fit F := ⟨Array.size_replicate, Array.size_replicate⟩

end Sample

open Sample in
/-- The first pivot of the matrix is deleted, factors are sought in vain, and another one is given. -/
theorem Reached.refactor_as_new_revised :
    ∃ F, Reached shuffled (some backwards) 1 F revised.values ∧ F.refactorIn (littered F) = F.refactor ∧
      ∃ fresh, ofMatrix? revised (some F.perm) 1 = some fresh ∧
        F.refactor.2 = fresh.map (fun _ => ()) ∧ ∀ G, fresh = .ok G → F.refactor.1 = G := by
  have hmade : ((ofMatrix? shuffled (some backwards) 1).bind Except.toOption).isSome = true := by decide +kernel
  obtain ⟨F₀, hF₀⟩ := Option.isSome_iff_exists.mp hmade
  obtain ⟨made, hmade, hok⟩ := Option.bind_eq_some_iff.mp hF₀
  have hnew : Reached shuffled (some backwards) 1 F₀ shuffled.values := by
    cases made with
    | error e => cases hok
    | ok G => exact .new (hmade.trans (congrArg some (congrArg Except.ok (Option.some.inj hok))))
  obtain ⟨inverse, hfollows⟩ := hnew.follows (by simp)
  obtain ⟨F₁, hF₁⟩ := @Follows.exists_updateValues _ _ _ _ _ _ _ hfollows #[3] #[0] rfl (by decide)
  have hfailed := (hnew.updateValues hF₁).refactor (fit_littered F₁)
  obtain ⟨inverse', hfollows'⟩ := hfailed.follows (by simp)
  obtain ⟨F, hF⟩ := @Follows.exists_updateValues _ _ _ _ _ _ _ hfollows' #[3] #[9] rfl (by decide)
  have hreached : Reached shuffled (some backwards) 1 F revised.values := hfailed.updateValues hF
  exact ⟨F, hreached, hreached.refactor_as_new (by simp) (fit_littered F) 1⟩

end AugLag.Factorization
