import AugLag.Proofs.Exact.Vector
import AugLag.Proofs.Newton.Data
import AugLag.Proofs.Settings
import AugLag.Problem.Equilibrate

/-!
# Stored programs

A scaled program stores a program in its own units: every slot of a matrix and every element of a vector, times the
scalings (`Stores`). Equilibrating and replacing the cost or the bounds keep that relation, and from it the program in
its own units is recovered exactly.
-/

namespace AugLag

open SparseMatrix

variable {K : Type} [ExactScalar K] {n m : Nat}

/-- An elementwise product, also outside of the vectors. -/
theorem Vec.getD_hadamard (v w : Vector K n) (i : Nat) : Vec.get (hadamard v w) i = Vec.get v i * Vec.get w i := by
  by_cases hi : i < n
  · rw [Vec.get_eq_of_lt _ ⟨i, hi⟩, Vec.get_eq_of_lt _ ⟨i, hi⟩, Vec.get_eq_of_lt _ ⟨i, hi⟩, Vec.get_hadamard]
  · rw [Vec.get_eq_zero_of_le _ (not_lt.mp hi), Vec.get_eq_zero_of_le _ (not_lt.mp hi), zero_mul]

/-- No bound is beyond the limit, on either side. -/
structure QuadraticProgram.Clamped (L : QuadraticProgram K n m) : Prop where
  lower : ∀ i, -L.limit ≤ L.bmin.get i ∧ L.bmin.get i ≤ L.limit
  upper : ∀ i, -L.limit ≤ L.bmax.get i ∧ L.bmax.get i ≤ L.limit

namespace ScaledProgram

/-- The matrices and the linear cost of a program, slot by slot, times positive factors. -/
structure StoresData (S : ScaledProgram K n m) (L : QuadraticProgram K n m) : Prop where
  d_pos : ∀ j, 0 < S.scaling.d.get j
  e_pos : ∀ i, 0 < S.scaling.e.get i
  c_pos : 0 < S.scaling.c
  cost_pattern : S.Q.SamePattern L.Q
  constraints_pattern : S.A.SamePattern L.A
  cost_eq : ∀ j : Fin n, ∀ k ∈ L.Q.slots j,
    S.Q.valueAt k = S.scaling.c * (Vec.get S.scaling.d (L.Q.rowAt k) * L.Q.valueAt k * S.scaling.d.get j)
  constraints_eq : ∀ j : Fin n, ∀ k ∈ L.A.slots j,
    S.A.valueAt k = Vec.get S.scaling.e (L.A.rowAt k) * L.A.valueAt k * S.scaling.d.get j
  linear_eq : ∀ j, S.q.get j = S.scaling.c * (S.scaling.d.get j * L.q.get j)

/-- Finite bounds of a program times the factors of their rows, and marks for those that are absent. -/
structure StoresBounds (S : ScaledProgram K n m) (L : QuadraticProgram K n m) : Prop where
  limit_eq : S.limit = L.limit
  lowerFinite_eq : ∀ i, S.lowerFinite.get i = decide (-L.limit < L.bmin.get i)
  upperFinite_eq : ∀ i, S.upperFinite.get i = decide (L.bmax.get i < L.limit)
  lower_eq : ∀ i, S.bmin.get i = if -L.limit < L.bmin.get i then L.bmin.get i * S.scaling.e.get i else -L.limit
  upper_eq : ∀ i, S.bmax.get i = if L.bmax.get i < L.limit then L.bmax.get i * S.scaling.e.get i else L.limit

/-- The stored data are exactly the scaling of a program. -/
structure Stores (S : ScaledProgram K n m) (L : QuadraticProgram K n m) : Prop
    extends StoresData S L, StoresBounds S L where
  dinv_eq : ∀ j, S.scaling.dinv.get j = (S.scaling.d.get j)⁻¹
  einv_eq : ∀ i, S.scaling.einv.get i = (S.scaling.e.get i)⁻¹

variable {S : ScaledProgram K n m} {L : QuadraticProgram K n m} {c : Settings K}

theorem StoresData.formed (h : StoresData S L) (hL : NewtonData L.Q L.A n m) : NewtonData S.Q S.A n m :=
  hL.of_samePattern h.cost_pattern h.constraints_pattern

/-! ## Equilibration -/

theorem limitNorm_pos (hmin : 0 < c.scalingMin) (hmax : 0 < c.scalingMax) (s : K) : 0 < limitNorm c s := by
  unfold limitNorm
  split
  · exact one_pos
  · next hs =>
      split
      · exact hmax
      · exact hmin.trans_le (not_lt.mp hs)

theorem roundFactor_pos (hpos : ∀ s, 0 < limitNorm c s) (norm : K) : 0 < roundFactor c norm := by
  rw [roundFactor, Scalar.recip_eq_inv]
  exact inv_pos.mpr (Scalar.sqrt_pos (hpos norm))

theorem StoresData.equilibrateRound (hpos : ∀ s, 0 < limitNorm c s) (hL : NewtonData L.Q L.A n m) (h : StoresData S L) :
    StoresData (equilibrateRound c S) L where
  d_pos j := by
    simp only [ScaledProgram.equilibrateRound, Vec.get_hadamard, Vec.get_map]
    exact mul_pos (h.d_pos j) (roundFactor_pos hpos _)
  e_pos i := by
    simp only [ScaledProgram.equilibrateRound, Vec.get_hadamard, Vec.get_map]
    exact mul_pos (h.e_pos i) (roundFactor_pos hpos _)
  c_pos := h.c_pos
  cost_pattern := (samePattern_scaleBoth ..).trans h.cost_pattern
  constraints_pattern := (samePattern_scaleBoth ..).trans h.constraints_pattern
  cost_eq j k hk := by
    have hformed := h.formed hL
    have hk' : k ∈ S.Q.slots j := h.cost_pattern.slots_eq j ▸ hk
    simp only [ScaledProgram.equilibrateRound, Vec.get_hadamard, Vec.getD_hadamard]
    rw [valueAt_scaleBoth hformed.cost.toLayout hformed.cost_cols _ _ j.isLt hk', h.cost_eq j k hk,
      h.cost_pattern.rowAt_eq, Vec.get_eq_of_lt _ j]
    ring
  constraints_eq j k hk := by
    have hformed := h.formed hL
    have hk' : k ∈ S.A.slots j := h.constraints_pattern.slots_eq j ▸ hk
    simp only [ScaledProgram.equilibrateRound, Vec.get_hadamard, Vec.getD_hadamard]
    rw [valueAt_scaleBoth hformed.constraints.toLayout hformed.constraint_cols _ _ j.isLt hk', h.constraints_eq j k hk,
      h.constraints_pattern.rowAt_eq, Vec.get_eq_of_lt _ j]
    ring
  linear_eq j := by
    simp only [ScaledProgram.equilibrateRound, Vec.get_hadamard, h.linear_eq]
    ring

theorem StoresData.rounds (hpos : ∀ s, 0 < limitNorm c s) (hL : NewtonData L.Q L.A n m) (h : StoresData S L)
    (l : List Nat) : StoresData (l.foldl (fun S _ => ScaledProgram.equilibrateRound c S) S) L := by
  induction l generalizing S with
  | nil => exact h
  | cons k l ih => exact ih (h.equilibrateRound hpos hL)

/-- The cost of a program that is not scaled as a whole yet. -/
theorem StoresData.scaleCost (hpos : ∀ s, 0 < limitNorm c s) (h : StoresData S L) (hone : S.scaling.c = 1) :
    StoresData (scaleCost c S) L where
  d_pos := h.d_pos
  e_pos := h.e_pos
  c_pos := by
    simp only [ScaledProgram.scaleCost, Scalar.recip_eq_inv]
    exact inv_pos.mpr (hpos _)
  cost_pattern := (samePattern_scale ..).trans h.cost_pattern
  constraints_pattern := h.constraints_pattern
  cost_eq j k hk := by
    simp only [ScaledProgram.scaleCost, valueAt_scale]
    rw [h.cost_eq j k hk, hone]
    ring
  constraints_eq := h.constraints_eq
  linear_eq j := by
    simp only [ScaledProgram.scaleCost, Vec.get_scale]
    rw [h.linear_eq, hone]
    ring

/-- The rounds touch neither the limit nor the factor on the cost. -/
theorem rounds_keep {T : Type} [Scalar T] {S : ScaledProgram T n m} {c : Settings T} (l : List Nat) :
    (l.foldl (fun S _ => ScaledProgram.equilibrateRound c S) S).limit = S.limit ∧
      (l.foldl (fun S _ => ScaledProgram.equilibrateRound c S) S).scaling.c = S.scaling.c := by
  induction l generalizing S with
  | nil => exact ⟨rfl, rfl⟩
  | cons k l ih => exact ih (S := ScaledProgram.equilibrateRound c S)

theorem limit_equilibrate {T : Type} [Scalar T] (S : ScaledProgram T n m) (c : Settings T) :
    (S.equilibrate c).limit = S.limit := by
  unfold ScaledProgram.equilibrate
  split
  · rfl
  · exact (rounds_keep (List.range c.scalingIter)).1

/-! ## New data -/

theorem clamp_clamp {limit : K} (hlimit : 0 < limit) (x : K) :
    Scalar.clamp (Scalar.clamp x (-limit) limit) (-limit) limit = Scalar.clamp x (-limit) limit := by
  have hle : -limit ≤ limit := by linarith
  exact Scalar.clamp_eq_self (Scalar.le_clamp hle) (Scalar.clamp_le hle)

/-- Bounds in the units of the program that agree with those of the program once they are clamped. -/
theorem StoresData.setBounds (h : StoresData S L) (hlimit : S.limit = L.limit)
    (hdinv : ∀ j, S.scaling.dinv.get j = (S.scaling.d.get j)⁻¹)
    (heinv : ∀ i, S.scaling.einv.get i = (S.scaling.e.get i)⁻¹) {bmin bmax : Vector K m}
    (hlower : ∀ i, Scalar.clamp (bmin.get i) (-L.limit) L.limit = L.bmin.get i)
    (hupper : ∀ i, Scalar.clamp (bmax.get i) (-L.limit) L.limit = L.bmax.get i) :
    Stores (S.setBounds bmin bmax) L := by
  exact
    { h with
      limit_eq := hlimit
      lowerFinite_eq := fun i => by
        simp only [ScaledProgram.setBounds, Vec.get_map, Vec.get_clamp, hlimit, hlower]
      upperFinite_eq := fun i => by
        simp only [ScaledProgram.setBounds, Vec.get_map, Vec.get_clamp, hlimit, hupper]
      lower_eq := fun i => by
        simp only [ScaledProgram.setBounds, Vec.get_zipWith, Vec.get_clamp, hlimit, hlower]
      upper_eq := fun i => by
        simp only [ScaledProgram.setBounds, Vec.get_zipWith, Vec.get_clamp, hlimit, hupper]
      dinv_eq := hdinv
      einv_eq := heinv }

theorem Stores.setCost (h : Stores S L) (q : Vector K n) : Stores (S.setCost q) { L with q } :=
  { h with
    linear_eq := fun j => by
      simp only [ScaledProgram.setCost, Vec.get_scale, Vec.get_hadamard]
      ring }

/-! ## The units of the program -/

/-- A lower bound in the units of the program is recovered, whatever stands for an absent one at the limit. -/
theorem Stores.unscaledBound_lower (h : Stores S L) (hclamped : L.Clamped) {absent : Vector K m} {i : Fin m}
    (habsent : ¬-L.limit < L.bmin.get i → absent.get i = -L.limit) :
    (unscaledBound S.bmin S.lowerFinite S.scaling.einv absent).get i = L.bmin.get i := by
  have he := (h.e_pos i).ne'
  simp only [unscaledBound, Vec.get_ofFn, h.lowerFinite_eq, decide_eq_true_eq, h.lower_eq, h.einv_eq]
  by_cases hfin : -L.limit < L.bmin.get i
  · rw [if_pos hfin, if_pos hfin, mul_assoc, mul_inv_cancel₀ he, mul_one]
  · rw [if_neg hfin, habsent hfin]
    exact le_antisymm (hclamped.lower i).1 (not_lt.mp hfin)

theorem Stores.unscaledBound_upper (h : Stores S L) (hclamped : L.Clamped) {absent : Vector K m} {i : Fin m}
    (habsent : ¬L.bmax.get i < L.limit → absent.get i = L.limit) :
    (unscaledBound S.bmax S.upperFinite S.scaling.einv absent).get i = L.bmax.get i := by
  have he := (h.e_pos i).ne'
  simp only [unscaledBound, Vec.get_ofFn, h.upperFinite_eq, decide_eq_true_eq, h.upper_eq, h.einv_eq]
  by_cases hfin : L.bmax.get i < L.limit
  · rw [if_pos hfin, if_pos hfin, mul_assoc, mul_inv_cancel₀ he, mul_one]
  · rw [if_neg hfin, habsent hfin]
    exact le_antisymm (not_lt.mp hfin) (hclamped.upper i).2

theorem StoresData.unscaled_cost (h : StoresData S L) (hdinv : ∀ j, S.scaling.dinv.get j = (S.scaling.d.get j)⁻¹)
    (hL : NewtonData L.Q L.A n m) : S.unscaled.Q = L.Q := by
  have hformed := h.formed hL
  refine SamePattern.eq_of_values
    ((samePattern_scale ..).trans ((samePattern_scaleBoth ..).trans h.cost_pattern)) hL.cost.toLayout fun j hj k hk => ?_
  rw [hL.cost_cols] at hj
  have hk' : k ∈ S.Q.slots j := h.cost_pattern.slots_eq j ▸ hk
  have hrow := hL.cost_row_lt hj hk
  have hd := (h.d_pos ⟨j, hj⟩).ne'
  have hd' := (h.d_pos ⟨L.Q.rowAt k, hrow⟩).ne'
  have hc := h.c_pos.ne'
  rw [ScaledProgram.unscaled, valueAt_scale, valueAt_scaleBoth hformed.cost.toLayout hformed.cost_cols _ _ hj hk',
    h.cost_eq ⟨j, hj⟩ k hk, h.cost_pattern.rowAt_eq, Vec.get_eq_of_lt _ ⟨j, hj⟩, Vec.get_eq_of_lt _ ⟨_, hrow⟩,
    Vec.get_eq_of_lt _ ⟨_, hrow⟩, hdinv, hdinv, Scalar.recip_eq_inv]
  field_simp

theorem StoresData.unscaled_constraints (h : StoresData S L)
    (hdinv : ∀ j, S.scaling.dinv.get j = (S.scaling.d.get j)⁻¹)
    (heinv : ∀ i, S.scaling.einv.get i = (S.scaling.e.get i)⁻¹) (hL : NewtonData L.Q L.A n m) :
    S.unscaled.A = L.A := by
  have hformed := h.formed hL
  refine SamePattern.eq_of_values ((samePattern_scaleBoth ..).trans h.constraints_pattern) hL.constraints.toLayout
    fun j hj k hk => ?_
  rw [hL.constraint_cols] at hj
  have hk' : k ∈ S.A.slots j := h.constraints_pattern.slots_eq j ▸ hk
  have hrow := hL.constraint_row_lt hj hk
  have hd := (h.d_pos ⟨j, hj⟩).ne'
  have he := (h.e_pos ⟨L.A.rowAt k, hrow⟩).ne'
  rw [ScaledProgram.unscaled, valueAt_scaleBoth hformed.constraints.toLayout hformed.constraint_cols _ _ hj hk',
    h.constraints_eq ⟨j, hj⟩ k hk, h.constraints_pattern.rowAt_eq, Vec.get_eq_of_lt _ ⟨j, hj⟩,
    Vec.get_eq_of_lt _ ⟨_, hrow⟩, Vec.get_eq_of_lt _ ⟨_, hrow⟩, hdinv, heinv]
  field_simp

theorem StoresData.unscaled_linear (h : StoresData S L)
    (hdinv : ∀ j, S.scaling.dinv.get j = (S.scaling.d.get j)⁻¹) : S.unscaled.q = L.q := by
  refine Vec.ext_get fun j => ?_
  have hd := (h.d_pos j).ne'
  have hc := h.c_pos.ne'
  simp only [ScaledProgram.unscaled, Vec.get_scale, Vec.get_hadamard, h.linear_eq, hdinv, Scalar.recip_eq_inv]
  field_simp

/-- Unscaling gives the stored program back, with every array as it was. -/
theorem Stores.unscaled_eq (h : Stores S L) (hL : NewtonData L.Q L.A n m) (hclamped : L.Clamped) : S.unscaled = L := by
  have hlinear := h.toStoresData.unscaled_linear h.dinv_eq
  have hlower : S.unscaled.bmin = L.bmin :=
    Vec.ext_get fun i => h.unscaledBound_lower hclamped fun hfin => by rw [h.lower_eq, if_neg hfin]
  have hupper : S.unscaled.bmax = L.bmax :=
    Vec.ext_get fun i => h.unscaledBound_upper hclamped fun hfin => by rw [h.upper_eq, if_neg hfin]
  have hcost := h.toStoresData.unscaled_cost h.dinv_eq hL
  have hconstraints := h.toStoresData.unscaled_constraints h.dinv_eq h.einv_eq hL
  have hlimit : S.unscaled.limit = L.limit := h.limit_eq
  generalize S.unscaled = U at hlinear hlower hupper hcost hconstraints hlimit
  cases U
  cases L
  subst hlinear hlower hupper hcost hconstraints hlimit
  rfl

/-! ## Setup -/

theorem stores_ofProgram (hL : NewtonData L.Q L.A n m) (hclamped : L.Clamped) : Stores (ofProgram L) L where
  d_pos j := by simp [ofProgram, Scaling.identity]
  e_pos i := by simp [ofProgram, Scaling.identity]
  c_pos := one_pos
  cost_pattern := SamePattern.refl L.Q
  constraints_pattern := SamePattern.refl L.A
  cost_eq j k hk := by
    simp only [ofProgram, Scaling.identity]
    rw [Vec.get_eq_of_lt _ ⟨_, hL.cost_row_lt j.isLt hk⟩, Vec.get_fill, Vec.get_fill, one_mul, one_mul, mul_one]
  constraints_eq j k hk := by
    simp only [ofProgram, Scaling.identity]
    rw [Vec.get_eq_of_lt _ ⟨_, hL.constraint_row_lt j.isLt hk⟩, Vec.get_fill, Vec.get_fill, one_mul, mul_one]
  linear_eq j := by simp [ofProgram, Scaling.identity]
  limit_eq := rfl
  lowerFinite_eq i := by simp [ofProgram]
  upperFinite_eq i := by simp [ofProgram]
  lower_eq i := by
    simp only [ofProgram, Scaling.identity, Vec.get_fill, mul_one]
    by_cases hfin : -L.limit < L.bmin.get i
    · rw [if_pos hfin]
    · rw [if_neg hfin]
      exact le_antisymm (not_lt.mp hfin) (hclamped.lower i).1
  upper_eq i := by
    simp only [ofProgram, Scaling.identity, Vec.get_fill, mul_one]
    by_cases hfin : L.bmax.get i < L.limit
    · rw [if_pos hfin]
    · rw [if_neg hfin]
      exact le_antisymm (hclamped.upper i).2 (not_lt.mp hfin)
  dinv_eq j := by simp [ofProgram, Scaling.identity]
  einv_eq i := by simp [ofProgram, Scaling.identity]

/-- Equilibration only changes the factors. -/
theorem stores_equilibrate (hL : NewtonData L.Q L.A n m) (hclamped : L.Clamped) (hc : c.validate = .ok ()) :
    Stores ((ofProgram L).equilibrate c) L := by
  have hstart := stores_ofProgram hL hclamped
  unfold ScaledProgram.equilibrate
  by_cases henable : c.scalingEnable
  · rw [henable, Bool.not_true, if_neg Bool.false_ne_true]
    obtain ⟨hlimit, hfactor⟩ := rounds_keep (S := ofProgram L) (c := c) (List.range c.scalingIter)
    have hpos := limitNorm_pos (Settings.scalingMin_pos hc) (Settings.scalingMax_pos hc)
    have hdata := (hstart.toStoresData.rounds hpos hL (List.range c.scalingIter)).scaleCost hpos hfactor
    exact hdata.setBounds hlimit (fun j => Vec.get_recip _ j) (fun i => Vec.get_recip _ i)
      (fun i => Scalar.clamp_eq_self (hclamped.lower i).1 (hclamped.lower i).2)
      fun i => Scalar.clamp_eq_self (hclamped.upper i).1 (hclamped.upper i).2
  · rw [Bool.not_eq_true] at henable
    rw [henable, Bool.not_false, if_pos rfl]
    exact hstart

end ScaledProgram
end AugLag
