import AugLag.Proofs.Exact.Extended
import AugLag.Proofs.Problem.Stored

/-!
# Finite data among extended numbers

Data that are finite are calculated with as over their field: norms, scalings and the whole equilibration of a program
carry over (`Lifts`). Bounds may be infinite. They are scaled and unscaled without loss, too.
-/

namespace AugLag

open Extended

variable {K : Type} [ExactScalar K] {top : K} {n m : Nat}

/-! ## Vectors -/

omit [ExactScalar K] in
theorem map_modify_lift (a : Array K) (i : Nat) {f : K → K} {g : Extended K top → Extended K top}
    (h : ∀ x, g (finite x) = finite (f x)) : (a.modify i f).map finite = (a.map finite).modify i g := by
  refine Array.ext_getElem? fun k => ?_
  rw [Array.getElem?_map, Array.getElem?_modify, Array.getElem?_modify, Array.getElem?_map]
  split
  · cases a[k]? with
    | none => rfl
    | some x => exact congrArg some (h x).symm
  · rfl

namespace Vec

theorem get_lift (v : Vector K n) (i : Nat) : get (v.map finite : Vector (Extended K top) n) i = finite (get v i) := by
  simp only [get, Vector.toArray_map, Array.getD_eq_getD_getElem?, Array.getElem?_map]
  cases v.toArray[i]? with
  | none => rfl
  | some x => rfl

theorem hadamard_lift (v w : Vector K n) :
    (hadamard v w).map finite = hadamard (v.map finite : Vector (Extended K top) n) (w.map finite) := by
  simp only [hadamard, Vector.map_zipWith, Vector.zipWith_map]
  rfl

theorem scale_lift (v : Vector K n) (c : K) :
    (scale v c).map finite = scale (v.map finite : Vector (Extended K top) n) (finite c) := by
  simp only [scale, Vector.map_map]
  rfl

omit [ExactScalar K] in
theorem fill_lift (n : Nat) (c : K) : (fill n c).map finite = fill n (finite c : Extended K top) :=
  Vector.map_replicate

theorem recip_lift {v : Vector K n} (hv : ∀ i, v.get i ≠ 0) :
    (recip v).map finite = recip (v.map finite : Vector (Extended K top) n) := by
  refine Vec.ext_get fun i => ?_
  simp only [recip, get_map]
  exact (recip_finite (hv i)).symm

omit [ExactScalar K] in
theorem update_lift (v : Vector K n) (i : Nat) {f : K → K} {g : Extended K top → Extended K top}
    (h : ∀ x, g (finite x) = finite (f x)) : (update v i f).map finite = update (v.map finite) i g :=
  Vector.toArray_inj.mp (map_modify_lift v.toArray i h)

theorem maxAbs_lift (l : List K) : (finite (maxAbs l) : Extended K top) = maxAbs (l.map finite) := by
  rw [maxAbs, maxAbs, List.foldl_map]
  refine (List.foldl_hom finite fun x y => ?_).symm
  rw [abs_finite, max_finite]

theorem normInf_lift (v : Vector K n) : (finite (normInf v) : Extended K top) = normInf (v.map finite) := by
  have hnan : v.any Scalar.isNaN = false := Vector.any_eq_false.mpr fun i hi => by simp
  have hnan' : (v.map finite : Vector (Extended K top) n).any Scalar.isNaN = false :=
    Vector.any_eq_false.mpr fun i hi => by simp
  rw [normInf, normInf, hnan, hnan', if_neg Bool.false_ne_true, if_neg Bool.false_ne_true, maxAbs_lift,
    Vector.toList_map]

end Vec

/-! ## Matrices -/

namespace SparseMatrix

/-- The matrix with its entries among the extended numbers. -/
def lift (top : K) (M : SparseMatrix K) : SparseMatrix (Extended K top) where
  rows := M.rows
  cols := M.cols
  colPtr := M.colPtr
  rowIdx := M.rowIdx
  values := M.values.map finite

theorem valueAt_lift (M : SparseMatrix K) (k : Nat) : (M.lift top).valueAt k = finite (M.valueAt k) := by
  simp only [valueAt, lift, Array.getD_eq_getD_getElem?, Array.getElem?_map]
  cases M.values[k]? with
  | none => rfl
  | some x => rfl

theorem column_lift (M : SparseMatrix K) (j : Nat) :
    (M.lift top).column j = (M.column j).map fun e => (e.1, finite e.2) := by
  rw [column, column, List.map_map]
  refine List.map_congr_left fun k _ => ?_
  rw [valueAt_lift]
  rfl

theorem scale_lift (M : SparseMatrix K) (c : K) : (M.scale c).lift top = (M.lift top).scale (finite c) := by
  simp only [scale, lift, Array.map_map]
  rfl

theorem scaleBoth_lift {k : Nat} (M : SparseMatrix K) (left : Vector K k) (right : Vector K n) :
    (M.scaleBoth left right).lift top = (M.lift top).scaleBoth (left.map finite) (right.map finite) := by
  have hslot (j : Nat) (values : Array K) (k : Nat) :
      ((values.map finite : Array (Extended K top)).modify k
          (· * (Vec.get (left.map finite) (M.rowAt k) * Vec.get (right.map finite) j))) =
        (values.modify k (· * (Vec.get left (M.rowAt k) * Vec.get right j))).map finite := by
    refine (map_modify_lift values k fun x => ?_).symm
    rw [Vec.get_lift, Vec.get_lift]
    rfl
  have hvalues : (List.range n).foldl (fun v j => (M.slots j).foldl (fun values k => values.modify k
        (· * (Vec.get (left.map finite) (M.rowAt k) * Vec.get (right.map finite) j))) v) (M.values.map finite) =
      ((M.scaleBoth left right).values.map finite : Array (Extended K top)) :=
    List.foldl_hom (Array.map finite) fun values j => List.foldl_hom (Array.map finite) (hslot j)
  rw [scaleBoth, lift]
  exact congrArg (SparseMatrix.mk M.rows M.cols M.colPtr M.rowIdx) hvalues.symm

/-! ### Norms -/

theorem raise_lift (norms : Vector K n) (i : Nat) (v : K) :
    (raise norms i v).map finite = raise (norms.map finite : Vector (Extended K top) n) i (finite v) := by
  refine Vec.update_lift norms i fun x => ?_
  rw [abs_finite, max_finite]

theorem symColumnNorms_lift (Q : SparseMatrix K) (n : Nat) :
    (Q.symColumnNorms n).map finite = (Q.lift top).symColumnNorms n := by
  rw [symColumnNorms, symColumnNorms, Vec.zeros, Vec.zeros, zero_eq, ← Vec.fill_lift]
  refine (List.foldl_hom (Vector.map finite) fun norms j => ?_).symm
  rw [column_lift, List.foldl_map]
  refine List.foldl_hom (Vector.map finite) fun norms e => ?_
  rw [raise_lift, raise_lift]

theorem rowNorms_lift (A : SparseMatrix K) (m : Nat) : (A.rowNorms m).map finite = (A.lift top).rowNorms m := by
  have hzip : (A.rowIdx.toList.zip (A.values.map finite).toList : List (Nat × Extended K top)) =
      (A.rowIdx.toList.zip A.values.toList).map fun e => (e.1, finite e.2) := by
    rw [Array.toList_map, List.zip_map_right]
    rfl
  rw [rowNorms, rowNorms, Vec.zeros, Vec.zeros, zero_eq, ← Vec.fill_lift]
  show _ = (A.rowIdx.toList.zip (A.values.map finite).toList).foldl _ _
  rw [hzip, List.foldl_map]
  refine (List.foldl_hom (Vector.map finite) fun norms e => ?_).symm
  rw [raise_lift]

theorem foldColumnNorms_lift (A : SparseMatrix K) (norms : Vector K n) :
    (A.foldColumnNorms norms).map finite = (A.lift top).foldColumnNorms (norms.map finite) := by
  refine Vec.ext_get fun i => ?_
  simp only [foldColumnNorms, Vec.get_eq_getElem, Vector.getElem_map, Vector.getElem_mapIdx]
  rw [column_lift, List.foldl_map]
  refine (List.foldl_hom finite fun x e => ?_).symm
  rw [abs_finite, max_finite]

end SparseMatrix

/-! ## Programs -/

/-- The settings agree on how to scale. -/
structure Settings.ScalesLike (c : Settings (Extended K top)) (c₀ : Settings K) : Prop where
  enable : c.scalingEnable = c₀.scalingEnable
  iter : c.scalingIter = c₀.scalingIter
  min : c.scalingMin = finite c₀.scalingMin
  max : c.scalingMax = finite c₀.scalingMax

namespace ScaledProgram

/-- Apart from its bounds the program is one over the field. -/
structure Lifts (S : ScaledProgram (Extended K top) n m) (S₀ : ScaledProgram K n m) : Prop where
  cost : S.Q = S₀.Q.lift top
  linear : S.q = S₀.q.map finite
  constraints : S.A = S₀.A.lift top
  d : S.scaling.d = S₀.scaling.d.map finite
  dinv : S.scaling.dinv = S₀.scaling.dinv.map finite
  e : S.scaling.e = S₀.scaling.e.map finite
  einv : S.scaling.einv = S₀.scaling.einv.map finite
  c : S.scaling.c = finite S₀.scaling.c

variable {S : ScaledProgram (Extended K top) n m} {S₀ : ScaledProgram K n m} {L₀ : QuadraticProgram K n m}
variable {c : Settings (Extended K top)} {c₀ : Settings K}

theorem limitNorm_lift (hc : c.ScalesLike c₀) (s : K) :
    limitNorm c (finite s : Extended K top) = finite (limitNorm c₀ s) := by
  rw [limitNorm, limitNorm, hc.min, hc.max]
  simp only [lt_finite_finite]
  split
  · rfl
  · split
    · rfl
    · rfl

theorem roundFactor_lift (hc : c.ScalesLike c₀) (hpos : ∀ s : K, 0 < limitNorm c₀ s) (s : K) :
    roundFactor c (finite s : Extended K top) = finite (roundFactor c₀ s) := by
  rw [roundFactor, roundFactor, limitNorm_lift hc, sqrt_finite (hpos s).le, recip_finite (Scalar.sqrt_pos (hpos s)).ne']

theorem Lifts.equilibrateRound (h : S.Lifts S₀) (hc : c.ScalesLike c₀) (hpos : ∀ s : K, 0 < limitNorm c₀ s) :
    (equilibrateRound c S).Lifts (equilibrateRound c₀ S₀) := by
  have hfactors {k : Nat} (norms : Vector K k) :
      (norms.map finite : Vector (Extended K top) k).map (roundFactor c) = (norms.map (roundFactor c₀)).map finite := by
    rw [Vector.map_map, Vector.map_map]
    exact congrArg (Vector.map · norms) (funext (roundFactor_lift hc hpos))
  have hcolumns : ((S.A.foldColumnNorms (S.Q.symColumnNorms n)).map (roundFactor c)) =
      ((S₀.A.foldColumnNorms (S₀.Q.symColumnNorms n)).map (roundFactor c₀)).map finite := by
    rw [h.cost, h.constraints, ← SparseMatrix.symColumnNorms_lift, ← SparseMatrix.foldColumnNorms_lift, hfactors]
  have hrows : ((S.A.rowNorms m).map (roundFactor c)) = ((S₀.A.rowNorms m).map (roundFactor c₀)).map finite := by
    rw [h.constraints, ← SparseMatrix.rowNorms_lift, hfactors]
  exact
    { cost := by
        simp only [ScaledProgram.equilibrateRound, hcolumns]
        rw [SparseMatrix.scaleBoth_lift, h.cost]
      linear := by
        simp only [ScaledProgram.equilibrateRound, hcolumns]
        rw [Vec.hadamard_lift, h.linear]
      constraints := by
        simp only [ScaledProgram.equilibrateRound, hcolumns, hrows]
        rw [SparseMatrix.scaleBoth_lift, h.constraints]
      d := by
        simp only [ScaledProgram.equilibrateRound, hcolumns]
        rw [Vec.hadamard_lift, h.d]
      dinv := h.dinv
      e := by
        simp only [ScaledProgram.equilibrateRound, hrows]
        rw [Vec.hadamard_lift, h.e]
      einv := h.einv
      c := h.c }

theorem Lifts.rounds (h : S.Lifts S₀) (hc : c.ScalesLike c₀) (hpos : ∀ s : K, 0 < limitNorm c₀ s) (l : List Nat) :
    (l.foldl (fun S _ => ScaledProgram.equilibrateRound c S) S).Lifts
      (l.foldl (fun S _ => ScaledProgram.equilibrateRound c₀ S) S₀) := by
  induction l generalizing S S₀ with
  | nil => exact h
  | cons k l ih => exact ih (h.equilibrateRound hc hpos)

theorem Lifts.scaleCost (h : S.Lifts S₀) (hS₀ : S₀.StoresData L₀) (hc : c.ScalesLike c₀)
    (hpos : ∀ s : K, 0 < limitNorm c₀ s) : (scaleCost c S).Lifts (scaleCost c₀ S₀) := by
  have hfactor : Scalar.recip (limitNorm c (Scalar.max 1 (Vec.normInf S.q))) =
      finite (Scalar.recip (limitNorm c₀ (Scalar.max 1 (Vec.normInf S₀.q)))) := by
    rw [h.linear, ← Vec.normInf_lift, one_eq, max_finite, limitNorm_lift hc, recip_finite (hpos _).ne']
  exact
    { cost := by
        simp only [ScaledProgram.scaleCost, hfactor]
        rw [SparseMatrix.scale_lift, h.cost]
      linear := by
        simp only [ScaledProgram.scaleCost, hfactor]
        rw [Vec.scale_lift, h.linear]
      constraints := h.constraints
      d := h.d
      dinv := by
        simp only [ScaledProgram.scaleCost]
        rw [Vec.recip_lift fun i => (hS₀.d_pos i).ne', h.d]
      e := h.e
      einv := by
        simp only [ScaledProgram.scaleCost]
        rw [Vec.recip_lift fun i => (hS₀.e_pos i).ne', h.e]
      c := hfactor }

theorem Lifts.setCost (h : S.Lifts S₀) (q : Vector K n) : (S.setCost (q.map finite)).Lifts (S₀.setCost q) :=
  { h with
    linear := by
      simp only [ScaledProgram.setCost]
      rw [Vec.scale_lift, Vec.hadamard_lift, h.d, h.c] }

end ScaledProgram

/-! ## Programs with infinite bounds -/

namespace SparseMatrix

/-- The entries of the matrix as numbers of the field. -/
def parts (M : SparseMatrix (Extended K top)) : SparseMatrix K where
  rows := M.rows
  cols := M.cols
  colPtr := M.colPtr
  rowIdx := M.rowIdx
  values := M.values.map part

theorem lift_parts {M : SparseMatrix (Extended K top)} (h : M.values.all Scalar.isFinite = true) :
    M.parts.lift top = M := by
  have hvalues : (M.values.map part).map finite = M.values := by
    rw [Array.map_map]
    refine (Array.map_congr_left fun x hx => ?_).trans (Array.map_id _)
    exact (eq_finite_of_isFinite (Array.all_eq_true_iff_forall_mem.mp h x hx)).symm
  rw [lift, parts, hvalues]

theorem WellFormed.parts {M : SparseMatrix (Extended K top)} (h : M.WellFormed) : M.parts.WellFormed where
  size_colPtr := h.size_colPtr
  first_zero := h.first_zero
  first_le_stop := h.first_le_stop
  nnz_eq := h.nnz_eq.trans (Array.size_map ..).symm
  size_rowIdx := h.size_rowIdx.trans (Array.size_map ..).symm
  rowAt_lt k hk := h.rowAt_lt k (hk.trans_eq (Array.size_map ..))
  rows_ascend := h.rows_ascend

end SparseMatrix

theorem NewtonData.parts {Q A : SparseMatrix (Extended K top)} (h : NewtonData Q A n m) :
    NewtonData Q.parts A.parts n m where
  cost := h.cost.parts
  upper := h.upper
  cost_cols := h.cost_cols
  constraints := h.constraints.parts
  constraint_cols := h.constraint_cols
  constraint_rows := h.constraint_rows

theorem Vec.lift_parts {v : Vector (Extended K top) n} (h : Vec.isFinite v = true) : (v.map part).map finite = v := by
  refine Vec.ext_get fun i => ?_
  rw [get_map, get_map]
  exact (eq_finite_of_isFinite (Vector.all_eq_true.mp h i i.isLt)).symm

/-- The finite data of a program, without its bounds. -/
def QuadraticProgram.parts (L : QuadraticProgram (Extended K top) n m) : QuadraticProgram K n m where
  Q := L.Q.parts
  q := L.q.map part
  A := L.A.parts
  bmin := Vec.zeros m
  bmax := Vec.zeros m
  limit := 1

/-- Apart from its bounds the program is finite, and the bounds are in order and within the limit. -/
structure QuadraticProgram.Proper (L : QuadraticProgram (Extended K top) n m) : Prop where
  formed : NewtonData L.Q L.A n m
  square : L.Q.rows = n
  cost : L.Q.values.all Scalar.isFinite = true
  linear : Vec.isFinite L.q = true
  constraints : L.A.values.all Scalar.isFinite = true
  limit_pos : 0 < L.limit
  lower : ∀ i, -L.limit ≤ L.bmin.get i ∧ L.bmin.get i ≤ L.limit
  upper : ∀ i, -L.limit ≤ L.bmax.get i ∧ L.bmax.get i ≤ L.limit
  ordered : ∀ i, L.bmin.get i ≤ L.bmax.get i

theorem QuadraticProgram.Proper.clamp_lower {L : QuadraticProgram (Extended K top) n m} (h : L.Proper) :
    Vec.clamp L.bmin (-L.limit) L.limit = L.bmin :=
  Vec.ext_get fun i => by rw [Vec.clamp, Vec.get_map, Scalar.clamp_of_between (h.lower i).1 (h.lower i).2]

theorem QuadraticProgram.Proper.clamp_upper {L : QuadraticProgram (Extended K top) n m} (h : L.Proper) :
    Vec.clamp L.bmax (-L.limit) L.limit = L.bmax :=
  Vec.ext_get fun i => by rw [Vec.clamp, Vec.get_map, Scalar.clamp_of_between (h.upper i).1 (h.upper i).2]

namespace ScaledProgram

/-- The program is the scaling of another one, whose bounds may be infinite. -/
structure Scales (S : ScaledProgram (Extended K top) n m) (L : QuadraticProgram (Extended K top) n m) : Prop where
  data : ∃ S₀ : ScaledProgram K n m, S.Lifts S₀ ∧ S₀.StoresData L.parts ∧
    (∀ j, S₀.scaling.dinv.get j = (S₀.scaling.d.get j)⁻¹) ∧ ∀ i, S₀.scaling.einv.get i = (S₀.scaling.e.get i)⁻¹
  limit_eq : S.limit = L.limit
  lowerFinite_eq : ∀ i, S.lowerFinite.get i = decide (-L.limit < L.bmin.get i)
  upperFinite_eq : ∀ i, S.upperFinite.get i = decide (L.bmax.get i < L.limit)
  lower_eq : ∀ i, S.bmin.get i = if -L.limit < L.bmin.get i then L.bmin.get i * S.scaling.e.get i else -L.limit
  upper_eq : ∀ i, S.bmax.get i = if L.bmax.get i < L.limit then L.bmax.get i * S.scaling.e.get i else L.limit

variable {S : ScaledProgram (Extended K top) n m} {L : QuadraticProgram (Extended K top) n m}
variable {c : Settings (Extended K top)}

theorem Scales.cost_pattern (h : S.Scales L) : S.Q.SamePattern L.Q := by
  obtain ⟨S₀, hlifts, hstores, -⟩ := h.data
  obtain ⟨hrows, hcols, hptr, hidx, hsize⟩ := hstores.cost_pattern
  rw [hlifts.cost]
  exact ⟨hrows, hcols, hptr, hidx, (Array.size_map ..).trans (hsize.trans (Array.size_map ..))⟩

theorem Scales.constraints_pattern (h : S.Scales L) : S.A.SamePattern L.A := by
  obtain ⟨S₀, hlifts, hstores, -⟩ := h.data
  obtain ⟨hrows, hcols, hptr, hidx, hsize⟩ := hstores.constraints_pattern
  rw [hlifts.constraints]
  exact ⟨hrows, hcols, hptr, hidx, (Array.size_map ..).trans (hsize.trans (Array.size_map ..))⟩

/-- Settings over the field that scale as valid ones. -/
theorem exists_scalesLike (hc : c.validate = .ok ()) :
    ∃ c₀ : Settings K, c.ScalesLike c₀ ∧ ∀ s, 0 < limitNorm c₀ s := by
  have hpositive {v : Extended K top} (hv : SettingRange.positive.contains v = true) : v = finite v.part ∧ 0 < v.part := by
    obtain ⟨hpos, hfinite⟩ := Bool.and_eq_true_iff.mp hv
    have heq := eq_finite_of_isFinite hfinite
    have hpos : (0 : Extended K top) < v := of_decide_eq_true hpos
    rw [heq] at hpos
    exact ⟨heq, hpos⟩
  obtain ⟨hmin, hminpos⟩ := hpositive (Settings.contains_of_validate hc .scalingMin)
  obtain ⟨hmax, hmaxpos⟩ := hpositive (Settings.contains_of_validate hc .scalingMax)
  refine ⟨{ (Settings.default : Settings K) with
    scalingEnable := c.scalingEnable
    scalingIter := c.scalingIter
    scalingMin := c.scalingMin.part
    scalingMax := c.scalingMax.part }, ⟨rfl, rfl, hmin, hmax⟩, limitNorm_pos hminpos hmaxpos⟩

theorem lifts_ofProgram (hL : L.Proper) : (ofProgram L).Lifts (ofProgram L.parts) where
  cost := (SparseMatrix.lift_parts hL.cost).symm
  linear := (Vec.lift_parts hL.linear).symm
  constraints := (SparseMatrix.lift_parts hL.constraints).symm
  d := (Vec.fill_lift _ 1).symm
  dinv := (Vec.fill_lift _ 1).symm
  e := (Vec.fill_lift _ 1).symm
  einv := (Vec.fill_lift _ 1).symm
  c := rfl

theorem clamped_parts (L : QuadraticProgram (Extended K top) n m) : L.parts.Clamped := by
  have hzero (i : Fin m) : (Vec.zeros m : Vector K m).get i = 0 := Vec.get_zeros i
  have hbounds : -(1 : K) ≤ 0 ∧ (0 : K) ≤ 1 := ⟨neg_nonpos.mpr zero_le_one, zero_le_one⟩
  refine ⟨fun i => ?_, fun i => ?_⟩
  · rw [QuadraticProgram.parts, hzero]
    exact hbounds
  · rw [QuadraticProgram.parts, hzero]
    exact hbounds

/-- The finite data of a program and bounds that are those of the program once they are clamped. -/
theorem scales_setBounds {S₀ : ScaledProgram K n m} (hlifts : S.Lifts S₀) (hstores : S₀.StoresData L.parts)
    (hdinv : ∀ j, S₀.scaling.dinv.get j = (S₀.scaling.d.get j)⁻¹)
    (heinv : ∀ i, S₀.scaling.einv.get i = (S₀.scaling.e.get i)⁻¹) (hlimit : S.limit = L.limit)
    {bmin bmax : Vector (Extended K top) m} (hlower : Vec.clamp bmin (-L.limit) L.limit = L.bmin)
    (hupper : Vec.clamp bmax (-L.limit) L.limit = L.bmax) : (S.setBounds bmin bmax).Scales L where
  data := ⟨S₀, { hlifts with }, hstores, hdinv, heinv⟩
  limit_eq := hlimit
  lowerFinite_eq i := by simp only [ScaledProgram.setBounds, Vec.get_map, hlimit, hlower]
  upperFinite_eq i := by simp only [ScaledProgram.setBounds, Vec.get_map, hlimit, hupper]
  lower_eq i := by simp only [ScaledProgram.setBounds, Vec.get_zipWith, hlimit, hlower]
  upper_eq i := by simp only [ScaledProgram.setBounds, Vec.get_zipWith, hlimit, hupper]

/-- New bounds count with their clamped values. -/
theorem Scales.setBounds (h : S.Scales L) (bmin bmax : Vector (Extended K top) m) :
    (S.setBounds bmin bmax).Scales
      { L with bmin := Vec.clamp bmin (-L.limit) L.limit, bmax := Vec.clamp bmax (-L.limit) L.limit } := by
  obtain ⟨S₀, hlifts, hstores, hdinv, heinv⟩ := h.data
  refine scales_setBounds hlifts ?_ hdinv heinv ?_ ?_ ?_
  · exact { hstores with }
  · exact h.limit_eq
  · rfl
  · rfl

theorem Scales.setCost (h : S.Scales L) {q : Vector (Extended K top) n} (hq : Vec.isFinite q = true) :
    (S.setCost q).Scales { L with q } where
  data := by
    obtain ⟨S₀, hlifts, hstores, hinv⟩ := h.data
    have hlifts' := hlifts.setCost (q.map part)
    rw [Vec.lift_parts hq] at hlifts'
    refine ⟨S₀.setCost (q.map part), hlifts', ?_, hinv⟩
    exact
      { hstores with
        linear_eq := fun j => by
          simp only [ScaledProgram.setCost, Vec.get_scale, Vec.get_hadamard, QuadraticProgram.parts]
          ring }
  limit_eq := h.limit_eq
  lowerFinite_eq := h.lowerFinite_eq
  upperFinite_eq := h.upperFinite_eq
  lower_eq := h.lower_eq
  upper_eq := h.upper_eq

theorem scales_ofProgram (hL : L.Proper) : (ofProgram L).Scales L := by
  have hstores := stores_ofProgram hL.formed.parts (clamped_parts L)
  have hone (i : Fin m) : (ofProgram L).scaling.e.get i = 1 := by simp [ofProgram, Scaling.identity, Vec.fill, Vec.get_eq_getElem]
  exact
    { data := ⟨_, lifts_ofProgram hL, hstores.toStoresData, hstores.dinv_eq, hstores.einv_eq⟩
      limit_eq := rfl
      lowerFinite_eq := fun i => by simp only [ofProgram, Vec.get_map]
      upperFinite_eq := fun i => by simp only [ofProgram, Vec.get_map]
      lower_eq := fun i => by
        rw [hone, mul_one_eq (SpecialValues.isNaN_of_le (hL.lower i).1).2]
        split
        · rfl
        · next hfin => exact (eq_of_le_of_not_lt (hL.lower i).1 hfin).symm
      upper_eq := fun i => by
        rw [hone, mul_one_eq (SpecialValues.isNaN_of_le (hL.upper i).1).2]
        split
        · rfl
        · next hfin => exact eq_of_le_of_not_lt (hL.upper i).2 hfin }

/-- Equilibration scales a program whose bounds may be infinite. -/
theorem scales_equilibrate (hL : L.Proper) (hc : c.validate = .ok ()) : ((ofProgram L).equilibrate c).Scales L := by
  have hstart := stores_ofProgram hL.formed.parts (clamped_parts L)
  obtain ⟨c₀, hlike, hpos⟩ := exists_scalesLike hc
  unfold ScaledProgram.equilibrate
  by_cases henable : c.scalingEnable
  · rw [henable, Bool.not_true, if_neg Bool.false_ne_true]
    obtain ⟨hlimit, -⟩ := rounds_keep (S := ofProgram L) (c := c) (List.range c.scalingIter)
    obtain ⟨-, hfactor⟩ := rounds_keep (S := ofProgram L.parts) (c := c₀) (List.range c.scalingIter)
    have hrounds := hstart.toStoresData.rounds hpos hL.formed.parts (List.range c.scalingIter)
    have hlifts := ((lifts_ofProgram hL).rounds hlike hpos (List.range c.scalingIter)).scaleCost hrounds hlike hpos
    exact scales_setBounds hlifts (hrounds.scaleCost hpos hfactor) (fun j => Vec.get_recip _ j)
      (fun i => Vec.get_recip _ i) hlimit hL.clamp_lower hL.clamp_upper
  · rw [Bool.not_eq_true] at henable
    rw [henable, Bool.not_false, if_pos rfl]
    exact scales_ofProgram hL

/-- A lower bound in the units of the program is recovered, whatever stands for an absent one at the limit. -/
theorem Scales.unscaledBound_lower (h : S.Scales L) (hL : L.Proper) {absent : Vector (Extended K top) m} {i : Fin m}
    (habsent : ¬-L.limit < L.bmin.get i → absent.get i = -L.limit) :
    (unscaledBound S.bmin S.lowerFinite S.scaling.einv absent).get i = L.bmin.get i := by
  obtain ⟨S₀, hlifts, hstores, -, heinv⟩ := h.data
  simp only [unscaledBound, Vec.get_ofFn, h.lowerFinite_eq, decide_eq_true_eq, h.lower_eq, hlifts.e, hlifts.einv,
    Vec.get_map, heinv]
  by_cases hfin : -L.limit < L.bmin.get i
  · rw [if_pos hfin, if_pos hfin,
      mul_mul_inv_cancel (hstores.e_pos i) (SpecialValues.isNaN_of_le (hL.lower i).1).2]
  · rw [if_neg hfin, habsent hfin]
    exact eq_of_le_of_not_lt (hL.lower i).1 hfin

theorem Scales.unscaledBound_upper (h : S.Scales L) (hL : L.Proper) {absent : Vector (Extended K top) m} {i : Fin m}
    (habsent : ¬L.bmax.get i < L.limit → absent.get i = L.limit) :
    (unscaledBound S.bmax S.upperFinite S.scaling.einv absent).get i = L.bmax.get i := by
  obtain ⟨S₀, hlifts, hstores, -, heinv⟩ := h.data
  simp only [unscaledBound, Vec.get_ofFn, h.upperFinite_eq, decide_eq_true_eq, h.upper_eq, hlifts.e, hlifts.einv,
    Vec.get_map, heinv]
  by_cases hfin : L.bmax.get i < L.limit
  · rw [if_pos hfin, if_pos hfin,
      mul_mul_inv_cancel (hstores.e_pos i) (SpecialValues.isNaN_of_le (hL.upper i).1).2]
  · rw [if_neg hfin, habsent hfin]
    exact (eq_of_le_of_not_lt (hL.upper i).2 hfin).symm

/-- Unscaling gives the program back, infinite bounds included. -/
theorem Scales.unscaled_eq (h : S.Scales L) (hL : L.Proper) : S.unscaled = L := by
  obtain ⟨S₀, hlifts, hstores, hdinv, heinv⟩ := h.data
  have hinverse : Scalar.recip S.scaling.c = finite (Scalar.recip S₀.scaling.c) := by
    rw [hlifts.c, recip_finite hstores.c_pos.ne']
  have hcost : S.unscaled.Q = L.Q := by
    have hparts : S₀.unscaled.Q = L.Q.parts := hstores.unscaled_cost hdinv hL.formed.parts
    rw [← SparseMatrix.lift_parts hL.cost, ← hparts]
    simp only [ScaledProgram.unscaled]
    rw [hinverse, hlifts.cost, hlifts.dinv, SparseMatrix.scale_lift, SparseMatrix.scaleBoth_lift]
  have hconstraints : S.unscaled.A = L.A := by
    have hparts : S₀.unscaled.A = L.A.parts := hstores.unscaled_constraints hdinv heinv hL.formed.parts
    rw [← SparseMatrix.lift_parts hL.constraints, ← hparts]
    simp only [ScaledProgram.unscaled]
    rw [hlifts.constraints, hlifts.dinv, hlifts.einv, SparseMatrix.scaleBoth_lift]
  have hlinear : S.unscaled.q = L.q := by
    have hparts : S₀.unscaled.q = L.q.map part := hstores.unscaled_linear hdinv
    rw [← Vec.lift_parts hL.linear, ← hparts]
    simp only [ScaledProgram.unscaled]
    rw [hinverse, hlifts.linear, hlifts.dinv, Vec.scale_lift, Vec.hadamard_lift]
  have hlower : S.unscaled.bmin = L.bmin :=
    Vec.ext_get fun i => h.unscaledBound_lower hL fun hfin => by rw [h.lower_eq, if_neg hfin]
  have hupper : S.unscaled.bmax = L.bmax :=
    Vec.ext_get fun i => h.unscaledBound_upper hL fun hfin => by rw [h.upper_eq, if_neg hfin]
  have hlimit : S.unscaled.limit = L.limit := h.limit_eq
  generalize S.unscaled = U at hlinear hlower hupper hcost hconstraints hlimit
  cases U
  cases L
  subst hlinear hlower hupper hcost hconstraints hlimit
  rfl

end ScaledProgram
end AugLag
