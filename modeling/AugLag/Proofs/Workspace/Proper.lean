import AugLag.Proofs.Problem.Lifted
import AugLag.Proofs.Workspace.Replay

/-!
# Workspaces of proper programs

With an exact arithmetic that has infinite numbers, the scaled program of a workspace is at any time the scaling of a
proper program: its matrices and its cost are finite, and its bounds are in order.
-/

namespace AugLag

open Extended

variable {K : Type} [ExactScalar K] {top : K} {n m : Nat}

/-! ## Normalized problems -/

theorem Extended.neg_le_of_pos {a : Extended K top} (h : 0 < a) : -a ≤ a := by
  cases a with
  | finite x => exact (neg_nonpos.mpr (le_of_lt (lt_finite_finite.mp h))).trans (le_of_lt (lt_finite_finite.mp h))
  | infinite s =>
      cases lt_finite_infinite.mp h
      exact .inl rfl
  | undefined => exact absurd h not_lt_undefined

/-- Vectors that are in order stay so between the limits. -/
theorem Vec.clamp_ordered {limit : Extended K top} (hlimit : 0 < limit) {lower upper : Vector (Extended K top) m}
    (h : ∀ i, lower.get i ≤ upper.get i) (i : Fin m) :
    (-limit ≤ (clamp lower (-limit) limit).get i ∧ (clamp lower (-limit) limit).get i ≤ limit) ∧
      (-limit ≤ (clamp upper (-limit) limit).get i ∧ (clamp upper (-limit) limit).get i ≤ limit) ∧
        (clamp lower (-limit) limit).get i ≤ (clamp upper (-limit) limit).get i := by
  have hle := neg_le_of_pos hlimit
  obtain ⟨hlower, hupper⟩ := SpecialValues.isNaN_of_le (h i)
  rw [clamp, clamp, get_map, get_map]
  exact ⟨Scalar.clamp_between hlower hle, Scalar.clamp_between hupper hle, Scalar.clamp_mono (h i) hle⟩

/-- A valid problem makes a proper program. -/
theorem ProblemInput.proper_normalize {P : ProblemInput (Extended K top)} {c : Settings (Extended K top)}
    (h : P.validate c = .ok (n, m)) {limit : Extended K top} (hlimit : 0 < limit) :
    (P.normalize n m limit).1.Proper := by
  have hP := valid_of_validate h
  obtain ⟨hcost, hconstraints⟩ := hP.finite limit
  obtain ⟨hq, hlower, hupper, hlim⟩ := P.normalize_vectors n m limit
  have hbounds := Vec.clamp_ordered hlimit hP.read_le
  rw [← hlower, ← hupper, ← hlim] at hbounds
  exact
    { formed := hP.formed limit
      square := hP.cost_rows limit
      cost := hcost
      linear := by
        rw [hq]
        refine Vector.all_eq_true.mpr fun i hi => ?_
        rw [Vec.read, Vector.getElem_ofFn, Array.getD_eq_getD_getElem?]
        cases hmem : (P.q.getD #[])[i]? with
        | none => rfl
        | some x =>
            cases hPq : P.q with
            | none =>
                rw [hPq] at hmem
                cases hmem
            | some q =>
                rw [hPq, Option.getD_some] at hmem
                exact Array.all_eq_true_iff_forall_mem.mp (finite_of_validate h q hPq) x (Array.mem_of_getElem? hmem)
      constraints := hconstraints
      limit_pos := hlim ▸ hlimit
      lower := fun i => (hbounds i).1
      upper := fun i => (hbounds i).2.1
      ordered := fun i => (hbounds i).2.2 }

/-! ## Solvers -/

theorem isFinite_of_finiteVector {T : Type} [Scalar T] {what : ProblemPart} {a : Array T} {v : Vector T n}
    (h : finiteVector what n a = .ok v) : Vec.isFinite v = true := by
  unfold finiteVector at h
  split at h
  · cases h
  · split at h
    · next hfinite =>
        cases h
        exact hfinite
    · cases h

namespace Solver

variable {S S' : Solver (Extended K top) n m}

/-- Under a positive limit the solver has scaled a proper program. -/
def ScalesProper (S : Solver (Extended K top) n m) : Prop :=
  0 < S.program.limit → ∃ L : QuadraticProgram (Extended K top) n m, L.Proper ∧ S.program.Scales L

theorem scalesProper_of_setup [Elimination.Rule] {problem : ProblemInput (Extended K top)}
    {c : Settings (Extended K top)} {limit : Extended K top} (hvalid : problem.validate c = .ok (n, m))
    (h : Solver.ofProgram (problem.normalize n m limit).1 c = .ok S) : S.ScalesProper := by
  intro hpos
  obtain ⟨engine, -, rfl⟩ := map_eq_ok.mp h
  have hc := (ProblemInput.valid_of_validate hvalid).settings
  have hlimit : ((ScaledProgram.ofProgram (problem.normalize n m limit).1).equilibrate c).limit = limit :=
    (ScaledProgram.limit_equilibrate _ c).trans (problem.normalize_vectors n m limit).2.2.2
  have hproper := problem.proper_normalize hvalid (hlimit ▸ hpos)
  exact ⟨_, hproper, ScaledProgram.scales_equilibrate hproper hc⟩

theorem ScalesProper.warmStart (h : S.ScalesProper) (x y : Option (Array (Extended K top))) :
    (S.warmStart x y).1.ScalesProper := by
  rw [ScalesProper, (S.warmStart_keeps x y).1]
  exact h

theorem ScalesProper.updateCost (h : S.ScalesProper) {q : Array (Extended K top)} (hS : S.updateCost q = .ok S') :
    S'.ScalesProper := by
  obtain ⟨v, hv, rfl⟩ := map_eq_ok.mp hS
  intro hlimit
  obtain ⟨L, hL, hscales⟩ := h hlimit
  have hfinite := isFinite_of_finiteVector hv
  refine ⟨_, ?_, hscales.setCost hfinite⟩
  exact { hL with linear := hfinite }

theorem ScalesProper.updateBounds (h : S.ScalesProper) {bmin bmax : Option (Array (Extended K top))}
    (hS : S.updateBounds bmin bmax = .ok S') : S'.ScalesProper := by
  obtain ⟨lower, upper, hordered, rfl⟩ := exists_of_updateBounds hS
  intro hlimit
  obtain ⟨L, hL, hscales⟩ := h hlimit
  have hbounds := Vec.clamp_ordered hL.limit_pos (inconsistentBound?_eq_none.mp hordered)
  refine ⟨_, ?_, hscales.setBounds lower upper⟩
  exact
    { hL with
      lower := fun i => (hbounds i).1
      upper := fun i => (hbounds i).2.1
      ordered := fun i => (hbounds i).2.2 }

theorem ScalesProper.updateSettings (h : S.ScalesProper) {c : Settings (Extended K top)}
    (hS : S.updateSettings c = .ok S') : S'.ScalesProper := by
  obtain ⟨u, -, rfl⟩ := map_eq_ok.mp hS
  exact h

end Solver

/-! ## Workspaces -/

/-- Whatever was called, the program of a workspace is the scaling of a proper one. -/
theorem Workspace.Reachable.scalesProper [Elimination.Rule] {K : Type} [ExactMachine K] {top : K}
    {w : Workspace (Extended K top)} (h : w.Reachable) : ∀ p ∈ w.prepared, p.solver.ScalesProper :=
  h.keeps
    { setup := Solver.scalesProper_of_setup
      warmStart := fun x y hS => hS.warmStart x y
      updateCost := fun _ hS heq => hS.updateCost heq
      updateBounds := fun _ _ hS heq => hS.updateBounds heq
      updateSettings := fun _ hS heq => hS.updateSettings heq
      run := fun _ hS => hS }

end AugLag
