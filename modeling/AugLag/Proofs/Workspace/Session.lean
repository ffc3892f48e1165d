import AugLag.Proofs.Problem.Scaled
import AugLag.Proofs.Solver.Invariant
import AugLag.Proofs.Workspace.Calls

/-!
# Ledgers and sessions

A ledger is the history of a workspace from its setup on, through calls that were all accepted. Beside the workspace it
keeps the input that describes the problem by then; the program of the workspace stores exactly the program of that
input. A session keeps the problem as its user has posed it.
-/

namespace AugLag

variable {K : Type} {n m : Nat}

/-! ## Arrays as vectors -/

theorem Vec.get_of_ofArray? [Scalar K] {a : Array K} {v : Vector K n} (h : Vec.ofArray? n a = some v) (i : Fin n) :
    v.get i = a.getD i 0 := by
  unfold Vec.ofArray? at h
  split at h
  · next hsize =>
      cases h
      have hi : i.val < a.size := by rw [hsize]; exact i.isLt
      simp [Vec.get_eq_getElem, Array.getD_eq_getD_getElem?, hi]
  · cases h

theorem get_of_finiteVector [Scalar K] {what : ProblemPart} {a : Array K} {v : Vector K n}
    (h : finiteVector what n a = .ok v) (i : Fin n) : v.get i = a.getD i 0 := by
  unfold finiteVector at h
  split at h
  · cases h
  · next v' hv =>
      split at h
      · cases h
        exact Vec.get_of_ofArray? hv i
      · cases h

theorem get_of_boundVector [Scalar K] {what : ProblemPart} {a : Array K} {v : Vector K n}
    (h : boundVector what n a = .ok v) (i : Fin n) : v.get i = a.getD i 0 := by
  unfold boundVector at h
  split at h
  · cases h
  · next v' hv =>
      cases h
      exact Vec.get_of_ofArray? hv i

/-! ## Solvers -/

namespace Solver

variable [ExactScalar K] {S : Solver K n m} {problem : ProblemInput K} {limit : K}

/-- The solver stores the program of an input, under settings that are valid. -/
structure Holds (S : Solver K n m) (problem : ProblemInput K) (limit : K) : Prop where
  formed : NewtonData (problem.normalize n m limit).1.Q (problem.normalize n m limit).1.A n m
  describes : problem.Describes limit (problem.normalize n m limit).1
  stores : S.program.Stores (problem.normalize n m limit).1
  consistent : (problem.posed n m).Consistent limit
  settings : S.settings.validate = .ok ()

/-- The solver works on the posed problem, under settings that are valid. -/
structure Serves (S : Solver K n m) (P : PosedProblem K n m) (limit : K) : Prop where
  scaling : S.program.IsScaling P limit
  settings : S.settings.validate = .ok ()

theorem Holds.serves (h : S.Holds problem limit) : S.Serves (problem.posed n m) limit :=
  ⟨h.stores.isScaling h.formed h.describes h.consistent, h.settings⟩

theorem holds_of_setup [Elimination.Rule] {c : Settings K} (hlimit : 0 < limit)
    (hvalid : problem.validate c = .ok (n, m)) (h : Solver.ofProgram (problem.normalize n m limit).1 c = .ok S) :
    S.Holds problem limit := by
  have hP := ProblemInput.valid_of_validate hvalid
  unfold Solver.ofProgram at h
  obtain ⟨engine, -, rfl⟩ := map_eq_ok.mp h
  exact
    { formed := hP.formed limit
      describes := hP.describes limit
      stores := ScaledProgram.stores_equilibrate (hP.formed limit) (problem.clamped_normalize n m hlimit) hP.settings
      consistent := hP.consistent hlimit
      settings := hP.settings }

theorem Holds.warmStart (h : S.Holds problem limit) (x y : Option (Array K)) :
    (S.warmStart x y).1.Holds problem limit := by
  unfold Solver.warmStart
  simp only
  split
  · exact h
  · exact { h with }
  · exact { h with }

/-- New vectors of the input that the stored vectors follow. -/
theorem Holds.withVectors (h : S.Holds problem limit) {problem' : ProblemInput K} {program : ScaledProgram K n m}
    (hQ : problem'.Q = problem.Q) (hA : problem'.A = problem.A)
    (hstores : program.Stores (problem'.normalize n m limit).1) (hcons : (problem'.posed n m).Consistent limit) :
    Solver.Holds { S with program } problem' limit where
  formed := by
    have hformed := h.formed
    simp only [ProblemInput.normalize] at hformed ⊢
    rw [hQ, hA]
    exact hformed
  describes := h.describes.withVectors hQ hA
  stores := hstores
  consistent := hcons
  settings := h.settings

theorem Holds.updateCost (h : S.Holds problem limit) {q : Array K} {S' : Solver K n m}
    (hS : S.updateCost q = .ok S') : S'.Holds (problem.withCost q) limit := by
  obtain ⟨v, hv, rfl⟩ := map_eq_ok.mp hS
  refine h.withVectors rfl rfl ?_ h.consistent
  have hread : Vec.read n q = v := by
    refine Vec.ext_get fun j => ?_
    rw [get_of_finiteVector hv, Vec.read, Vec.get_ofFn]
  rw [← hread]
  exact h.stores.setCost (Vec.read n q)

/-- Bounds that are given count with their clamped values; bounds that stay are what they were. -/
theorem clamp_of_boundsOr {what : ProblemPart} {b : Option (Array K)} (old : Option (Array K)) {stay v : Vector K m}
    (hlimit : 0 < limit) (h : boundsOr what b stay = .ok v)
    (hstay : ∀ i, stay.get i = Scalar.clamp (PosedProblem.given old 0 i) (-limit) limit) (i : Fin m) :
    Scalar.clamp (v.get i) (-limit) limit = Scalar.clamp (PosedProblem.given (b.or old) 0 i) (-limit) limit := by
  cases b with
  | some a =>
      rw [get_of_boundVector h]
      rfl
  | none =>
      cases h
      rw [hstay, ScaledProgram.clamp_clamp hlimit]
      rfl

theorem Holds.updateBounds (h : S.Holds problem limit) (hlimit : 0 < limit) {bmin bmax : Option (Array K)}
    {S' : Solver K n m} (hS : S.updateBounds bmin bmax = .ok S') : S'.Holds (problem.withBounds bmin bmax) limit := by
  have hle : -limit ≤ limit := by linarith
  have hclamped := problem.clamped_normalize n m hlimit
  obtain ⟨-, hlower', hupper', hlimit'⟩ := @ProblemInput.get_normalize _ _ n m (problem.withBounds bmin bmax) limit
  have hlim : S.program.limit = limit := h.stores.limit_eq.trans h.describes.limit_eq
  rw [updateBounds_eq] at hS
  obtain ⟨lower, hlower, hS⟩ := bind_eq_ok.mp hS
  obtain ⟨upper, hupper, hS⟩ := bind_eq_ok.mp hS
  have hlow := clamp_of_boundsOr problem.bmin hlimit hlower fun i => by
    rw [h.stores.unscaledBound_lower hclamped fun _ => by rw [Vec.get_fill, h.stores.limit_eq], h.describes.lower_eq]
    rfl
  have hup := clamp_of_boundsOr problem.bmax hlimit hupper fun i => by
    rw [h.stores.unscaledBound_upper hclamped fun _ => by rw [Vec.get_fill, h.stores.limit_eq], h.describes.upper_eq]
    rfl
  split at hS
  · cases hS
  · next hordered =>
      cases hS
      refine h.withVectors rfl rfl ?_ fun i => ?_
      · have hdata : S.program.StoresData ((problem.withBounds bmin bmax).normalize n m limit).1 :=
          { h.stores.toStoresData with linear_eq := h.stores.linear_eq }
        refine hdata.setBounds (hlim.trans hlimit'.symm) h.stores.dinv_eq h.stores.einv_eq (fun i => ?_) fun i => ?_
        · rw [hlimit', hlow, hlower']
          rfl
        · rw [hlimit', hup, hupper']
          rfl
      · refine (hlow i).symm.trans_le (le_trans ?_ (hup i).le)
        refine Scalar.clamp_le_clamp hle ?_
        have hi := le_of_inconsistentBound?_eq_none hordered (i := i) (by simp) (by simp)
        simpa [Vec.get_eq_getElem, Array.getD_eq_getD_getElem?] using hi

theorem Holds.updateSettings (h : S.Holds problem limit) {c : Settings K} {S' : Solver K n m}
    (hS : S.updateSettings c = .ok S') : S'.Holds problem limit := by
  obtain ⟨u, hc, rfl⟩ := map_eq_ok.mp hS
  exact { h with settings := Settings.validate_of_validateAsUpdate (mapError_eq_ok.mp hc) }

theorem Holds.run (h : S.Holds problem limit) (expired : Nat → Bool) : (S.run expired).1.Holds problem limit :=
  { h with }

end Solver

/-! ## Workspaces -/

variable [ExactMachine K]

/-- A workspace after a sequence of accepted calls, and the input that describes its problem by then. -/
inductive Ledger [Elimination.Rule] (limit : K) (n m : Nat) : Workspace K → ProblemInput K → Prop
  | setup {problem : ProblemInput K} {c : Settings K} {w : Workspace K} :
      (Workspace.setup problem c limit).1 = .ok w → w.dims = some (n, m) → Ledger limit n m w problem
  | warmStart {w : Workspace K} {problem : ProblemInput K} {x y : Option (Array K)} :
      Ledger limit n m w problem → (w.warmStart x y).2 = .ok () → Ledger limit n m (w.warmStart x y).1 problem
  | updateCost {w : Workspace K} {problem : ProblemInput K} {q : Array K} :
      Ledger limit n m w problem → (w.updateCost q).2 = .ok () →
        Ledger limit n m (w.updateCost q).1 (problem.withCost q)
  | updateBounds {w : Workspace K} {problem : ProblemInput K} {lower upper : Option (Array K)} :
      Ledger limit n m w problem → (w.updateBounds lower upper).2 = .ok () →
        Ledger limit n m (w.updateBounds lower upper).1 (problem.withBounds lower upper)
  | updateSettings {w : Workspace K} {problem : ProblemInput K} {c : Settings K} :
      Ledger limit n m w problem → (w.updateSettings c).2 = .ok () → Ledger limit n m (w.updateSettings c).1 problem
  | solve {w : Workspace K} {problem : ProblemInput K} {clock : Nat → Float} {solution : Solution K} :
      Ledger limit n m w problem → w.solve clock = .ok solution → Ledger limit n m solution.workspace problem

/-- A workspace after a sequence of accepted calls, and the problem that it has to solve by then. -/
inductive Session [Elimination.Rule] (limit : K) {n m : Nat} : Workspace K → PosedProblem K n m → Prop
  | setup {problem : ProblemInput K} {c : Settings K} {w : Workspace K} :
      (Workspace.setup problem c limit).1 = .ok w → w.dims = some (n, m) → Session limit w (problem.posed n m)
  | warmStart {w : Workspace K} {P : PosedProblem K n m} {x y : Option (Array K)} :
      Session limit w P → (w.warmStart x y).2 = .ok () → Session limit (w.warmStart x y).1 P
  | updateCost {w : Workspace K} {P : PosedProblem K n m} {q : Array K} :
      Session limit w P → (w.updateCost q).2 = .ok () → Session limit (w.updateCost q).1 (P.withCost q)
  | updateBounds {w : Workspace K} {P : PosedProblem K n m} {lower upper : Option (Array K)} :
      Session limit w P → (w.updateBounds lower upper).2 = .ok () →
        Session limit (w.updateBounds lower upper).1 (P.withBounds lower upper)
  | updateSettings {w : Workspace K} {P : PosedProblem K n m} {c : Settings K} :
      Session limit w P → (w.updateSettings c).2 = .ok () → Session limit (w.updateSettings c).1 P
  | solve {w : Workspace K} {P : PosedProblem K n m} {clock : Nat → Float} {solution : Solution K} :
      Session limit w P → w.solve clock = .ok solution → Session limit solution.workspace P

namespace Ledger

variable {limit : K} {w : Workspace K} {problem : ProblemInput K}

/-- The invariant of a ledger: its workspace holds a solver that stores the program of the input. -/
theorem exists_holds [Elimination.Rule] (h : Ledger limit n m w problem) (hlimit : 0 < limit) :
    ∃ S : Solver K n m, w.prepared = some ⟨n, m, S⟩ ∧ S.Holds problem limit := by
  induction h with
  | setup hsetup hdims =>
      obtain ⟨S, hw, hvalid, hS⟩ := Workspace.setup_eq hsetup hdims
      exact ⟨S, hw, Solver.holds_of_setup hlimit hvalid hS⟩
  | @warmStart w problem x y _ _ ih =>
      obtain ⟨S, hw, hS⟩ := ih
      exact ⟨(S.warmStart x y).1, (Workspace.warmStart_eq hw x y).1, hS.warmStart x y⟩
  | updateCost _ hok ih =>
      obtain ⟨S, hw, hS⟩ := ih
      obtain ⟨S', hS', heq⟩ := Workspace.change_eq hw hok
      refine ⟨S', ?_, hS.updateCost hS'⟩
      rw [Workspace.updateCost, heq]
  | updateBounds _ hok ih =>
      obtain ⟨S, hw, hS⟩ := ih
      obtain ⟨S', hS', heq⟩ := Workspace.change_eq hw hok
      refine ⟨S', ?_, hS.updateBounds hlimit hS'⟩
      rw [Workspace.updateBounds, heq]
  | updateSettings _ hok ih =>
      obtain ⟨S, hw, hS⟩ := ih
      obtain ⟨S', hS', heq⟩ := Workspace.change_eq hw hok
      refine ⟨S', ?_, hS.updateSettings hS'⟩
      rw [Workspace.updateSettings, heq]
  | solve _ hsolve ih =>
      obtain ⟨S, hw, hS⟩ := ih
      exact ⟨_, (Workspace.solve_eq hw hsolve).1, hS.run _⟩

/-- What was posed follows the calls of a ledger. -/
theorem session [Elimination.Rule] (h : Ledger limit n m w problem) : Session limit w (problem.posed n m) := by
  induction h with
  | setup hsetup hdims => exact .setup hsetup hdims
  | warmStart _ hok ih => exact .warmStart ih hok
  | updateCost _ hok ih => exact .updateCost ih hok
  | updateBounds _ hok ih =>
      rw [ProblemInput.posed_withBounds]
      exact .updateBounds ih hok
  | updateSettings _ hok ih => exact .updateSettings ih hok
  | solve _ hsolve ih => exact .solve ih hsolve

end Ledger

namespace Session

variable {limit : K} {w : Workspace K} {P : PosedProblem K n m}

/-- Every session is a ledger that has lost how the matrices were given. -/
theorem exists_ledger [Elimination.Rule] (h : Session limit w P) :
    ∃ problem, Ledger limit n m w problem ∧ problem.posed n m = P := by
  induction h with
  | setup hsetup hdims => exact ⟨_, .setup hsetup hdims, rfl⟩
  | warmStart _ hok ih =>
      obtain ⟨problem, hledger, heq⟩ := ih
      exact ⟨problem, .warmStart hledger hok, heq⟩
  | updateCost _ hok ih =>
      obtain ⟨problem, hledger, rfl⟩ := ih
      exact ⟨_, .updateCost hledger hok, rfl⟩
  | updateBounds _ hok ih =>
      obtain ⟨problem, hledger, rfl⟩ := ih
      exact ⟨_, .updateBounds hledger hok, problem.posed_withBounds _ _⟩
  | updateSettings _ hok ih =>
      obtain ⟨problem, hledger, heq⟩ := ih
      exact ⟨problem, .updateSettings hledger hok, heq⟩
  | solve _ hsolve ih =>
      obtain ⟨problem, hledger, heq⟩ := ih
      exact ⟨problem, .solve hledger hsolve, heq⟩

/-- The invariant of a session: its workspace holds a solver of the posed problem. -/
theorem exists_serves [Elimination.Rule] (h : Session limit w P) (hlimit : 0 < limit) :
    ∃ S : Solver K n m, w.prepared = some ⟨n, m, S⟩ ∧ S.Serves P limit := by
  obtain ⟨problem, hledger, rfl⟩ := h.exists_ledger
  obtain ⟨S, hw, hS⟩ := hledger.exists_holds hlimit
  exact ⟨S, hw, hS.serves⟩

theorem serves [Elimination.Rule] (h : Session limit w P) (hlimit : 0 < limit) {S : Solver K n m}
    (hw : w.prepared = some ⟨n, m, S⟩) : S.Serves P limit := by
  obtain ⟨S', hw', hS'⟩ := h.exists_serves hlimit
  rw [hw] at hw'
  cases hw'
  exact hS'

end Session
end AugLag
