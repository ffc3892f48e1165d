import AugLag.Proofs.Problem.Bounds
import AugLag.Proofs.Problem.Rescaled
import AugLag.Proofs.Workspace.Refusals
import AugLag.Proofs.Workspace.Replay

/-!
# Omitted bounds

An update of one side of the rows takes the bounds of the other side out of the scaling and puts them back. What that makes
of them, which bounds are then accepted, and when nothing changes: where the bounds are absent, where the factors of their
rows cancel without rounding, and without scaling.
-/

namespace AugLag

variable {T : Type} {n m : Nat}

/-! ## Given bounds -/

/-- The values that a side of the rows has been given last, and how many updates have omitted the side since then. -/
structure Given (T : Type) where
  values : Array T
  omissions : ℕ

namespace Given

def value [Scalar T] (g : Given T) (i : ℕ) : T := g.values.getD i 0

/-- After an accepted update. -/
def revised (g : Given T) (b : Option (Array T)) : Given T :=
  match b with
  | some values => { values, omissions := 0 }
  | none => { g with omissions := g.omissions + 1 }

end Given

namespace ProblemInput

def givenBounds (P : ProblemInput T) (side : Side) : Given T :=
  { values := (side.pick P.bmin P.bmax).getD #[], omissions := 0 }

variable [Scalar T] {P : ProblemInput T} {c : Settings T}

theorem value_givenBounds (side : Side) (i : Fin m) : (P.givenBounds side).value i =
    (side.pick (Vec.read m (P.bmin.getD #[])) (Vec.read m (P.bmax.getD #[]))).get i := by
  cases side with
  | lower => exact (Vec.get_ofFn (fun i : Fin m => (P.bmin.getD #[]).getD i 0) i).symm
  | upper => exact (Vec.get_ofFn (fun i : Fin m => (P.bmax.getD #[]).getD i 0) i).symm

/-- The bounds of a valid problem are as many as its rows. -/
theorem Valid.size_givenBounds (h : P.Valid c n m) (side : Side) : (P.givenBounds side).values.size = m := by
  obtain ⟨hmin, hmax⟩ := h.complete
  cases hA : P.A with
  | none =>
      rw [hA, Option.isSome_none, eq_comm, Option.isSome_eq_false_iff, Option.isNone_iff_eq_none] at hmin hmax
      obtain rfl := h.noConstraints hA
      rw [givenBounds, hmin, hmax]
      cases side <;> rfl
  | some A =>
      rw [hA, Option.isSome_some] at hmin hmax
      obtain ⟨l, hl⟩ := Option.isSome_iff_exists.mp hmin.symm
      obtain ⟨u, hu⟩ := Option.isSome_iff_exists.mp hmax.symm
      rw [givenBounds, hl, hu]
      cases side with
      | lower => exact h.lower l hl
      | upper => exact h.upper u hu

end ProblemInput

theorem isNaN_pick [Scalar T] [SpecialValues T] {bmin bmax : Vector T m} {i : Fin m} (h : bmin.get i ≤ bmax.get i)
    (side : Side) : Scalar.isNaN ((side.pick bmin bmax).get i) = false := by
  cases side with
  | lower => exact (SpecialValues.isNaN_of_le h).1
  | upper => exact (SpecialValues.isNaN_of_le h).2

/-! ## Updates of a solver -/

namespace Solver

variable [Scalar T] {S S' : Solver T n m} {lower upper b : Option (Array T)} {side : Side} {v : Vector T m}

/-- The bounds of a side in an update: those that are given, or those that are taken out of the scaling. -/
inductive Takes (S : Solver T n m) (side : Side) : Option (Array T) → Vector T m → Prop
  | given {a : Array T} {v : Vector T m} :
      a.size = m → (∀ i : Fin m, v.get i = a.getD i 0) → Takes S side (some a) v
  | omitted {v : Vector T m} :
      (∀ i, v.get i = S.program.kept side i (S.program.bound side i)) → Takes S side none v

theorem takes_of_boundsOr {what : ProblemPart} {stay : Vector T m} (h : boundsOr what b stay = .ok v)
    (hstay : ∀ i, stay.get i = S.program.kept side i (S.program.bound side i)) : S.Takes side b v := by
  cases b with
  | none =>
      cases h
      exact .omitted hstay
  | some a =>
      refine .given ?_ (get_of_boundVector h)
      by_contra hsize
      simp [boundsOr, boundVector, Vec.ofArray?, hsize] at h

/-- An accepted update stores bounds that are in order. -/
theorem exists_takes (h : S.updateBounds lower upper = .ok S') :
    ∃ bmin bmax : Vector T m, (∀ i, bmin.get i ≤ bmax.get i) ∧
      S' = { S with program := S.program.setBounds bmin bmax } ∧
        ∀ side : Side, S.Takes side (side.pick lower upper) (side.pick bmin bmax) := by
  rw [updateBounds_eq] at h
  obtain ⟨bmin, hmin, h⟩ := bind_eq_ok.mp h
  obtain ⟨bmax, hmax, h⟩ := bind_eq_ok.mp h
  split at h
  · cases h
  · next hordered =>
      cases h
      refine ⟨bmin, bmax, inconsistentBound?_eq_none.mp hordered, rfl, fun side => ?_⟩
      cases side with
      | lower => exact takes_of_boundsOr hmin fun i => ScaledProgram.get_unscaledBound_lower
      | upper => exact takes_of_boundsOr hmax fun i => ScaledProgram.get_unscaledBound_upper

/-- An update that omits a side rescales its bounds. -/
theorem bound_of_omitted (h : S.updateBounds lower upper = .ok S') (homitted : side.pick lower upper = none)
    (i : Fin m) : S'.program.bound side i = S.program.rescaled side i (S.program.bound side i) := by
  obtain ⟨bmin, bmax, -, rfl, htakes⟩ := exists_takes h
  have htake := htakes side
  rw [homitted] at htake
  cases htake with
  | omitted hkept =>
      rw [ScaledProgram.rescaled, ← hkept]
      exact ScaledProgram.bound_setBounds bmin bmax

theorem updateBounds_of_ordered {bmin bmax : Vector T m}
    (hmin : boundsOr .lowerBounds lower (ScaledProgram.unscaledBound S.program.bmin S.program.lowerFinite
      S.program.scaling.einv (Vec.fill m (-S.program.limit))) = .ok bmin)
    (hmax : boundsOr .upperBounds upper (ScaledProgram.unscaledBound S.program.bmax S.program.upperFinite
      S.program.scaling.einv (Vec.fill m S.program.limit)) = .ok bmax)
    (hordered : ∀ i, bmin.get i ≤ bmax.get i) :
    S.updateBounds lower upper = .ok { S with program := S.program.setBounds bmin bmax } := by
  rw [updateBounds_eq, hmin, hmax]
  simp only [bind, Except.bind, inconsistentBound?_eq_none.mpr hordered]

/-- Bounds for one side are accepted if and only if they are in order with those that are taken out of the scaling. -/
theorem exists_updateBounds_iff (side : Side) (b : Array T) :
    (∃ S', S.updateBounds (side.pick (some b) none) (side.pick none (some b)) = .ok S') ↔
      b.size = m ∧ ∀ i : Fin m, side.InOrder (b.getD i 0) (S.program.kept side.other i (S.program.bound side.other i)) := by
  constructor
  · rintro ⟨S', h⟩
    obtain ⟨bmin, bmax, hordered, -, htakes⟩ := exists_takes h
    have hgiven : S.Takes side (some b) (side.pick bmin bmax) := by cases side <;> exact htakes _
    have homitted : S.Takes side.other none (side.other.pick bmin bmax) := by cases side <;> exact htakes _
    have hside (i : Fin m) : side.InOrder ((side.pick bmin bmax).get i) ((side.other.pick bmin bmax).get i) := by
      cases side <;> exact hordered i
    cases hgiven with
    | given hsize hget =>
        cases homitted with
        | omitted hkept =>
            refine ⟨hsize, fun i => ?_⟩
            rw [← hget, ← hkept]
            exact hside i
  · rintro ⟨hsize, hordered⟩
    have hvector (what : ProblemPart) : boundVector what m b = .ok ⟨b, hsize⟩ := by
      rw [boundVector, Vec.ofArray?, dif_pos hsize]
    have hget (i : Fin m) : (⟨b, hsize⟩ : Vector T m).get i = b.getD i 0 := get_of_boundVector (hvector .lowerBounds) i
    cases side with
    | lower =>
        refine ⟨_, updateBounds_of_ordered (hvector _) rfl fun i => ?_⟩
        rw [hget, ScaledProgram.get_unscaledBound_upper]
        exact hordered i
    | upper =>
        refine ⟨_, updateBounds_of_ordered rfl (hvector _) fun i => ?_⟩
        rw [hget, ScaledProgram.get_unscaledBound_lower]
        exact hordered i

/-! ## What has been given -/

variable {given : Side → Given T} {i : Fin m}

/-- Of each bound that was given last the solver stores what the updates have left that omitted it. Two such bounds of a row
are in order where they have not been rounded on the way. -/
structure Keeps (S : Solver T n m) (given : Side → Given T) : Prop where
  size_eq : ∀ side, (given side).values.size = m
  isNaN_eq : ∀ side, ∀ i : Fin m, Scalar.isNaN ((given side).value i) = false
  bound_eq : 0 < S.program.limit → ∀ side i, S.program.bound side i =
    (S.program.rescaled side i)^[(given side).omissions] (S.program.stored side i ((given side).value i))
  ordered : 0 < S.program.limit → ∀ i, (∀ side, S.program.Recovers side i ((given side).value i)) →
    Scalar.clamp ((given .lower).value i) (-S.program.limit) S.program.limit ≤
      Scalar.clamp ((given .upper).value i) (-S.program.limit) S.program.limit

theorem Takes.size_revised (ht : S.Takes side b v) (h : S.Keeps given) :
    ((given side).revised b).values.size = m := by
  cases ht with
  | given hsize _ => exact hsize
  | omitted _ => exact h.size_eq side

theorem Takes.isNaN_revised (ht : S.Takes side b v) (h : S.Keeps given) (hv : Scalar.isNaN (v.get i) = false) :
    Scalar.isNaN (((given side).revised b).value i) = false := by
  cases ht with
  | given _ hget => exact (congrArg Scalar.isNaN (hget i)).symm.trans hv
  | omitted _ => exact h.isNaN_eq side i

/-- What is stored anew has gone through one rescaling more, unless it was given. -/
theorem Takes.stored_eq (ht : S.Takes side b v) (h : S.Keeps given) (hlimit : 0 < S.program.limit) :
    S.program.stored side i (v.get i) = (S.program.rescaled side i)^[((given side).revised b).omissions]
      (S.program.stored side i (((given side).revised b).value i)) := by
  cases ht with
  | given _ hget => exact congrArg (S.program.stored side i) (hget i)
  | omitted hkept =>
      rw [hkept, h.bound_eq hlimit]
      exact (Function.iterate_succ_apply' (S.program.rescaled side i) _ _).symm

/-- The other calls leave the bounds and their scaling as they are. -/
theorem Keeps.warmStart (h : S.Keeps given) (x y : Option (Array T)) : (S.warmStart x y).1.Keeps given := by
  unfold Solver.warmStart
  simp only
  split
  · exact h
  · exact ⟨h.size_eq, h.isNaN_eq, h.bound_eq, h.ordered⟩
  · exact ⟨h.size_eq, h.isNaN_eq, h.bound_eq, h.ordered⟩

theorem Keeps.updateCost (h : S.Keeps given) {q : Array T} (hS : S.updateCost q = .ok S') : S'.Keeps given := by
  obtain ⟨v, -, rfl⟩ := map_eq_ok.mp hS
  exact ⟨h.size_eq, h.isNaN_eq, h.bound_eq, h.ordered⟩

theorem Keeps.updateSettings (h : S.Keeps given) {c : Settings T} (hS : S.updateSettings c = .ok S') :
    S'.Keeps given := by
  obtain ⟨u, -, rfl⟩ := map_eq_ok.mp hS
  exact ⟨h.size_eq, h.isNaN_eq, h.bound_eq, h.ordered⟩

theorem Keeps.run {T : Type} [MachineScalar T] {S : Solver T n m} {given : Side → Given T} (h : S.Keeps given)
    (expired : Nat → Bool) : (S.run expired).1.Keeps given := ⟨h.size_eq, h.isNaN_eq, h.bound_eq, h.ordered⟩

variable [PlainUnits T]

theorem Keeps.kept_eq (h : S.Keeps given) (hlimit : 0 < S.program.limit)
    (hrecovers : S.program.Recovers side i ((given side).value i)) :
    S.program.kept side i (S.program.bound side i) =
      Scalar.clamp ((given side).value i) (-S.program.limit) S.program.limit := by
  have hv := h.isNaN_eq side i
  rw [h.bound_eq hlimit, ScaledProgram.iterate_rescaled_stored hlimit hv hrecovers,
    ScaledProgram.kept_stored hlimit hv hrecovers]

/-- Where the bound that was given last is recovered, it is taken as if it were given again. -/
theorem Takes.clamp_eq (ht : S.Takes side b v) (h : S.Keeps given) (hlimit : 0 < S.program.limit)
    (hrecovers : S.program.Recovers side i (((given side).revised b).value i)) :
    Scalar.clamp (v.get i) (-S.program.limit) S.program.limit =
      Scalar.clamp (((given side).revised b).value i) (-S.program.limit) S.program.limit := by
  cases ht with
  | given _ hget =>
      rw [hget]
      rfl
  | omitted hkept =>
      obtain ⟨hlow, hhigh⟩ := Scalar.clamp_between (h.isNaN_eq side i) (Scalar.neg_le_of_pos hlimit)
      rw [hkept, h.kept_eq hlimit hrecovers]
      exact Scalar.clamp_of_between hlow hhigh

/-- Bounds that were given last are in order when they are given again, if they do not go beyond the limit of the other
side. -/
theorem Keeps.inOrder (h : S.Keeps given) (hlimit : 0 < S.program.limit) (side : Side)
    (hrecovers : ∀ side, S.program.Recovers side i ((given side).value i))
    (hreach : side.InOrder ((given side).value i) (side.other.limit S.program.limit)) :
    side.InOrder ((given side).value i) (S.program.kept side.other i (S.program.bound side.other i)) := by
  rw [h.kept_eq hlimit (hrecovers side.other)]
  have hordered := h.ordered hlimit i hrecovers
  cases side with
  | lower => exact SpecialValues.le_trans (Scalar.le_clamp_of_le hreach) hordered
  | upper => exact SpecialValues.le_trans hordered (Scalar.clamp_le_of_le hreach)

theorem keeps_of_setup [Elimination.Rule] {problem : ProblemInput T} {c : Settings T} {limit : T}
    (hvalid : problem.validate c = .ok (n, m)) (h : Solver.ofProgram (problem.normalize n m limit).1 c = .ok S) :
    S.Keeps problem.givenBounds := by
  have hP := ProblemInput.valid_of_validate hvalid
  obtain ⟨-, hbmin, hbmax, hlim⟩ := problem.normalize_vectors n m limit
  obtain ⟨engine, -, rfl⟩ := map_eq_ok.mp h
  have hisNaN (side : Side) (i : Fin m) : Scalar.isNaN ((problem.givenBounds side).value i) = false := by
    rw [ProblemInput.value_givenBounds]
    exact isNaN_pick (hP.read_le i) side
  exact
    { size_eq := hP.size_givenBounds
      isNaN_eq := hisNaN
      bound_eq := fun hlimit side i => by
        have hpos : 0 < (problem.normalize n m limit).1.limit :=
          ScaledProgram.limit_equilibrate (.ofProgram _) c ▸ hlimit
        have hv := hisNaN side i
        rw [ProblemInput.value_givenBounds] at hv ⊢
        exact ScaledProgram.bound_equilibrate c hpos (hlim.symm ▸ hbmin) (hlim.symm ▸ hbmax) hv
      ordered := fun hlimit i _ => by
        rw [ProblemInput.value_givenBounds, ProblemInput.value_givenBounds]
        exact Scalar.clamp_mono (hP.read_le i) (Scalar.neg_le_of_pos hlimit) }

theorem Keeps.updateBounds (h : S.Keeps given) (hS : S.updateBounds lower upper = .ok S') :
    S'.Keeps fun side => (given side).revised (side.pick lower upper) := by
  obtain ⟨bmin, bmax, hordered, rfl, htakes⟩ := exists_takes hS
  exact
    { size_eq := fun side => (htakes side).size_revised h
      isNaN_eq := fun side i => (htakes side).isNaN_revised h (isNaN_pick (hordered i) side)
      bound_eq := fun hlimit side i => (ScaledProgram.bound_setBounds bmin bmax).trans ((htakes side).stored_eq h hlimit)
      ordered := fun hlimit i hrecovers => by
        have hle := Scalar.clamp_mono (hordered i) (Scalar.neg_le_of_pos hlimit)
        have hlower := (htakes .lower).clamp_eq h hlimit (hrecovers .lower)
        have hupper := (htakes .upper).clamp_eq h hlimit (hrecovers .upper)
        exact hlower ▸ hupper ▸ hle }

/-! ### Factors -/

/-- Unless the settings ask for scaling, all factors of rows are one. -/
def UnitRows (S : Solver T n m) : Prop :=
  S.settings.scalingEnable = false → ∀ i, S.program.scaling.e.get i = 1 ∧ S.program.scaling.einv.get i = 1

omit [PlainUnits T] in
/-- No call changes the scaling, nor the setting that asks for it. What is said of these has to be shown after setup
only. -/
theorem keptByCalls_of_scaling [Elimination.Rule] {D : {n m : Nat} → Solver T n m → Prop}
    (hsetup : ∀ {problem : ProblemInput T} {c : Settings T} {limit : T} {n m : Nat} {S : Solver T n m},
      problem.validate c = .ok (n, m) → Solver.ofProgram (problem.normalize n m limit).1 c = .ok S → D S)
    (hscaling : ∀ {n m : Nat} {S S' : Solver T n m}, D S → S'.program.scaling = S.program.scaling →
      S'.settings.scalingEnable = S.settings.scalingEnable → D S') : KeptByCalls D where
  setup := hsetup
  warmStart x y h := by
    obtain ⟨hprogram, hsettings, -⟩ := Solver.warmStart_keeps _ x y
    exact hscaling h (congrArg _ hprogram) (congrArg _ hsettings)
  updateCost q h hS := by
    obtain ⟨v, -, rfl⟩ := map_eq_ok.mp hS
    exact hscaling h rfl rfl
  updateBounds lower upper h hS := by
    obtain ⟨bmin, bmax, -, rfl⟩ := exists_of_updateBounds hS
    exact hscaling h rfl rfl
  updateSettings c h hS := by
    obtain ⟨u, hc, rfl⟩ := map_eq_ok.mp hS
    exact hscaling h rfl (Settings.scalingEnable_of_validateAsUpdate (mapError_eq_ok.mp hc))
  run _ h := hscaling h rfl rfl

omit [PlainUnits T] in
theorem keptByCalls_unitRows [Elimination.Rule] : KeptByCalls fun {n m : Nat} (S : Solver T n m) => S.UnitRows := by
  refine keptByCalls_of_scaling (fun {_ _ _ _ _ _} _ h hc => ?_) fun {_ _ _ _} h hscaling henable hdisabled => ?_
  · obtain ⟨engine, -, rfl⟩ := map_eq_ok.mp h
    exact ScaledProgram.ones_equilibrate hc
  · rw [hscaling]
    exact h (henable.symm.trans hdisabled)

/-- The factors of the rows are positive, and inverse to each other. -/
def InverseRows {K : Type} [ExactScalar K] (S : Solver K n m) : Prop :=
  ∀ i, 0 < S.program.scaling.e.get i ∧ S.program.scaling.einv.get i = (S.program.scaling.e.get i)⁻¹

theorem keptByCalls_inverseRows [Elimination.Rule] {K : Type} [ExactScalar K] :
    KeptByCalls fun {n m : Nat} (S : Solver K n m) => S.InverseRows := by
  refine keptByCalls_of_scaling (fun {_ _ _ _ _ _} hvalid h i => ?_) fun {_ _ _ _} h hscaling _ => ?_
  · obtain ⟨engine, -, rfl⟩ := map_eq_ok.mp h
    exact ⟨(ProblemInput.bounded_equilibrate hvalid _).e_pos i, ScaledProgram.einv_equilibrate _ _ i⟩
  · rw [InverseRows, hscaling]
    exact h

end Solver

/-! ## Workspaces -/

namespace Workspace

variable [MachineScalar T] {w : Workspace T} {S : Solver T n m} {given : Side → Given T}

/-- New bounds for one side, while those of the other side are omitted. -/
def updateSide (w : Workspace T) (side : Side) (b : Array T) : Workspace T × Except UpdateError Unit :=
  w.updateBounds (side.pick (some b) none) (side.pick none (some b))

/-- A workspace after any sequence of calls, and what both sides of its rows have been given in accepted ones. -/
inductive BoundsGiven [Elimination.Rule] : Workspace T → (Side → Given T) → Prop
  | setup {problem : ProblemInput T} {c : Settings T} {limit : T} {w : Workspace T} :
      (Workspace.setup problem c limit).1 = .ok w → BoundsGiven w problem.givenBounds
  | warmStart {w : Workspace T} {given : Side → Given T} (x y : Option (Array T)) :
      BoundsGiven w given → BoundsGiven (w.warmStart x y).1 given
  | updateCost {w : Workspace T} {given : Side → Given T} (q : Array T) :
      BoundsGiven w given → BoundsGiven (w.updateCost q).1 given
  | updateBounds {w : Workspace T} {given : Side → Given T} {lower upper : Option (Array T)} :
      BoundsGiven w given → (w.updateBounds lower upper).2 = .ok () →
        BoundsGiven (w.updateBounds lower upper).1 fun side => (given side).revised (side.pick lower upper)
  | updateSettings {w : Workspace T} {given : Side → Given T} (c : Settings T) :
      BoundsGiven w given → BoundsGiven (w.updateSettings c).1 given
  | solve {w : Workspace T} {given : Side → Given T} {clock : Nat → Float} {old : Results T} {solution : Solution T} :
      BoundsGiven w given → w.solveInto clock old = .ok solution → BoundsGiven solution.workspace given
  | printTo {w : Workspace T} {given : Side → Given T} (target : PrintTarget) :
      BoundsGiven w given → BoundsGiven (w.printTo target) given
  | release {w : Workspace T} {given : Side → Given T} : BoundsGiven w given → BoundsGiven w.release.1 given

/-- A refused update gives nothing, so that every workspace has been given something. -/
theorem Reachable.exists_boundsGiven [Elimination.Rule] (h : Reachable w) : ∃ given, BoundsGiven w given := by
  induction h with
  | setup hsetup => exact ⟨_, .setup hsetup⟩
  | warmStart x y _ ih => exact ih.imp fun _ => .warmStart x y
  | updateCost q _ ih => exact ih.imp fun _ => .updateCost q
  | @updateBounds w lower upper _ ih =>
      obtain ⟨given, hgiven⟩ := ih
      cases houtcome : (w.updateBounds lower upper).2 with
      | ok u => exact ⟨_, .updateBounds hgiven houtcome⟩
      | error e =>
          rw [Workspace.updateBounds, change_refused houtcome]
          exact ⟨given, hgiven⟩
  | updateSettings c _ ih => exact ih.imp fun _ => .updateSettings c
  | solve _ hsolve ih => exact ih.imp fun _ hgiven => .solve hgiven hsolve
  | printTo target _ ih => exact ih.imp fun _ => .printTo target
  | release _ ih => exact ih.imp fun _ => .release

/-- In exact arithmetic all factors cancel, so that it is by rounding alone that bounds change that are omitted. -/
theorem Reachable.recovers [Elimination.Rule] {K : Type} [ExactMachine K] {w : Workspace K} {S : Solver K n m}
    (h : Reachable w) (hw : w.prepared = some ⟨n, m, S⟩) (side : Side) (i : Fin m) (v : K) :
    S.program.Recovers side i v := by
  have hrows : S.InverseRows := h.keeps Solver.keptByCalls_inverseRows _ hw
  exact ScaledProgram.recovers_of_inverse (hrows i).1.ne' (hrows i).2 v

namespace BoundsGiven

theorem reachable [Elimination.Rule] (h : BoundsGiven w given) : Reachable w := by
  induction h with
  | setup hsetup => exact .setup hsetup
  | warmStart x y _ ih => exact .warmStart x y ih
  | updateCost q _ ih => exact .updateCost q ih
  | updateBounds _ _ ih => exact .updateBounds _ _ ih
  | updateSettings c _ ih => exact .updateSettings c ih
  | solve _ hsolve ih => exact .solve ih hsolve
  | printTo target _ ih => exact .printTo target ih
  | release _ ih => exact .release ih

variable [PlainUnits T]

/-- What a workspace stores is what it has been given, rescaled by the updates that omitted it. -/
theorem keeps [Elimination.Rule] (h : BoundsGiven w given) : ∀ p ∈ w.prepared, p.solver.Keeps given := by
  induction h with
  | setup hsetup =>
      rintro ⟨n, m, S⟩ hw
      obtain ⟨hvalid, hS⟩ := setup_spec hsetup hw
      exact Solver.keeps_of_setup hvalid hS
  | warmStart x y _ ih => exact warmStart_keeps (D := fun S => S.Keeps _) ih x y fun hS => hS.warmStart x y
  | updateCost q _ ih => exact change_keeps (D := fun S => S.Keeps _) ih fun hS heq => hS.updateCost heq
  | updateBounds _ hok ih => exact change_yields (D := fun S => S.Keeps _) ih hok fun hS heq => hS.updateBounds heq
  | updateSettings c _ ih => exact change_keeps (D := fun S => S.Keeps _) ih fun hS heq => hS.updateSettings heq
  | solve _ hsolve ih => exact solveInto_keeps (D := fun S => S.Keeps _) ih (fun _ hS => hS.run _) hsolve
  | printTo _ _ ih => exact ih
  | release _ _ =>
      intro p hp
      cases hp

/-- An accepted update rescales the bounds of a side that it omits, so that a bound that was given once is stored after as
many rescalings as updates have omitted it since. It is unchanged where it is absent or where the factors of its row cancel,
which they do without scaling. Bounds for one side are accepted if they are in order with those that are taken out of the
scaling on the other side. If all factors cancel, these are the bounds that were given last, and a side can be given its
last bounds again, as long as they do not lie beyond the limit of the other side. -/
theorem omitted_bounds_rescaled [Elimination.Rule] (h : BoundsGiven w given) (hw : w.prepared = some ⟨n, m, S⟩)
    (side : Side) :
    (∀ lower upper, side.pick lower upper = none → (w.updateBounds lower upper).2 = .ok () →
      ∃ S' : Solver T n m, (w.updateBounds lower upper).1.prepared = some ⟨n, m, S'⟩ ∧
        ∀ i, S'.program.bound side i = S.program.rescaled side i (S.program.bound side i) ∧
          (0 < S.program.limit → S.program.Recovers side i ((given side).value i) →
            S'.program.bound side i = S.program.bound side i)) ∧
    (0 < S.program.limit → ∀ i, S.program.bound side i =
      (S.program.rescaled side i)^[(given side).omissions] (S.program.stored side i ((given side).value i))) ∧
    (∀ b, (w.updateSide side b).2 = .ok () ↔ b.size = m ∧
      ∀ i : Fin m, side.InOrder (b.getD i 0) (S.program.kept side.other i (S.program.bound side.other i))) ∧
    (0 < S.program.limit → (∀ side i, S.program.Recovers side i ((given side).value i)) →
      (∀ i : Fin m, side.InOrder ((given side).value i) (side.other.limit S.program.limit)) →
        (w.updateSide side (given side).values).2 = .ok ()) ∧
    (S.settings.scalingEnable = false → ∀ i v, S.program.Recovers side i v) := by
  have hkeeps : S.Keeps given := h.keeps _ hw
  have haccepted (b : Array T) : (w.updateSide side b).2 = .ok () ↔ b.size = m ∧
      ∀ i : Fin m, side.InOrder (b.getD i 0) (S.program.kept side.other i (S.program.bound side.other i)) := by
    rw [updateSide, Workspace.updateBounds, change_outcome hw, map_eq_ok, ← Solver.exists_updateBounds_iff]
    simp only [and_true]
  refine ⟨fun lower upper homitted hok => ?_, fun hlimit i => hkeeps.bound_eq hlimit side i, haccepted, fun hlimit hrecovers hreach => ?_,
    fun hdisabled i v => ?_⟩
  · obtain ⟨S', hS', heq⟩ := change_eq hw hok
    refine ⟨S', congrArg Workspace.prepared heq, fun i => ?_⟩
    have hbound := Solver.bound_of_omitted hS' homitted i
    refine ⟨hbound, fun hlimit hrecovers => hbound.trans ?_⟩
    have hv := hkeeps.isNaN_eq side i
    rw [hkeeps.bound_eq hlimit, ScaledProgram.iterate_rescaled_stored hlimit hv hrecovers,
      ScaledProgram.rescaled_stored hlimit hv hrecovers]
  · exact (haccepted _).mpr ⟨hkeeps.size_eq side, fun i => hkeeps.inOrder hlimit side (hrecovers · i) (hreach i)⟩
  · have hunit : S.UnitRows := h.reachable.keeps Solver.keptByCalls_unitRows _ hw
    exact ScaledProgram.recovers_of_ones (hunit hdisabled i).1 (hunit hdisabled i).2 v

end BoundsGiven

end Workspace

/-! ## Samples -/

namespace Sample

def rowSettings : Settings Float := { Settings.default with factorizationMethod := .kkt, verbose := false }

/-- A row with a single coefficient. -/
def row (coefficient lower upper : Float) : ProblemInput Float :=
  { Q := some (.dense 1 1 #[1]), q := some #[0], A := some (.dense 1 1 #[coefficient]), bmin := some #[lower]
    bmax := some #[upper] }

def openedRow (problem : ProblemInput Float) : Workspace Float :=
  match (Workspace.setup problem rowSettings 1e20).1 with
  | .ok w => w
  | .error _ => { prepared := none, target := .stdout }

theorem setup_eq_openedRow (problem : ProblemInput Float)
    (h : (Workspace.setup problem rowSettings 1e20).1.toBool = true) :
    (Workspace.setup problem rowSettings 1e20).1 = .ok (openedRow problem) := by
  unfold openedRow
  split
  · assumption
  · next heq =>
      rw [heq] at h
      cases h

def storedUpper (w : Workspace Float) : Option (Array (Bool × Float)) :=
  w.prepared.map fun p => Array.ofFn (p.solver.program.bound .upper)

/-- The factors of all rows cancel at their bounds, and the lower ones are within the limit. -/
def recoversGiven (w : Workspace Float) (given : Side → Given Float) : Bool :=
  match w.prepared with
  | some p =>
    let P := p.solver.program
    decide (0 < P.limit) && decide (∀ i, P.Recovers .lower i ((given .lower).value i)) &&
      decide (∀ i, P.Recovers .upper i ((given .upper).value i)) &&
        decide (∀ i : Fin p.m, (given .lower).value i ≤ P.limit)
  | none => false

theorem recovers_of_recoversGiven {w : Workspace Float} (given : Side → Given Float) {S : Solver Float n m}
    (hw : w.prepared = some ⟨n, m, S⟩) (h : recoversGiven w given = true) :
    0 < S.program.limit ∧ (∀ side i, S.program.Recovers side i ((given side).value i)) ∧
      ∀ i : Fin m, (given .lower).value i ≤ S.program.limit := by
  unfold recoversGiven at h
  rw [hw] at h
  simp only [Bool.and_eq_true, decide_eq_true_eq] at h
  obtain ⟨⟨⟨hlimit, hlower⟩, hupper⟩, hreach⟩ := h
  refine ⟨hlimit, fun side => ?_, hreach⟩
  cases side with
  | lower => exact hlower
  | upper => exact hupper

/-- The row is set up, its factors cancel, and zero is accepted as its lower bound. -/
theorem fourfold_checked :
    (Workspace.setup (row 4 (-3) 7) rowSettings 1e20).1.toBool = true ∧
      (openedRow (row 4 (-3) 7)).dims = some (1, 1) ∧
      recoversGiven (openedRow (row 4 (-3) 7)) (row 4 (-3) 7).givenBounds = true ∧
      ((openedRow (row 4 (-3) 7)).updateBounds (some #[0]) none).2 = .ok () := by
  decide +kernel

/-- Of the row's bounds the upper one moves twice, and below the lower one. -/
theorem sevenfold_checked :
    (Workspace.setup (row 7 2 2) rowSettings 1e20).1.toBool = true ∧
      ((openedRow (row 7 2 2)).updateBounds (some #[2]) none).2 = .error (.inconsistentBounds 0) ∧
      ((openedRow (row 7 2 2)).updateBounds (some #[0]) none).2 = .ok () ∧
      (((openedRow (row 7 2 2)).updateBounds (some #[0]) none).1.updateBounds (some #[0]) none).2 = .ok () ∧
      storedUpper ((openedRow (row 7 2 2)).updateBounds (some #[0]) none).1 ≠ storedUpper (openedRow (row 7 2 2)) ∧
      storedUpper (((openedRow (row 7 2 2)).updateBounds (some #[0]) none).1.updateBounds (some #[0]) none).1 ≠
        storedUpper ((openedRow (row 7 2 2)).updateBounds (some #[0]) none).1 ∧
      storedUpper (((openedRow (row 7 2 2)).updateBounds (some #[0]) none).1.updateBounds (some #[0]) none).1 ≠
        storedUpper (openedRow (row 7 2 2)) := by
  decide +kernel

end Sample

namespace Workspace

/-- A row that is divided by two. -/
theorem BoundsGiven.omitted_bounds_rescaled_halved :
    ∃ S S' : Solver Float 1 1, (Sample.openedRow (Sample.row 4 (-3) 7)).prepared = some ⟨1, 1, S⟩ ∧
      ((Sample.openedRow (Sample.row 4 (-3) 7)).updateBounds (some #[0]) none).1.prepared = some ⟨1, 1, S'⟩ ∧
        S'.program.bound .upper 0 = S.program.bound .upper 0 ∧
          ((Sample.openedRow (Sample.row 4 (-3) 7)).updateBounds (some #[-3]) none).2 = .ok () := by
  obtain ⟨hchecked, hdims, hcancel, hok⟩ := Sample.fourfold_checked
  have hsetup := Sample.setup_eq_openedRow (Sample.row 4 (-3) 7) hchecked
  obtain ⟨S, hw, -⟩ := setup_eq hsetup hdims
  obtain ⟨hlimit, hrecovers, hreach⟩ := Sample.recovers_of_recoversGiven (Sample.row 4 (-3) 7).givenBounds hw hcancel
  obtain ⟨hkeeps, -, -, -, -⟩ := omitted_bounds_rescaled (.setup hsetup) hw .upper
  obtain ⟨-, -, -, hagain, -⟩ := omitted_bounds_rescaled (.setup hsetup) hw .lower
  obtain ⟨S', hw', hbounds⟩ := hkeeps (some #[0]) none rfl hok
  exact ⟨S, S', hw, hw', (hbounds 0).2 hlimit (hrecovers .upper 0), hagain hlimit hrecovers hreach⟩

/-- A row with the coefficient seven. Each update that omits its upper bound moves that bound, and the lower bound cannot be
given a second time. -/
theorem omitted_bound_drifts :
    (Workspace.setup (Sample.row 7 2 2) Sample.rowSettings 1e20).1 = .ok (Sample.openedRow (Sample.row 7 2 2)) ∧
      ((Sample.openedRow (Sample.row 7 2 2)).updateBounds (some #[2]) none).2 = .error (.inconsistentBounds 0) ∧
      ∃ w w' : Workspace Float, (Sample.openedRow (Sample.row 7 2 2)).updateBounds (some #[0]) none = (w, .ok ()) ∧
        w.updateBounds (some #[0]) none = (w', .ok ()) ∧
          Sample.storedUpper w ≠ Sample.storedUpper (Sample.openedRow (Sample.row 7 2 2)) ∧
            Sample.storedUpper w' ≠ Sample.storedUpper w ∧
              Sample.storedUpper w' ≠ Sample.storedUpper (Sample.openedRow (Sample.row 7 2 2)) := by
  obtain ⟨hsetup, hrefused, hfirst, hsecond, hmoved⟩ := Sample.sevenfold_checked
  exact ⟨Sample.setup_eq_openedRow _ hsetup, hrefused, _, _, Prod.ext rfl hfirst, Prod.ext rfl hsecond, hmoved⟩

end Workspace
end AugLag
