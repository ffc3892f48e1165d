import AugLag.Proofs.Checked.Setup
import AugLag.Proofs.Workspace.Refusals

/-!
# The checked solver

A solver is usable if its matrices are those of a quadratic program and its engine can be updated for them. A solver that
is made is usable, and stays so through runs and changes, whatever the arrays that are handed in. Nothing here depends on
how the scalars calculate.
-/

namespace AugLag.Checked.Solver

open Setup (run_bind)

variable {T : Type} [Scalar T] {n m : Nat}

/-- Nothing that the solver may be asked for misses an access. -/
structure Usable (S : Solver T n m) : Prop where
  data : SquareData S.program.Q S.program.A n m
  intact : Engine.Intact S.program.Q S.program.A S.engine

/-! ## Making a solver -/

/-- An estimate of the smallest eigenvalue, for a problem that may be nonconvex. -/
def lambdaMin (Q : SparseMatrix T) (n : Nat) (c : Settings T) : Option (Option T) :=
  if c.nonconvex then do return some (← Program.minEigenvalue Q n) else some none

/-- Scales a program and prepares its Newton systems. -/
def ofProgram [Elimination.Rule] (P : QuadraticProgram T n m) (c : Settings T) :
    Option (Except NewtonError (Solver T n m)) := do
  let program ← Program.equilibrate (ScaledProgram.ofProgram P) c
  let lambdaMin ← lambdaMin program.Q n c
  return (← Engine.ofProblem program.Q program.A n m c.factorizationMethod).map fun engine =>
    { program, settings := c, engine, xStart := Vec.zeros n, yStart := Vec.zeros m, lambdaMin,
      evaluation := Evaluation.zero n m }

theorem lambdaMin_eq {Q A : SparseMatrix T} (h : SquareData Q A n m) (c : Settings T) :
    lambdaMin Q n c = some (if c.nonconvex then some (AugLag.minEigenvalue Q n) else none) := by
  unfold lambdaMin
  split
  · rw [Program.minEigenvalue_eq h]
    rfl
  · rfl

section Making

variable [Elimination.Rule] {P : QuadraticProgram T n m} {c : Settings T} (h : SquareData P.Q P.A n m)
variable (hpermuted : NewtonEngine.Permuted P.Q P.A c.factorizationMethod)

include hpermuted

/-- Equilibration leaves the patterns of the matrices alone. -/
theorem permuted_equilibrate : NewtonEngine.Permuted ((ScaledProgram.ofProgram P).equilibrate c).Q
    ((ScaledProgram.ofProgram P).equilibrate c).A c.factorizationMethod := by
  obtain ⟨hQ, hA⟩ := ScaledProgram.samePattern_equilibrate (ScaledProgram.ofProgram P) c
  exact hpermuted.of_samePattern hQ hA

include h

/-- A solver that is made can be used. -/
theorem ofProgram_eq : ofProgram P c = some (AugLag.Solver.ofProgram P c) ∧
    ∀ S, AugLag.Solver.ofProgram P c = .ok S → Usable S := by
  obtain ⟨hequilibrate, hdata⟩ := Program.equilibrate_eq (P := ScaledProgram.ofProgram P) h c
  obtain ⟨hengine, hintact⟩ := Engine.ofProblem_eq hdata.toNewtonData (permuted_equilibrate hpermuted)
  constructor
  · rw [ofProgram, hequilibrate]
    simp only [Option.bind_eq_bind, Option.bind_some, lambdaMin_eq hdata, hengine]
    rfl
  · intro S hS
    obtain ⟨engine, hmade, rfl⟩ := map_eq_ok.mp hS
    exact { data := hdata, intact := hintact engine hmade }

/-- There is a solver, as the first matrix can be factored. -/
theorem exists_ofProgram [PlainZeros T] : ∃ S, AugLag.Solver.ofProgram P c = .ok S := by
  obtain ⟨-, hdata⟩ := Program.equilibrate_eq (P := ScaledProgram.ofProgram P) h c
  obtain ⟨engine, hengine⟩ :=
    NewtonEngine.exists_of_plainZeros hdata.toNewtonData (permuted_equilibrate hpermuted)
  exact ⟨_, map_eq_ok.mpr ⟨engine, hengine, rfl⟩⟩

end Making

/-! ## Runs -/

/-- The state in which the iteration begins. -/
def start (S : Solver T n m) : Option (Run T n m) := do
  return { S.start with point := ← Program.startPoint S.program S.xStart S.yStart }

/-- Runs the solver from its starting point. -/
def run (S : Solver T n m) (expired : Nat → Bool) : Option (Solver T n m × Outcome T n m) := do
  let out ← Iteration.complete (← start S) S.program S.settings expired
  let status ← Iteration.reduced out.1 S.program S.settings out.2.1
  return ({ S with engine := out.1.newton.engine, evaluation := out.1.evaluation },
    { run := out.1, info := AugLag.Solver.finalInfo S.program out.1 status, signals := out.2.2 })

theorem Usable.run {S : Solver T n m} (h : Usable S) (expired : Nat → Bool) :
    run S expired = some (S.run expired) ∧ Usable (S.run expired).1 := by
  have hstart : start S = some S.start := by
    rw [start, Program.startPoint_eq h.data]
    rfl
  have hready : Engine.Intact S.program.Q S.program.A S.start.newton.engine := h.intact.invalidate
  obtain ⟨hcomplete, hintact⟩ := Iteration.complete_eq (c := S.settings) h.data hready expired
  refine ⟨?_, { data := h.data, intact := hintact }⟩
  rw [Solver.run, hstart]
  simp only [Option.bind_eq_bind, Option.bind_some, hcomplete, Iteration.reduced_eq h.data]
  rfl

/-! ## Results -/

/-- Copies an array over another one, which must be of its size. -/
def copyOver (target source : Array T) : Option (Array T) := do
  require (target.size = source.size)
  (List.range source.size).foldlM (fun a i => do set a i (← source[i]?)) target

def overwrite (old new : Results T) : Option (Results T) := do
  return {
    x := ← copyOver old.x new.x
    y := ← copyOver old.y new.y
    primalCertificate := ← copyOver old.primalCertificate new.primalCertificate
    dualCertificate := ← copyOver old.dualCertificate new.dualCertificate
    info := new.info }

/-- Writes the results over older ones, which may be those of a problem of another size. -/
def writeResults (o : Outcome T n m) (P : ScaledProgram T n m) (old : Results T) : Option (Results T) :=
  overwrite (old.resize n m) (o.results P)

theorem copyOver_eq {target source : Array T} (h : target.size = source.size) :
    copyOver target source = some (Results.copyOver target source) := by
  rw [copyOver, require_eq h]
  refine (foldlM_eq (fun a => a.size = source.size) h fun a i hi ha => ?_).1
  rw [List.mem_range] at hi
  rw [get_eq hi 0]
  exact ⟨set_eq (ha ▸ hi) _, Array.size_setIfInBounds.trans ha⟩

theorem writeResults_eq (o : Outcome T n m) (P : ScaledProgram T n m) (old : Results T) :
    writeResults o P old = some (o.writeResults P old) := by
  have hcopy {k : Nat} (a : Array T) (condition : Bool) (v : Vector T k) :
      copyOver (Results.resized a k) (Outcome.orNaN condition v) =
        some (Results.copyOver (Results.resized a k) (Outcome.orNaN condition v)) :=
    copyOver_eq ((Results.size_resized a k).trans (Outcome.size_orNaN condition v).symm)
  simp only [writeResults, overwrite, Results.resize, Outcome.results, hcopy]
  rfl

/-! ## Changes -/

/-- Takes an array of finite numbers as a vector. Its length has been looked at when the copy asserts it. -/
def finiteVector (what : ProblemPart) (n : Nat) (a : Array T) : ExceptT UpdateError Option (Vector T n) := do
  if a.size ≠ n then throw (.dimensionMismatch what n a.size)
  if !a.all Scalar.isFinite then throw (.badFormat .nonFiniteValue)
  ExceptT.lift (Vec.ofArray? n a)

def primalStart (S : Solver T n m) (x : Option (Array T)) : ExceptT UpdateError Option (Vector T n) :=
  match x with
  | some x => S.program.scaling.scalePrimal <$> finiteVector .primalPoint n x
  | none => pure (Vec.zeros n)

def dualStart (S : Solver T n m) (y : Option (Array T)) : ExceptT UpdateError Option (Vector T m) :=
  match y with
  | some y => S.program.scaling.scaleDual <$> finiteVector .dualPoint m y
  | none => pure (Vec.zeros m)

/-- Sets the starting point. If `y` is refused, `x` has been set. -/
def warmStart (S : Solver T n m) (x y : Option (Array T)) : Option (Solver T n m × Except UpdateError Unit) := do
  match ← (primalStart S x).run with
  | .error e => return (S, .error e)
  | .ok xStart =>
    match ← (dualStart S y).run with
    | .error e => return ({ S with xStart }, .error e)
    | .ok yStart => return ({ S with xStart, yStart }, .ok ())

def updateCost (S : Solver T n m) (q : Array T) : ExceptT UpdateError Option (Solver T n m) :=
  (fun q => { S with program := S.program.setCost q }) <$> finiteVector .linearCost n q

def checkLength (what : ProblemPart) (m : Nat) : Option (Array T) → Except UpdateError Unit
  | some b => if b.size = m then .ok () else .error (.dimensionMismatch what m b.size)
  | none => .ok ()

/-- Replaces the bounds by arrays that must have an element for each constraint. -/
def setBounds (S : Solver T n m) (lower upper : Array T) : Option (Solver T n m) := do
  return { S with program := S.program.setBounds (← Vec.ofArray? m lower) (← Vec.ofArray? m upper) }

/-- Replaces bounds. Those that are not given keep their value. -/
def updateBounds (S : Solver T n m) (bmin bmax : Option (Array T)) : ExceptT UpdateError Option (Solver T n m) := do
  let P := S.program
  ExceptT.mk (some (checkLength .lowerBounds m bmin))
  ExceptT.mk (some (checkLength .upperBounds m bmax))
  let lower := bmin.getD
    (ScaledProgram.unscaledBound P.bmin P.lowerFinite P.scaling.einv (Vec.fill m (-P.limit))).toArray
  let upper := bmax.getD (ScaledProgram.unscaledBound P.bmax P.upperFinite P.scaling.einv (Vec.fill m P.limit)).toArray
  match inconsistentBound? lower upper with
  | some i => throw (.inconsistentBounds i)
  | none => ExceptT.lift (setBounds S lower upper)

theorem finiteVector_eq (what : ProblemPart) (a : Array T) :
    (finiteVector what n a).run = some (AugLag.finiteVector what n a) := by
  unfold finiteVector AugLag.finiteVector
  by_cases hsize : a.size = n
  · subst hsize
    have hvector : Vec.ofArray? a.size a = some ⟨a, rfl⟩ := dif_pos rfl
    have hfinite : Vec.isFinite (⟨a, rfl⟩ : Vector T a.size) = a.all Scalar.isFinite := rfl
    rw [hvector]
    simp only [hfinite]
    cases a.all Scalar.isFinite with
    | true => simp
    | false => simp
  · have hvector : Vec.ofArray? n a = none := dif_neg hsize
    rw [hvector, if_pos hsize]
    rfl

theorem run_map {α β ε : Type} {x : ExceptT ε Option α} {e : Except ε α} (hx : x.run = some e) (f : α → β) :
    (f <$> x).run = some (e.map f) := by
  rw [ExceptT.run_map, hx]
  rfl

section Changes

variable (S : Solver T n m)

theorem primalStart_eq (x : Option (Array T)) : (primalStart S x).run = some (S.primalStart x) := by
  cases x with
  | none => rfl
  | some x => exact run_map (finiteVector_eq .primalPoint x) _

theorem dualStart_eq (y : Option (Array T)) : (dualStart S y).run = some (S.dualStart y) := by
  cases y with
  | none => rfl
  | some y => exact run_map (finiteVector_eq .dualPoint y) _

theorem warmStart_eq (x y : Option (Array T)) : warmStart S x y = some (S.warmStart x y) := by
  rw [warmStart, primalStart_eq, AugLag.Solver.warmStart_eq_parts]
  simp only [Option.bind_eq_bind, Option.bind_some, dualStart_eq]
  cases S.primalStart x with
  | error e => rfl
  | ok xStart =>
      cases S.dualStart y with
      | error e => rfl
      | ok yStart => rfl

theorem updateCost_eq (q : Array T) : (updateCost S q).run = some (S.updateCost q) :=
  run_map (finiteVector_eq .linearCost q) _

theorem setBounds_eq (lower upper : Vector T m) :
    setBounds S lower.toArray upper.toArray = some { S with program := S.program.setBounds lower upper } := by
  rw [setBounds, ofArray?_toArray, ofArray?_toArray]
  rfl

omit [Scalar T] in
/-- Bounds are refused for their length, or they are vectors. -/
theorem boundsOr_cases (what : ProblemPart) (b : Option (Array T)) (stay : Vector T m) :
    (∃ v, checkLength what m b = .ok () ∧ AugLag.Solver.boundsOr what b stay = .ok v ∧
        b.getD stay.toArray = v.toArray) ∨
      ∃ e, checkLength what m b = .error e ∧ AugLag.Solver.boundsOr what b stay = .error e := by
  cases b with
  | none => exact .inl ⟨stay, rfl, rfl, rfl⟩
  | some b =>
      rw [AugLag.Solver.boundsOr, boundVector, checkLength]
      by_cases hsize : b.size = m
      · have hvector : Vec.ofArray? m b = some ⟨b, hsize⟩ := dif_pos hsize
        rw [hvector, if_pos hsize]
        exact .inl ⟨⟨b, hsize⟩, rfl, rfl, rfl⟩
      · have hvector : Vec.ofArray? m b = none := dif_neg hsize
        rw [hvector, if_neg hsize]
        exact .inr ⟨_, rfl, rfl⟩

theorem updateBounds_eq (bmin bmax : Option (Array T)) :
    (updateBounds S bmin bmax).run = some (S.updateBounds bmin bmax) := by
  rw [AugLag.Solver.updateBounds_eq, updateBounds]
  rcases boundsOr_cases .lowerBounds bmin (ScaledProgram.unscaledBound S.program.bmin S.program.lowerFinite
    S.program.scaling.einv (Vec.fill m (-S.program.limit))) with ⟨lower, hlower, heqLower, hstay⟩ | ⟨e, hlower, heqLower⟩
  · rcases boundsOr_cases .upperBounds bmax (ScaledProgram.unscaledBound S.program.bmax S.program.upperFinite
      S.program.scaling.einv (Vec.fill m S.program.limit)) with ⟨upper, hupper, heqUpper, hstay'⟩ | ⟨e, hupper, heqUpper⟩
    · rw [heqLower, heqUpper, hlower, hupper, hstay, hstay']
      dsimp only [bind, Except.bind]
      cases inconsistentBound? lower.toArray upper.toArray with
      | some i => rfl
      | none =>
          rw [setBounds_eq]
          rfl
    · rw [heqLower, heqUpper, hlower, hupper]
      rfl
  · rw [heqLower, hlower]
    rfl

end Changes

namespace Usable

variable {S S' : Solver T n m} (h : Usable S)

include h

theorem warmStart (x y : Option (Array T)) : Usable (S.warmStart x y).1 := by
  obtain ⟨hprogram, -, hengine, -⟩ := S.warmStart_keeps x y
  exact { data := hprogram ▸ h.data, intact := hprogram ▸ hengine ▸ h.intact }

theorem updateCost {q : Array T} (hS : S.updateCost q = .ok S') : Usable S' := by
  obtain ⟨v, -, rfl⟩ := map_eq_ok.mp hS
  exact { data := h.data, intact := h.intact }

theorem updateBounds {lower upper : Option (Array T)} (hS : S.updateBounds lower upper = .ok S') : Usable S' := by
  obtain ⟨bmin, bmax, -, rfl⟩ := AugLag.Solver.exists_of_updateBounds hS
  exact { data := h.data, intact := h.intact }

theorem updateSettings {c : Settings T} (hS : S.updateSettings c = .ok S') : Usable S' := by
  obtain ⟨u, -, rfl⟩ := map_eq_ok.mp hS
  exact { data := h.data, intact := h.intact.invalidate }

end Usable

end AugLag.Checked.Solver
