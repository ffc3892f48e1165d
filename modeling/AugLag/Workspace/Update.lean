import AugLag.Workspace.Basic

/-! Changes of a problem that is set up. All data are given in the units of the problem. -/
namespace AugLag

/-- Why a change is refused. -/
inductive UpdateError
  | released
  | dimensionMismatch (what : ProblemPart) (expected found : Nat)
  | inconsistentBounds (constraint : Nat)
  | badFormat (cause : SparseFormatError)
  | badSettings (cause : SettingsError)
deriving DecidableEq, Repr

def UpdateError.message : UpdateError → String
  | .released => "Workspace has been released"
  | .dimensionMismatch what expected found =>
    s!"Dimension mismatch in {what.name}: expected {expected}, found {found}"
  | .inconsistentBounds i => s!"Inconsistent bounds for constraint {i}"
  | .badFormat _ => "Data formatting error"
  | .badSettings cause => s!"Bad settings: {cause.message}"

variable {T : Type} [Scalar T]

/-- Takes an array of finite numbers as a vector of the expected length. -/
def finiteVector (what : ProblemPart) (n : Nat) (a : Array T) : Except UpdateError (Vector T n) :=
  match Vec.ofArray? n a with
  | none => .error (.dimensionMismatch what n a.size)
  | some v => if Vec.isFinite v then .ok v else .error (.badFormat .nonFiniteValue)

/-- Takes an array as a vector of the expected length. -/
def boundVector (what : ProblemPart) (m : Nat) (a : Array T) : Except UpdateError (Vector T m) :=
  match Vec.ofArray? m a with
  | none => .error (.dimensionMismatch what m a.size)
  | some v => .ok v

namespace Solver

variable {n m : Nat}

/-- Sets the starting point. A part that is not given starts from zero. If `y` is refused, `x` has been set. -/
def warmStart (S : Solver T n m) (x y : Option (Array T)) : Solver T n m × Except UpdateError Unit :=
  let s := S.program.scaling
  let primal : Except UpdateError (Vector T n) :=
    match x with
    | some x => (finiteVector .primalPoint n x).map s.scalePrimal
    | none => .ok (Vec.zeros n)
  let dual : Except UpdateError (Vector T m) :=
    match y with
    | some y => (finiteVector .dualPoint m y).map s.scaleDual
    | none => .ok (Vec.zeros m)
  match primal, dual with
  | .error e, _ => (S, .error e)
  | .ok xStart, .error e => ({ S with xStart }, .error e)
  | .ok xStart, .ok yStart => ({ S with xStart, yStart }, .ok ())

/-- Replaces the linear cost. -/
def updateCost (S : Solver T n m) (q : Array T) : Except UpdateError (Solver T n m) :=
  (finiteVector .linearCost n q).map fun q => { S with program := S.program.setCost q }

/-- Replaces bounds. Those that are not given keep their value. -/
def updateBounds (S : Solver T n m) (bmin bmax : Option (Array T)) : Except UpdateError (Solver T n m) := do
  let P := S.program
  let lower ← match bmin with
    | some b => boundVector .lowerBounds m b
    | none => .ok (ScaledProgram.unscaledBound P.bmin P.lowerFinite P.scaling.einv (Vec.fill m (-P.limit)))
  let upper ← match bmax with
    | some b => boundVector .upperBounds m b
    | none => .ok (ScaledProgram.unscaledBound P.bmax P.upperFinite P.scaling.einv (Vec.fill m P.limit))
  match inconsistentBound? lower.toArray upper.toArray with
  | some i => .error (.inconsistentBounds i)
  | none => return { S with program := P.setBounds lower upper }

/-- Replaces the settings. -/
def updateSettings (S : Solver T n m) (c : Settings T) : Except UpdateError (Solver T n m) :=
  ((c.validateAsUpdate S.settings).mapError .badSettings).map fun _ =>
    { S with settings := c, engine := S.engine.invalidate }

end Solver

namespace Workspace

/-- Applies a change that has no effect when it is refused. -/
def change (w : Workspace T) (f : {n m : Nat} → Solver T n m → Except UpdateError (Solver T n m)) :
    Workspace T × Except UpdateError Unit :=
  match w.prepared with
  | none => (w, .error .released)
  | some p =>
    match f p.solver with
    | .error e => (w, .error e)
    | .ok solver => ({ w with prepared := some { p with solver } }, .ok ())

def warmStart (w : Workspace T) (x y : Option (Array T)) : Workspace T × Except UpdateError Unit :=
  match w.prepared with
  | none => (w, .error .released)
  | some p =>
    let (solver, outcome) := p.solver.warmStart x y
    ({ w with prepared := some { p with solver } }, outcome)

def updateCost (w : Workspace T) (q : Array T) : Workspace T × Except UpdateError Unit :=
  w.change fun S => S.updateCost q

def updateBounds (w : Workspace T) (bmin bmax : Option (Array T)) : Workspace T × Except UpdateError Unit :=
  w.change fun S => S.updateBounds bmin bmax

def updateSettings (w : Workspace T) (c : Settings T) : Workspace T × Except UpdateError Unit :=
  w.change fun S => S.updateSettings c

end Workspace
end AugLag
