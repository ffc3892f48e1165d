import AugLag.Report.Number
import AugLag.Solver.Run

/-! What a solve prints: a banner with the configuration, a table of progress and a summary. -/
namespace AugLag.Report

variable {T : Type} [MachineScalar T]

def line (text : String) : String := text ++ "\n"

def rule : String := "".pushn '-' 71

def banner : String := "           QPALM.rs v0.1.0  -  Proximal ALM for QPs"

def onOff (b : Bool) : String := if b then "on" else "off"

def timeLimitText (c : Settings T) : String :=
  if c.timeLimit.isFinite then brief c.timeLimit ++ " s" else "none"

/-- The size of a problem. -/
def problemText (n m costEntries constraintEntries : Nat) : String :=
  line "problem:" ++
  line s!"  variables   = {n}, nnz(Q) = {costEntries}" ++
  line s!"  constraints = {m}, nnz(A) = {constraintEntries}"

def settingsText (c : Settings T) (engine : String) : String :=
  let width := (MachineScalar.format T).width
  let time := timeLimitText c
  line "settings:" ++
  line s!"  linear solver: {engine}, precision: {width} bit" ++
  line (s!"  max iter = {c.maxIter}, inner max iter = {c.innerMaxIter}, outer max iter = {c.maxOuterIter}, " ++
    s!"time limit = {time}") ++
  line (s!"  eps_abs = {brief c.epsAbs}, eps_rel = {brief c.epsRel}, " ++
    s!"eps_prim_inf = {brief c.epsPrimInf}, eps_dual_inf = {brief c.epsDualInf}") ++
  line (s!"  penalty: σ₀ = {brief c.initialPenalty}, Δ = {brief c.penaltyGrowth}, " ++
    s!"θ = {hundredths c.penaltyProgressRatio}, max = {brief c.maxPenalty}") ++
  line (s!"  proximal: {onOff c.proximalEnable}, ρ₀ = {brief c.initialProximal}, " ++
    s!"min = {brief c.minProximal}, nonconvex: {onOff c.nonconvex}") ++
  line (s!"  scaling: {onOff c.scalingEnable} ({c.scalingIter} iter), " ++
    s!"limits = [{brief c.scalingMin}, {brief c.scalingMax}]")

def configuration {n m : Nat} (P : ScaledProgram T n m) (c : Settings T) (engine : String) : String :=
  line rule ++ line banner ++ line rule ++ line "" ++
  problemText n m P.Q.nnz P.A.nnz ++ line "" ++
  settingsText c engine ++ line ""

/-- A text followed by spaces up to a width. -/
def padRight (width : Nat) (text : String) : String := text.pushn ' ' (width - text.length)

/-- A text after spaces up to a width. -/
def padLeft (width : Nat) (text : String) : String := "".pushn ' ' (width - text.length) ++ text

/-- The columns of the table of progress with their widths. -/
def columns : List (String × Nat) :=
  [("iter", 4), ("outer", 5), ("objective", 11), ("pres", 8), ("dres", 8), ("max σ", 8), ("ρ", 8)]

/-- Cells of a row, each followed by two spaces. -/
def cells (texts : List String) : String := texts.foldl (fun row text => row ++ text ++ "  ") ""

def header : String := line (cells (columns.map fun c => padRight c.2 c.1)) ++ line rule

def progress (row : ProgressRow T) : String :=
  line (cells
    [padLeft 4 (toString row.iter), padLeft 5 (toString row.iterOut), tabular 4 true row.objective,
     tabular 2 false row.primalResidual, tabular 2 false row.dualResidual, tabular 2 false row.maxPenalty,
     tabular 2 false row.rho])

/-- The summary at the end of a solve. An objective that is not finite is left out. -/
def footer (info : Info T) : String :=
  line rule ++
  line s!"Terminated with status = {info.status.symbol}" ++
  line (s!"iterations = {info.iter} ({info.iterOut} outer), " ++
    s!"inner nonconvergence = {info.innerNonconvergence}") ++
  if Scalar.isFinite info.objective then line s!"objective = {tabular 6 true info.objective}" else ""

end AugLag.Report
