/-! Outcomes of a solve, with their codes and symbols. -/
namespace AugLag

inductive Status
  | unsolved
  | solved
  | solvedInaccurate
  | primalInfeasible
  | primalInfeasibleInaccurate
  | dualInfeasible
  | dualInfeasibleInaccurate
  | maxIterReached
  | timeLimitReached
  | nonConvex
deriving DecidableEq, Repr

/-- A problem counts as unsolved until it has been solved. -/
instance : Inhabited Status := ⟨.unsolved⟩

/-- A code that stands for no status. -/
structure UnknownStatusCode where
  code : Int
deriving DecidableEq, Repr

def UnknownStatusCode.message (e : UnknownStatusCode) : String := s!"unknown solver status code {e.code}"

namespace Status

/-- All outcomes in order of declaration. -/
def all : List Status :=
  [.unsolved, .solved, .solvedInaccurate, .primalInfeasible, .primalInfeasibleInaccurate, .dualInfeasible,
   .dualInfeasibleInaccurate, .maxIterReached, .timeLimitReached, .nonConvex]

def code : Status → Int
  | .solved => 1
  | .solvedInaccurate => 3
  | .maxIterReached => -2
  | .primalInfeasible => -3
  | .dualInfeasible => -4
  | .timeLimitReached => -5
  | .nonConvex => -7
  | .primalInfeasibleInaccurate => -8
  | .dualInfeasibleInaccurate => -9
  | .unsolved => -10

def symbol : Status → String
  | .solved => "Solved"
  | .solvedInaccurate => "Solved_inaccurate"
  | .maxIterReached => "Max_iter_reached"
  | .primalInfeasible => "Primal_infeasible"
  | .dualInfeasible => "Dual_infeasible"
  | .timeLimitReached => "Time_limit_reached"
  | .nonConvex => "Non_convex"
  | .primalInfeasibleInaccurate => "Primal_infeasible_inaccurate"
  | .dualInfeasibleInaccurate => "Dual_infeasible_inaccurate"
  | .unsolved => "Unsolved"

def isSolved (s : Status) : Bool := s = .solved || s = .solvedInaccurate

def isPrimalInfeasible (s : Status) : Bool := s = .primalInfeasible || s = .primalInfeasibleInaccurate

def isDualInfeasible (s : Status) : Bool := s = .dualInfeasible || s = .dualInfeasibleInaccurate

def isTerminal (s : Status) : Bool := s != .unsolved

/-- A limit ended the solve. -/
def isLimit (s : Status) : Bool := s = .maxIterReached || s = .timeLimitReached

/-- The last iterate is reported as the solution. -/
def hasSolution (s : Status) : Bool := s.isSolved || s.isLimit

def ofCode (code : Int) : Except UnknownStatusCode Status :=
  match all.find? fun s => s.code == code with
  | some s => .ok s
  | none => .error { code }

/-- The code reported for an unknown symbol. -/
def noCode : Int := -2147483648

def ofSymbol (symbol : String) : Except UnknownStatusCode Status :=
  match all.find? fun s => s.symbol == symbol with
  | some s => .ok s
  | none => .error { code := noCode }

end Status
end AugLag
