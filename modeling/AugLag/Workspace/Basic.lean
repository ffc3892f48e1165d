import AugLag.Problem.Input
import AugLag.Report.Target
import AugLag.Solver.Basic

/-! Workspaces. A workspace holds one problem that is set up, until it is released. -/
namespace AugLag

/-- A solver with the size of its problem. -/
structure Prepared (T : Type) where
  n : Nat
  m : Nat
  solver : Solver T n m

structure Workspace (T : Type) where
  /-- `none` once the workspace is released. -/
  prepared : Option (Prepared T)
  target : PrintTarget

/-- An operation was asked of a workspace that had been released. -/
inductive ReleasedError
  | released
deriving DecidableEq, Repr

def ReleasedError.message : ReleasedError → String
  | .released => "Workspace has been released"

namespace Workspace

variable {T : Type} [Scalar T]

/-- Validates a problem and prepares its solution. Bounds at the limit or beyond are absent. -/
def setup [Elimination.Rule] (problem : ProblemInput T) (c : Settings T) (limit : T) :
    Except SetupError (Workspace T) × List (Event T) :=
  match problem.validate c with
  | .error e => (.error e, [])
  | .ok (n, m) =>
    let (program, log) := problem.normalize n m limit
    match Solver.ofProgram program c with
    | .error e => (.error (.linearSolver e), log)
    | .ok solver =>
      (.ok { prepared := some { n, m, solver }, target := .stdout }, log ++ [.setup n m solver.engine.name])

/-- The numbers of variables and constraints. -/
def dims (w : Workspace T) : Option (Nat × Nat) := w.prepared.map fun p => (p.n, p.m)

def settings (w : Workspace T) : Option (Settings T) := w.prepared.map fun p => p.solver.settings

def isReleased (w : Workspace T) : Bool := w.prepared.isNone

/-- Frees what the workspace holds. It can be done more than once. -/
def release (w : Workspace T) : Workspace T × List (Event T) :=
  ({ w with prepared := none }, if w.isReleased then [] else [.released])

/-- Redirects printed text. A buffer that was kept so far is lost. -/
def printTo (w : Workspace T) (target : PrintTarget) : Workspace T := { w with target }

end Workspace
end AugLag
