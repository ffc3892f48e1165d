import AugLag.Report.Text
import AugLag.Workspace.Basic

/-! Solving the problem of a workspace, with printed progress. -/
namespace AugLag

variable {T : Type} [MachineScalar T]

/-- What happens during a solve: text to print, or an event. -/
inductive Notice (T : Type)
  | text (text : String)
  | event (e : Event T)

def Signal.notice : Signal T → Notice T
  | .event e => .event e
  | .progress row => .text (Report.progress row)

/-- What became of notices: the target, the text that it handed out, and all events. -/
structure Delivery (T : Type) where
  target : PrintTarget
  printed : String
  events : Array (Event T)

namespace Delivery

def empty (target : PrintTarget) : Delivery T := { target, printed := "", events := #[] }

/-- A text that cannot be written is reported in its place. -/
def add (d : Delivery T) : Notice T → Delivery T
  | .event e => { d with events := d.events.push e }
  | .text text =>
    match d.target.put text with
    | (target, .ok out) => { d with target, printed := d.printed ++ out }
    | (target, .error failure) => { d with target, events := d.events.push (.outputFailed failure) }

def ofNotices (target : PrintTarget) (notices : List (Notice T)) : Delivery T := notices.foldl add (empty target)

end Delivery

namespace Solver

variable {n m : Nat}

/-- All notices of a run in their order. Text is printed if the settings ask for it. -/
def notices (S : Solver T n m) (o : Outcome T n m) : List (Notice T) :=
  let text (t : String) : List (Notice T) := if S.settings.verbose then [.text t] else []
  text (Report.configuration S.program S.settings S.engine.name) ++ text Report.header ++
    o.signals.map Signal.notice ++ text (Report.footer o.info)

end Solver

/-- The outcome of a solve. -/
structure Solution (T : Type) where
  workspace : Workspace T
  results : Results T
  delivery : Delivery T

namespace Workspace

/-- Solves the problem and writes the results over older ones. The clock tells the time in seconds after each multiplier
update. -/
def solveInto (w : Workspace T) (clock : Nat → Float) (old : Results T) : Except ReleasedError (Solution T) :=
  match w.prepared with
  | none => .error .released
  | some p =>
    let S := p.solver
    let (solver, outcome) := S.run fun updates => S.settings.timeLimit < clock updates
    let delivery := Delivery.ofNotices w.target (S.notices outcome)
    .ok
      { workspace := { prepared := some { p with solver }, target := delivery.target }
        results := outcome.writeResults S.program old
        delivery }

/-- Solves the problem. -/
def solve (w : Workspace T) (clock : Nat → Float) : Except ReleasedError (Solution T) :=
  w.solveInto clock (Results.blank 0 0)

end Workspace
end AugLag
