import AugLag.Settings.Json
import AugLag.Sparse.Json
import AugLag.Workspace.Basic

/-! Dumps: a problem in its own units with its settings, written as JSON and read back. JSON has no infinity, so an
infinite bound or time limit is written as the largest finite number, and that number is read as infinite. -/
namespace AugLag

structure Dump (T : Type) where
  Q : SparseMatrix T
  q : Array T
  A : SparseMatrix T
  bmin : Array T
  bmax : Array T
  settings : Settings T

/-- A format of dumps: a writer, and a reader of texts that need not hold a dump. -/
structure DumpFormat (T : Type) where
  write : Dump T → String
  read : String → Except Json.Fault (Dump T)

/-- Why a dump does not become a workspace. -/
inductive ReadError
  | text (fault : Json.Fault)
  | setup (cause : SetupError)
deriving DecidableEq, Repr

namespace Dump

variable {T : Type} [Scalar T]

/-- The largest numbers stand for infinite ones. -/
def toFinite (x : T) : T :=
  if x == Scalar.infinity then Scalar.maxValue else if x == -Scalar.infinity then -Scalar.maxValue else x

/-- Infinite numbers for the largest ones. -/
def ofFinite (x : T) : T :=
  if x == Scalar.maxValue then Scalar.infinity else if x == -Scalar.maxValue then -Scalar.infinity else x

/-- A time limit is never negative. -/
def timeToFinite (t : Float) : Float := if t == Scalar.infinity then Scalar.maxValue else t

def timeOfFinite (t : Float) : Float := if t == Scalar.maxValue then Scalar.infinity else t

/-- The present problem of a solver, ready to be written. -/
def ofSolver {n m : Nat} (S : Solver T n m) : Dump T :=
  let P := S.program.unscaled
  { Q := P.Q
    q := P.q.toArray
    A := P.A
    bmin := P.bmin.toArray.map toFinite
    bmax := P.bmax.toArray.map toFinite
    settings := { S.settings with timeLimit := timeToFinite S.settings.timeLimit } }

/-- The problem of a dump that was read. -/
def problem (d : Dump T) : ProblemInput T where
  Q := some (.sparse d.Q)
  q := some d.q
  A := some (.sparse d.A)
  bmin := some (d.bmin.map ofFinite)
  bmax := some (d.bmax.map ofFinite)

/-- The settings of a dump that was read. -/
def readSettings (d : Dump T) : Settings T := { d.settings with timeLimit := timeOfFinite d.settings.timeLimit }

variable [Json.Numeral T]

def jsonFields : Json.Fields (Dump T) where
  names := ["Q", "q", "A", "bmin", "bmax", "settings"]
  read name d :=
    match name with
    | "Q" => do return { d with Q := ← SparseMatrix.readJson }
    | "q" => do return { d with q := ← Json.array Json.numeral }
    | "A" => do return { d with A := ← SparseMatrix.readJson }
    | "bmin" => do return { d with bmin := ← Json.array Json.numeral }
    | "bmax" => do return { d with bmax := ← Json.array Json.numeral }
    | "settings" => do return { d with settings := ← Settings.readJson }
    | _ => throw .invalid

def empty : Dump T where
  Q := SparseMatrix.zeros 0 0
  q := #[]
  A := SparseMatrix.zeros 0 0
  bmin := #[]
  bmax := #[]
  settings := Settings.default

def readJson : Json.Reader (Dump T) := jsonFields.complete empty

def writeJson (d : Dump T) : List Char :=
  Json.writeObject
    [("Q", d.Q.writeJson), ("q", Json.writeArray Json.Numeral.write d.q), ("A", d.A.writeJson),
     ("bmin", Json.writeArray Json.Numeral.write d.bmin), ("bmax", Json.writeArray Json.Numeral.write d.bmax),
     ("settings", d.settings.writeJson)]

def json : DumpFormat T where
  write d := String.ofList d.writeJson
  read := Json.read readJson

end Dump

namespace Workspace

variable {T : Type} [Scalar T]

/-- The present problem in its own units with the present settings. -/
def dump (w : Workspace T) : Except ReleasedError (Dump T) :=
  match w.prepared with
  | none => .error .released
  | some p => .ok (Dump.ofSolver p.solver)

def writeAs (format : DumpFormat T) (w : Workspace T) : Except ReleasedError String := w.dump.map format.write

/-- Sets up the problem of a dump. -/
def ofDump [Elimination.Rule] (limit : T) :
    Except Json.Fault (Dump T) → Except ReadError (Workspace T) × List (Event T)
  | .error fault => (.error (.text fault), [])
  | .ok d =>
    let (outcome, log) := setup d.problem d.readSettings limit
    (outcome.mapError .setup, log)

/-- Reads a dump and sets up its problem. -/
def readAs [Elimination.Rule] (format : DumpFormat T) (text : String) (limit : T) :
    Except ReadError (Workspace T) × List (Event T) :=
  ofDump limit (format.read text)

variable [Json.Numeral T]

def write (w : Workspace T) : Except ReleasedError String := w.writeAs Dump.json

def read [Elimination.Rule] (text : String) (limit : T) : Except ReadError (Workspace T) × List (Event T) :=
  readAs Dump.json text limit

def readBytes [Elimination.Rule] (bytes : ByteArray) (limit : T) : Except ReadError (Workspace T) × List (Event T) :=
  ofDump limit (Json.readBytes Dump.readJson bytes)

end Workspace
end AugLag
