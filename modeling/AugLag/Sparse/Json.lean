import AugLag.Json.Writer
import AugLag.Sparse.Basic

/-! Sparse matrices as JSON: a record of the size and the arrays. Reading checks the types of the parts and nothing
else. -/
namespace AugLag.SparseMatrix

variable {T : Type} [Scalar T] [Json.Numeral T]

/-- Counts and indices fit into 64 bits. -/
def readIndex : Json.Reader Nat := Json.natBelow UInt64.size

def jsonFields : Json.Fields (SparseMatrix T) where
  names := ["m", "n", "colptr", "rowval", "nzval"]
  read name M :=
    match name with
    | "m" => do return { M with rows := ← readIndex }
    | "n" => do return { M with cols := ← readIndex }
    | "colptr" => do return { M with colPtr := ← Json.array readIndex }
    | "rowval" => do return { M with rowIdx := ← Json.array readIndex }
    | "nzval" => do return { M with values := ← Json.array Json.numeral }
    | _ => throw .invalid

def readJson : Json.Reader (SparseMatrix T) := jsonFields.complete (zeros 0 0)

def writeJson (M : SparseMatrix T) : List Char :=
  Json.writeObject
    [("m", Json.writeNat M.rows), ("n", Json.writeNat M.cols), ("colptr", Json.writeArray Json.writeNat M.colPtr),
     ("rowval", Json.writeArray Json.writeNat M.rowIdx), ("nzval", Json.writeArray Json.Numeral.write M.values)]

end AugLag.SparseMatrix
