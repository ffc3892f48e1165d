import AugLag.Sparse.Basic

/-! The undirected graph of a symmetric matrix whose upper triangle is stored. -/
namespace AugLag.Elimination

variable {T : Type}

/-- The neighbours of every vertex, in increasing order. -/
abbrev Graph := Array (List Nat)

/-- The rows above the diagonal that column `k` stores, each once and in increasing order. -/
def rowsAbove (A : SparseMatrix T) (k : Nat) : List Nat :=
  let stored := (A.slots k).map A.rowAt
  (List.range k).filter stored.contains

/-- Joins `k` with its earlier neighbours. -/
def link (graph : Graph) (k : Nat) (earlier : List Nat) : Graph :=
  earlier.foldl (fun g j => (g.modify j (· ++ [k])).modify k (· ++ [j])) graph

def graph (A : SparseMatrix T) : Graph :=
  (List.range A.cols).foldl (fun g k => link g k (rowsAbove A k)) (Array.replicate A.cols [])

end AugLag.Elimination
