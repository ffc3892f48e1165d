import AugLag.Sparse.Basic

/-! Elimination trees. The parent of column `i` is the first row below the diagonal in which column `i` of the
triangular factor has an entry; the rows of a factor are found by climbing in the tree. -/
namespace AugLag

/-- The tree, and the number of entries below the diagonal in each column of the factor. -/
structure EliminationTree where
  parent : Array (Option Nat)
  count : Array Nat

namespace EliminationTree

def parentOf (tree : EliminationTree) (i : Nat) : Option Nat := tree.parent.getD i none

/-- Climbs from column `i` towards `k`, which becomes the parent of a root on the way, up to the first marked
column. Every column passed has an entry in row `k` of the factor. -/
def climb (k : Nat) : Nat → EliminationTree × Array Bool → Nat → EliminationTree × Array Bool
  | 0, acc, _ => acc
  | fuel + 1, (tree, marks), i =>
    if marks.getD i true then (tree, marks)
    else
      let above := (tree.parentOf i).getD k
      climb k fuel
        ({ parent := tree.parent.setIfInBounds i (some above), count := tree.count.modify i (· + 1) },
          marks.setIfInBounds i true) above

/-- Accounts for row `k` of the factor. -/
def addRow {T : Type} (A : SparseMatrix T) (tree : EliminationTree) (k : Nat) : EliminationTree :=
  let marks := (Array.replicate A.cols false).setIfInBounds k true
  ((A.slots k).foldl (fun acc p => climb k A.cols acc (A.rowAt p)) (tree, marks)).1

/-- The tree of a symmetric matrix whose upper triangle is stored, with the rows of a column in any order. -/
def ofMatrix {T : Type} (A : SparseMatrix T) : EliminationTree :=
  (List.range A.cols).foldl (addRow A)
    { parent := Array.replicate A.cols none, count := Array.replicate A.cols 0 }

/-- The columns from `i` upwards that lie below row `k` and are not marked yet. Marks them. -/
def path (tree : EliminationTree) (k : Nat) : Nat → Array Bool → Nat → Array Bool × List Nat
  | 0, marks, _ => (marks, [])
  | fuel + 1, marks, i =>
    if i < k && !marks.getD i true then
      let marks := marks.setIfInBounds i true
      match tree.parentOf i with
      | none => (marks, [i])
      | some above =>
        let rest := path tree k fuel marks above
        (rest.1, i :: rest.2)
    else (marks, [])

/-- The columns with an entry in row `k` of the factor, where `rows` are those above the diagonal in column `k`
of the matrix. Descendants come before their ancestors. -/
def reach (tree : EliminationTree) (k : Nat) (rows : List Nat) : List Nat :=
  (rows.foldl (fun acc i =>
    let p := tree.path k (k + 1) acc.1 i
    (p.1, p.2 ++ acc.2)) (Array.replicate k false, [])).2

end EliminationTree
end AugLag
