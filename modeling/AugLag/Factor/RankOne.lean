import AugLag.Factor.Numeric

/-! Modification of positive definite factors by a multiple of the square of a sparse vector. Only columns on the
path of the elimination tree from the first entry of the vector change. -/
namespace AugLag.Factorization

variable {T : Type} [Scalar T]

/-- The factors, what is left of the vector, and what is left of its weight. -/
structure RankOne (T : Type) where
  lower : SparseMatrix T
  diag : Array T
  diagInv : Array T
  w : Array T
  weight : T

/-- Changes slot `p` of the column whose entry of the vector is `wj`. -/
def modifySlot (wj beta : T) (s : RankOne T) (p : Nat) : RankOne T :=
  let i := s.lower.rowAt p
  let l := s.lower.valueAt p
  let wi := s.w.getD i 0 - wj * l
  { s with
    w := s.w.setIfInBounds i wi
    lower := { s.lower with values := s.lower.values.setIfInBounds p (l + beta * wi) } }

/-- Changes column `j`. Returns the new pivot if it is not positive. -/
def modifyColumn (s : RankOne T) (j : Nat) : RankOne T × Bool :=
  let wj := s.w.getD j 0
  let s := { s with w := s.w.setIfInBounds j 0 }
  let dj := s.diag.getD j 0
  let d := dj + s.weight * wj * wj
  if 0 < d then
    let beta := wj * s.weight / d
    let s :=
      { s with
        weight := s.weight * (dj / d)
        diag := s.diag.setIfInBounds j d
        diagInv := s.diagInv.setIfInBounds j (Scalar.recip d) }
    ((s.lower.slots j).foldl (modifySlot wj beta) s, true)
  else (s, false)

/-- Changes column `j` and the columns above it in the tree. -/
def modifyPath (tree : EliminationTree) : Nat → RankOne T → Option Nat → RankOne T × Except FactorError Unit
  | 0, s, _ => (s, .ok ())
  | _, s, none => (s, .ok ())
  | fuel + 1, s, some j =>
    match modifyColumn s j with
    | (s, true) => modifyPath tree fuel s (tree.parentOf j)
    | (s, false) => (s, .error .notPositiveDefinite)

/-- The vector with the given entries in the order of elimination; entries of one place are added. -/
def permutedVector (F : Factorization T) (entries : List (Nat × T)) : Array T :=
  entries.foldl (fun w e => w.modify (F.inverse.getD e.1 0) (· + e.2)) (Array.replicate F.dim 0)

/-- The first place in the order of elimination that has an entry. -/
def firstPlace (F : Factorization T) (entries : List (Nat × T)) : Option Nat :=
  (entries.map fun e => F.inverse.getD e.1 0).min?

/-- Turns factors of `A` into factors of `A + weight w wᵀ`. After an error they are of no use. -/
def rankOne (F : Factorization T) (entries : List (Nat × T)) (weight : T) :
    Factorization T × Except FactorError Unit :=
  let start : RankOne T :=
    { lower := F.lower, diag := F.diag, diagInv := F.diagInv, w := F.permutedVector entries, weight }
  let (s, outcome) := modifyPath F.tree F.dim start (F.firstPlace entries)
  let F := { F with lower := s.lower, diag := s.diag, diagInv := s.diagInv }
  match outcome with
  | .ok () => ({ F with positive := F.diag.countP fun d => 0 < d }, .ok ())
  | .error e => (F, .error e)

def rankOne? (F : Factorization T) (indices : Array Nat) (values : Array T) (weight : T) :
    Option (Factorization T × Except FactorError Unit) :=
  if indices.size = values.size ∧ indices.all (· < F.dim) then
    some (F.rankOne (indices.toList.zip values.toList) weight)
  else none

end AugLag.Factorization
