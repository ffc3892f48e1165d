import AugLag.Elimination.Graph

/-! Quotient graphs of a symmetric elimination. A vertex is a variable until it is chosen as a pivot; then it
becomes an element, which stands for the clique among its remaining variables. Variables that can no longer
be told apart are merged into one principal variable, whose weight counts them. -/
namespace AugLag.Elimination

structure Quotient where
  /-- The number of vertices. -/
  order : Nat
  /-- The elements next to a variable. -/
  elements : Array (List Nat)
  /-- The variables next to a variable, or the variables of an element. -/
  members : Array (List Nat)
  /-- The number of vertices that a principal variable or an element stands for, and zero for all others. -/
  weight : Array Nat
  /-- An upper bound on the degree of a variable, or the weight of the members of an element. -/
  degree : Array Nat
  /-- The element or variable into which a vertex went. -/
  parent : Array (Option Nat)
  /-- The element has no life of its own any more. -/
  absorbed : Array Bool
  /-- The size of the clique that the elimination of an element forms. -/
  frontSize : Array Nat
  /-- The principal variables of each degree; the one entered last comes first. -/
  byDegree : Array (List Nat)
  /-- No variable has a smaller degree. -/
  minDegree : Nat
  /-- The number of vertices that are ordered already or put off to the end. -/
  eliminated : Nat

namespace Quotient

def weightOf (G : Quotient) (i : Nat) : Nat := G.weight.getD i 0

def degreeOf (G : Quotient) (i : Nat) : Nat := G.degree.getD i 0

def elementsOf (G : Quotient) (i : Nat) : List Nat := G.elements.getD i []

def membersOf (G : Quotient) (i : Nat) : List Nat := G.members.getD i []

def isAbsorbed (G : Quotient) (e : Nat) : Bool := G.absorbed.getD e false

/-- Enters a variable in the list of its degree. -/
def enlist (G : Quotient) (i degree : Nat) : Quotient :=
  { G with
    byDegree := G.byDegree.modify degree (i :: ·)
    degree := G.degree.setIfInBounds i degree }

/-- Takes a variable out of the list of its degree. -/
def delist (G : Quotient) (i : Nat) : Quotient :=
  { G with byDegree := G.byDegree.modify (G.degreeOf i) (·.erase i) }

/-- Element `e` goes into element `pivot`. -/
def absorbElement (G : Quotient) (pivot e : Nat) : Quotient :=
  { G with
    parent := G.parent.setIfInBounds e (some pivot)
    absorbed := G.absorbed.setIfInBounds e true }

/-- A vertex without neighbours is eliminated at once, one with more than `dense` neighbours is put off to
the end, and every other one waits in the list of its degree. -/
def place (dense : Nat) (G : Quotient) (i : Nat) : Quotient :=
  let degree := G.degreeOf i
  if degree = 0 then
    { G with
      eliminated := G.eliminated + 1
      absorbed := G.absorbed.setIfInBounds i true
      frontSize := G.frontSize.setIfInBounds i 1 }
  else if dense < degree then
    { G with eliminated := G.eliminated + 1, weight := G.weight.setIfInBounds i 0 }
  else G.enlist i degree

def ofGraph (graph : Graph) (dense : Nat) : Quotient :=
  let n := graph.size
  (List.range n).foldl (place dense)
    { order := n
      elements := Array.replicate n []
      members := graph
      weight := Array.replicate n 1
      degree := graph.map List.length
      parent := Array.replicate n none
      absorbed := Array.replicate n false
      frontSize := Array.replicate n 0
      byDegree := Array.replicate n []
      minDegree := 0
      eliminated := 0 }

/-! ### The front of a pivot -/

/-- Adds the principal variables among the candidates that are not marked yet. -/
def gather (G : Quotient) (acc : Array Bool × List Nat) (i : Nat) : Array Bool × List Nat :=
  if 0 < G.weightOf i && !acc.1.getD i true then (acc.1.setIfInBounds i true, acc.2 ++ [i]) else acc

/-- The variables that the elimination of `pivot` joins: those of its elements, then its own. Also marks them
and the pivot. -/
def front (G : Quotient) (pivot : Nat) : Array Bool × List Nat :=
  let candidates := (G.elementsOf pivot).flatMap G.membersOf ++ G.membersOf pivot
  candidates.foldl G.gather ((Array.replicate G.order false).setIfInBounds pivot true, [])

def totalWeight (G : Quotient) (group : List Nat) : Nat := group.foldl (fun w i => w + G.weightOf i) 0

/-- The weight of each element outside of the front, for elements next to it. -/
def outsideWeights (G : Quotient) (front : List Nat) : Array (Option Nat) :=
  front.foldl (fun w i =>
    (G.elementsOf i).foldl (fun w e =>
      if G.isAbsorbed e then w
      else w.setIfInBounds e (some (((w.getD e none).getD (G.degreeOf e)) - G.weightOf i))) w)
    (Array.replicate G.order none)

/-! ### Degrees of the variables of a front -/

/-- The state while the variables of a front are visited. -/
structure Visit where
  graph : Quotient
  /-- The weight of the front. -/
  frontWeight : Nat
  /-- The weight of the pivot. -/
  pivotWeight : Nat
  /-- The variables visited so far by hash of their neighbours; the last one comes first. -/
  byHash : Array (List Nat)
  hashOf : Array Nat

/-- The elements of a variable that reach beyond the front; the others are absorbed into the pivot. -/
def livingElements (G : Quotient) (pivot : Nat) (outside : Array (Option Nat)) (elements : List Nat) :
    Quotient × List Nat :=
  elements.foldl (fun acc e =>
    if acc.1.isAbsorbed e then acc
    else if 0 < (outside.getD e none).getD 0 then (acc.1, acc.2 ++ [e])
    else (acc.1.absorbElement pivot e, acc.2)) (G, [])

/-- Visits variable `i`: drops what the pivot covers, bounds the degree, and puts the pivot in front of its
elements. A variable of which nothing is left is eliminated together with the pivot. -/
def visitVariable (pivot : Nat) (marked : Array Bool) (outside : Array (Option Nat)) (s : Visit) (i : Nat) :
    Visit :=
  let (G, living) := s.graph.livingElements pivot outside (s.graph.elementsOf i)
  let others := (G.membersOf i).filter fun j => 0 < G.weightOf j && !marked.getD j true
  let weight := G.weightOf i
  if living.isEmpty && others.isEmpty then
    { s with
      graph := { G with
        parent := G.parent.setIfInBounds i (some pivot)
        weight := G.weight.setIfInBounds i 0
        eliminated := G.eliminated + weight }
      frontWeight := s.frontWeight - weight
      pivotWeight := s.pivotWeight + weight }
  else
    let reach := living.foldl (fun w e => w + (outside.getD e none).getD 0) 0
    let degree := reach + G.totalWeight others
    let hash := (living ++ others).foldl (· + ·) 0 % G.order
    { s with
      graph := { G with
        degree := G.degree.setIfInBounds i (min (G.degreeOf i) degree)
        elements := G.elements.setIfInBounds i (pivot :: living.rotateLeft)
        members := G.members.setIfInBounds i others.rotateLeft }
      byHash := s.byHash.modify hash (i :: ·)
      hashOf := s.hashOf.setIfInBounds i hash }

/-! ### Merging of indistinguishable variables -/

/-- Two variables of a front have the same elements and the same neighbours. -/
def sameNeighbours (G : Quotient) (i j : Nat) : Bool :=
  (G.elementsOf j).length == (G.elementsOf i).length && (G.membersOf j).length == (G.membersOf i).length &&
    let near := (G.elementsOf i).drop 1 ++ G.membersOf i
    ((G.elementsOf j).drop 1 ++ G.membersOf j).all near.contains

/-- Variable `j` goes into variable `i`. -/
def mergeVariable (G : Quotient) (i j : Nat) : Quotient :=
  { G with
    parent := G.parent.setIfInBounds j (some i)
    weight := (G.weight.modify i (· + G.weightOf j)).setIfInBounds j 0 }

/-- Merges variables of one bucket into the first one that has the same neighbours. -/
def mergeBucket (G : Quotient) : List Nat → Quotient
  | [] => G
  | i :: rest =>
    let same := rest.filter (G.sameNeighbours i)
    mergeBucket (same.foldl (fun G j => G.mergeVariable i j) G) (rest.filter fun j => !G.sameNeighbours i j)
termination_by bucket => bucket.length
decreasing_by
  simpa using Nat.lt_succ_of_le (Nat.le_trans (List.length_filter_le _ rest.attach) (by simp))

/-- Empties the bucket of a variable of the front and merges what it held. -/
def mergeLike (hashOf : Array Nat) (acc : Quotient × Array (List Nat)) (i : Nat) :
    Quotient × Array (List Nat) :=
  if acc.1.weightOf i = 0 then acc
  else
    let hash := hashOf.getD i 0
    (acc.1.mergeBucket (acc.2.getD hash []), acc.2.setIfInBounds hash [])

/-! ### Elimination of a pivot -/

/-- Enters a variable of the front again, with the bound on its degree that includes the new element. -/
def restore (frontWeight : Nat) (G : Quotient) (i : Nat) : Quotient :=
  let weight := G.weightOf i
  let degree := min (G.degreeOf i + frontWeight - weight) (G.order - G.eliminated - weight)
  { G.enlist i degree with minDegree := min G.minDegree degree }

/-- The first variable of least degree. -/
def nextPivot (G : Quotient) : Option (Nat × Nat) :=
  (List.range' G.minDegree (G.order - G.minDegree)).findSome? fun d =>
    (G.byDegree.getD d []).head?.map fun i => (d, i)

/-- Turns `pivot` into an element and brings its front up to date. -/
def eliminate (G : Quotient) (pivot : Nat) : Quotient :=
  let weight := G.weightOf pivot
  let G := { G with eliminated := G.eliminated + weight }
  let (marked, front) := G.front pivot
  let frontWeight := G.totalWeight front
  let G := front.foldl delist G
  let G := (G.elementsOf pivot).foldl (fun G e => G.absorbElement pivot e) G
  let G := { G with frontSize := G.frontSize.setIfInBounds pivot (weight + frontWeight) }
  let outside := G.outsideWeights front
  let visited := front.foldl (visitVariable pivot marked outside)
    { graph := G
      frontWeight
      pivotWeight := weight
      byHash := Array.replicate G.order []
      hashOf := Array.replicate G.order 0 }
  let G := (front.foldl (mergeLike visited.hashOf) (visited.graph, visited.byHash)).1
  let left := front.filter fun i => 0 < G.weightOf i
  let G := left.foldl (restore visited.frontWeight) G
  { G with
    weight := G.weight.setIfInBounds pivot visited.pivotWeight
    degree := G.degree.setIfInBounds pivot visited.frontWeight
    elements := G.elements.setIfInBounds pivot []
    members := G.members.setIfInBounds pivot left
    absorbed := if left.isEmpty then G.absorbed.setIfInBounds pivot true else G.absorbed }

/-- Eliminates at most `steps` pivots of least degree. -/
def run : Nat → Quotient → Quotient
  | 0, G => G
  | steps + 1, G =>
    if G.eliminated < G.order then
      match G.nextPivot with
      | none => G
      | some (degree, pivot) => run steps (({ G with minDegree := degree }.delist pivot).eliminate pivot)
    else G

end Quotient
end AugLag.Elimination
