import AugLag.Elimination.Quotient

/-! The fill reducing order of a symmetric matrix: pivots of least approximate degree, then a postorder of the
tree of elements in which the largest child comes last. -/
namespace AugLag.Elimination

namespace Quotient

/-- The element to which a vertex belongs in the end. -/
def owner (G : Quotient) : Nat → Nat → Option Nat
  | 0, _ => none
  | fuel + 1, i => if 0 < G.weightOf i then some i else (G.parent.getD i none).bind (G.owner fuel)

/-- The elements that went into element `e`, in increasing order. -/
def children (G : Quotient) (e : Nat) : List Nat :=
  (List.range G.order).filter fun i => 0 < G.weightOf i && G.parent.getD i none == some e

/-- Moves the element with the largest front to the end, and the last of several such. -/
def largestLast (G : Quotient) (elements : List Nat) : List Nat :=
  let sizeOf (e : Nat) : Nat := G.frontSize.getD e 0
  let largest := elements.foldl (fun best e =>
    match best with
    | none => some e
    | some b => if sizeOf b ≤ sizeOf e then some e else some b) none
  match largest with
  | none => []
  | some b => elements.erase b ++ [b]

/-- The elements below `e` and `e` itself, children first. -/
def postorder (G : Quotient) : Nat → Nat → List Nat
  | 0, _ => []
  | fuel + 1, e => (G.largestLast (G.children e)).flatMap (G.postorder fuel) ++ [e]

/-- The elements of all trees, by increasing root. -/
def elementOrder (G : Quotient) : List Nat :=
  ((List.range G.order).filter fun i => 0 < G.weightOf i && (G.parent.getD i none).isNone).flatMap
    (G.postorder G.order)

/-- The order of the vertices: every element after the variables that went into it, and the dense vertices last. -/
def vertexOrder (G : Quotient) : List Nat :=
  let secondary := (List.range G.order).filter fun i => G.weightOf i = 0
  let owned := secondary.map fun i => (i, G.owner (G.order + 1) i)
  (G.elementOrder.flatMap fun e => (owned.filter fun p => p.2 == some e).map Prod.fst ++ [e]) ++
    (owned.filter fun p => p.2.isNone).map Prod.fst

end Quotient

/-- A vertex with more neighbours is put off to the end. A negative factor keeps all but full rows. -/
def denseLimit (n : Nat) (factor : Float) : Nat :=
  let limit := if factor < 0 then n - 2 else (factor * (Float.ofNat n).sqrt).toUInt64.toNat
  min n (max 16 limit)

/-- The factor of the limit on dense rows, before it is scaled. -/
def denseFactor : Float := 10.0

/-- The elimination order of the vertices of a graph. -/
def order (graph : Graph) (denseScale : Float) : List Nat :=
  let G := Quotient.ofGraph graph (denseLimit graph.size (denseFactor * denseScale))
  (G.run graph.size).vertexOrder

end AugLag.Elimination
