import AugLag.Elimination.Vertices

/-! Rules of elimination. A factorization asks nothing of its rule but that it lists vertices of the graph. -/
namespace AugLag.Elimination

/-- A rule for the order in which the vertices of a graph are eliminated. -/
class Rule where
  /-- The order for a graph. The number scales the limit beyond which a row counts as dense. -/
  order : Graph → Float → List Nat
  /-- Nothing but vertices of the graph is listed. -/
  order_lt : ∀ graph denseScale, ∀ v ∈ order graph denseScale, v < graph.size

/-- Pivots of least approximate degree. -/
instance leastDegree : Rule where
  order := order
  order_lt := order_lt

end AugLag.Elimination
