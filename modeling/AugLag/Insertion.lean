/-! Stable sorting by insertion. Each element is moved forward from the end past the elements it has to precede. -/
namespace AugLag

variable {α : Type}

/-- Inserts into a list that is sorted from its end to its start. -/
def insertBackwards (before : α → α → Bool) (a : α) : List α → List α
  | [] => [a]
  | b :: rest => if before a b then b :: insertBackwards before a rest else a :: b :: rest

/-- The elements in sorted order. Elements of which none has to precede the other keep their order. -/
def insertionSort (before : α → α → Bool) (elements : List α) : List α :=
  (elements.foldl (fun sorted a => insertBackwards before a sorted) []).reverse

end AugLag
