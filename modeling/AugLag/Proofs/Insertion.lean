import AugLag.Insertion
import Mathlib.Data.List.Pairwise

/-!
# Sorting by insertion

A sorted list has the same elements, and none of them has to precede one that comes before it.
-/

namespace AugLag

variable {α : Type} {before : α → α → Bool}

theorem perm_insertBackwards (before : α → α → Bool) (a : α) (l : List α) : (insertBackwards before a l).Perm (a :: l) := by
  induction l with
  | nil => exact List.Perm.refl _
  | cons b l ih =>
      rw [insertBackwards]
      split
      · exact (ih.cons b).trans (List.Perm.swap a b l)
      · exact List.Perm.refl _

theorem perm_insertionSort (before : α → α → Bool) (l : List α) : (insertionSort before l).Perm l := by
  have hfold : ∀ sorted : List α, (l.foldl (fun sorted a => insertBackwards before a sorted) sorted).Perm (l ++ sorted) := by
    induction l with
    | nil => exact fun _ => List.Perm.refl _
    | cons a l ih =>
        intro sorted
        rw [List.foldl_cons]
        refine (ih _).trans ?_
        exact ((perm_insertBackwards before a sorted).append_left l).trans List.perm_middle
  have hsort := hfold []
  rw [List.append_nil] at hsort
  exact (List.reverse_perm _).trans hsort

theorem pairwise_insertBackwards (hasymm : ∀ a b, before a b = true → before b a = false)
    (htrans : ∀ a b c, before a b = false → before b c = false → before a c = false) (a : α) {l : List α}
    (h : l.Pairwise fun x y => before x y = false) :
    (insertBackwards before a l).Pairwise fun x y => before x y = false := by
  induction l with
  | nil => exact List.pairwise_singleton _ a
  | cons b l ih =>
      have hcons := List.pairwise_cons.mp h
      rw [insertBackwards]
      by_cases hab : before a b = true
      · rw [if_pos hab, List.pairwise_cons]
        refine ⟨fun x hx => ?_, ih hcons.2⟩
        rcases List.mem_cons.mp ((perm_insertBackwards before a l).mem_iff.mp hx) with rfl | hx
        · exact hasymm x b hab
        · exact hcons.1 x hx
      · rw [if_neg hab, List.pairwise_cons]
        rw [Bool.not_eq_true] at hab
        refine ⟨fun x hx => ?_, h⟩
        rcases List.mem_cons.mp hx with rfl | hx
        · exact hab
        · exact htrans a b x hab (hcons.1 x hx)

theorem pairwise_insertionSort (hasymm : ∀ a b, before a b = true → before b a = false)
    (htrans : ∀ a b c, before a b = false → before b c = false → before a c = false) (l : List α) :
    (insertionSort before l).Pairwise fun x y => before y x = false := by
  rw [insertionSort, List.pairwise_reverse]
  have hfold : ∀ sorted : List α, sorted.Pairwise (fun x y => before x y = false) →
      (l.foldl (fun sorted a => insertBackwards before a sorted) sorted).Pairwise fun x y => before x y = false := by
    induction l with
    | nil => exact fun _ h => h
    | cons a l ih =>
        intro sorted h
        exact ih _ (pairwise_insertBackwards hasymm htrans a h)
  exact hfold [] List.Pairwise.nil

end AugLag
