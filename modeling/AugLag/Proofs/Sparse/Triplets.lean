import AugLag.Proofs.Sparse.Build
import AugLag.Proofs.Sparse.CountingSort
import AugLag.Proofs.Sparse.Lookup
import Mathlib.Data.Prod.Lex

/-!
# Matrices from triplets

Triplets are sorted by their places, runs of one place are added up, and the columns are counted. What comes out is the
matrix that holds the sum from left to right of the values named at each place (`lookup_gatherColumn`), so that of the
order of the triplets only the order within each place matters. A machine takes the index behind its last word for zero,
and so does not refuse that word.
-/

namespace AugLag

/-- Elements that are not told apart by the order keep their places among each other when they are sorted. -/
theorem filter_mergeSort {α : Type} {le : α → α → Bool} (htrans : ∀ a b c, le a b = true → le b c = true → le a c = true)
    (htotal : ∀ a b, (le a b || le b a) = true) {p : α → Bool} (hp : ∀ a b, p a = true → p b = true → le a b = true)
    (l : List α) : (l.mergeSort le).filter p = l.filter p := by
  have hsorted : (l.filter p).Pairwise fun a b => le a b = true :=
    List.Pairwise.imp_of_mem (fun ha hb _ => hp _ _ (List.of_mem_filter ha) (List.of_mem_filter hb))
      (List.pairwise_of_forall fun _ _ => trivial : (l.filter p).Pairwise fun _ _ => True)
  have hsub := (List.sublist_mergeSort htrans htotal hsorted List.filter_sublist).filter p
  simp only [List.filter_filter, Bool.and_self] at hsub
  exact (hsub.eq_of_length ((List.mergeSort_perm l le).filter p).length_eq.symm).symm

namespace SparseMatrix

variable {T : Type}

/-! ## Places -/

/-- The values that triplets name in row `i` of column `j`, in the order of the triplets. -/
def valuesAt (triplets : List (Triplet T)) (i j : Nat) : List T :=
  (triplets.filter fun t => t.row = i ∧ t.col = j).map Triplet.value

theorem valuesAt_concat (triplets : List (Triplet T)) (t : Triplet T) (i j : Nat) :
    valuesAt (triplets ++ [t]) i j = valuesAt triplets i j ++ if t.row = i ∧ t.col = j then [t.value] else [] := by
  rw [valuesAt, List.filter_append, List.map_append, valuesAt]
  by_cases h : t.row = i ∧ t.col = j <;> simp [h]

theorem valuesAt_ne_nil_iff {triplets : List (Triplet T)} {i j : Nat} :
    valuesAt triplets i j ≠ [] ↔ ∃ t ∈ triplets, t.row = i ∧ t.col = j := by
  simp [valuesAt, List.filter_eq_nil_iff]

namespace Triplet

/-- Where a triplet is, columns first. -/
def place (t : Triplet T) : ℕ ×ₗ ℕ := toLex (t.col, t.row)

variable {s t : Triplet T}

theorem place_eq_iff : s.place = t.place ↔ s.col = t.col ∧ s.row = t.row := by
  rw [place, place, toLex_inj, Prod.mk.injEq]

theorem eq_of_place (h : s.place = t.place) (hvalue : s.value = t.value) : s = t := by
  obtain ⟨hcol, hrow⟩ := place_eq_iff.mp h
  obtain ⟨r, c, v⟩ := s
  subst hcol hrow hvalue
  rfl

theorem upTo_iff : s.upTo t = true ↔ s.place ≤ t.place := by
  simp [upTo, place, Prod.Lex.toLex_le_toLex]

theorem upTo_trans (r s t : Triplet T) : r.upTo s = true → s.upTo t = true → r.upTo t = true := by
  simp only [upTo_iff]
  exact le_trans

theorem upTo_total (s t : Triplet T) : (s.upTo t || t.upTo s) = true := by
  rw [Bool.or_eq_true, upTo_iff, upTo_iff]
  exact le_total _ _

theorem col_le_of_place (h : s.place ≤ t.place) : s.col ≤ t.col := by
  rcases Prod.Lex.toLex_le_toLex.mp h with hlt | ⟨heq, -⟩
  · exact hlt.le
  · exact heq.le

theorem row_lt_of_place (h : s.place < t.place) (hcol : s.col = t.col) : s.row < t.row := by
  rcases Prod.Lex.toLex_lt_toLex.mp h with hlt | ⟨-, hrow⟩
  · exact absurd hcol hlt.ne
  · exact hrow

end Triplet

theorem sorted_mergeSort (triplets : List (Triplet T)) :
    (triplets.mergeSort Triplet.upTo).Pairwise fun s t => s.place ≤ t.place :=
  (List.pairwise_mergeSort Triplet.upTo_trans Triplet.upTo_total triplets).imp Triplet.upTo_iff.mp

theorem valuesAt_mergeSort (triplets : List (Triplet T)) (i j : Nat) :
    valuesAt (triplets.mergeSort Triplet.upTo) i j = valuesAt triplets i j := by
  refine congrArg (List.map Triplet.value)
    (filter_mergeSort Triplet.upTo_trans Triplet.upTo_total (fun s t hs ht => ?_) triplets)
  rw [decide_eq_true_eq] at hs ht
  exact Triplet.upTo_iff.mpr (Triplet.place_eq_iff.mpr ⟨hs.2.trans ht.2.symm, hs.1.trans ht.1.symm⟩).le

variable [Scalar T]

/-! ## Sums from left to right -/

/-- The sum of values from left to right, if there are any. -/
def leftSum : List T → Option T
  | [] => none
  | v :: rest => some (rest.foldl (· + ·) v)

theorem leftSum_concat (l : List T) (v : T) : leftSum (l ++ [v]) = some ((leftSum l).elim v (· + v)) := by
  cases l with
  | nil => rfl
  | cons a l => rw [List.cons_append, leftSum, leftSum, List.foldl_append]; rfl

theorem exists_leftSum_iff {l : List T} : (∃ v, leftSum l = some v) ↔ l ≠ [] := by
  cases l with
  | nil => exact iff_of_false (fun ⟨_, h⟩ => Option.some_ne_none _ h.symm) (fun h => h rfl)
  | cons a l => exact iff_of_true ⟨_, rfl⟩ (List.cons_ne_nil a l)

/-! ## Runs of one place -/

/-- Each place named so far holds its sum, and the last one is the head. -/
structure Placed (done placed : List (Triplet T)) : Prop where
  descend : placed.Pairwise fun s t => t.place < s.place
  mem_iff : ∀ t, t ∈ placed ↔ leftSum (valuesAt done t.row t.col) = some t.value

theorem placed_nil : Placed ([] : List (Triplet T)) [] where
  descend := .nil
  mem_iff _ := iff_of_false List.not_mem_nil (Option.some_ne_none _).symm

namespace Placed

variable {done placed : List (Triplet T)} {s t : Triplet T}

theorem exists_place (h : Placed done placed) (ht : t ∈ placed) : ∃ s ∈ done, s.place = t.place := by
  have hne : valuesAt done t.row t.col ≠ [] := by
    intro hnil
    have hsum := (h.mem_iff t).mp ht
    rw [hnil] at hsum
    cases hsum
  obtain ⟨s, hs, hrow, hcol⟩ := valuesAt_ne_nil_iff.mp hne
  exact ⟨s, hs, Triplet.place_eq_iff.mpr ⟨hcol, hrow⟩⟩

omit [Scalar T] in
/-- A further triplet changes the sum at its own place only. -/
theorem sum_concat_of_ne (done : List (Triplet T)) (h : s.place ≠ t.place) :
    valuesAt (done ++ [t]) s.row s.col = valuesAt done s.row s.col := by
  rw [valuesAt_concat, if_neg fun heq => h (Triplet.place_eq_iff.mpr ⟨heq.2.symm, heq.1.symm⟩), List.append_nil]

theorem sum_concat_of_eq (done : List (Triplet T)) (h : s.place = t.place) :
    leftSum (valuesAt (done ++ [t]) s.row s.col) =
      some ((leftSum (valuesAt done t.row t.col)).elim t.value (· + t.value)) := by
  obtain ⟨hcol, hrow⟩ := Triplet.place_eq_iff.mp h
  rw [hcol, hrow, valuesAt_concat, if_pos ⟨rfl, rfl⟩, leftSum_concat]

/-- A triplet behind all others is an entry of its own. -/
theorem push (h : Placed done placed) (hlt : ∀ s ∈ placed, s.place < t.place) : Placed (done ++ [t]) (t :: placed) where
  descend := List.pairwise_cons.mpr ⟨hlt, h.descend⟩
  mem_iff s := by
    rw [List.mem_cons]
    by_cases hst : s.place = t.place
    · have hnone : leftSum (valuesAt done t.row t.col) = none := by
        refine Option.eq_none_iff_forall_ne_some.mpr fun v hv => ?_
        exact absurd (hlt ⟨t.row, t.col, v⟩ ((h.mem_iff ⟨t.row, t.col, v⟩).mpr hv)) (lt_irrefl t.place)
      have hmem : s ∉ placed := fun hs => absurd hst (hlt s hs).ne
      rw [sum_concat_of_eq done hst, hnone, Option.elim_none, Option.some_inj, or_iff_left hmem]
      exact ⟨fun heq => heq ▸ rfl, fun hvalue => Triplet.eq_of_place hst hvalue.symm⟩
    · rw [sum_concat_of_ne done hst, ← h.mem_iff, or_iff_right]
      rintro rfl
      exact hst rfl

/-- A triplet at the place of the last entry is added to it. -/
theorem add {last : Triplet T} (h : Placed done (last :: placed)) (hplace : last.place = t.place) :
    Placed (done ++ [t]) ({ last with value := last.value + t.value } :: placed) where
  descend := List.pairwise_cons.mpr (List.pairwise_cons.mp h.descend)
  mem_iff s := by
    have hlt := (List.pairwise_cons.mp h.descend).1
    have hlast := (h.mem_iff last).mp List.mem_cons_self
    rw [List.mem_cons]
    by_cases hst : s.place = t.place
    · have hmem : s ∉ placed := fun hs => absurd (hst.trans hplace.symm) (hlt s hs).ne
      obtain ⟨hcol, hrow⟩ := Triplet.place_eq_iff.mp hplace
      rw [hcol, hrow] at hlast
      rw [sum_concat_of_eq done hst, hlast, Option.elim_some, Option.some_inj, or_iff_left hmem]
      exact ⟨fun heq => heq ▸ rfl, fun hvalue => Triplet.eq_of_place (hst.trans hplace.symm) hvalue.symm⟩
    · rw [sum_concat_of_ne done hst, ← h.mem_iff, List.mem_cons]
      refine or_congr_left' fun _ => ⟨?_, ?_⟩
      · rintro rfl
        exact absurd hplace hst
      · rintro rfl
        exact absurd hplace hst

/-- What one step of the loop preserves, as long as the triplets come in order. -/
theorem putDown (h : Placed done placed) (hle : ∀ s ∈ done, s.place ≤ t.place) :
    Placed (done ++ [t]) (SparseMatrix.putDown placed t) := by
  cases placed with
  | nil => exact h.push fun s hs => absurd hs List.not_mem_nil
  | cons last placed =>
      rw [SparseMatrix.putDown]
      by_cases hplace : last.col = t.col ∧ last.row = t.row
      · rw [if_pos hplace]
        exact h.add (Triplet.place_eq_iff.mpr hplace)
      · rw [if_neg hplace]
        obtain ⟨d, hd, hlast⟩ := h.exists_place List.mem_cons_self
        have hlt : last.place < t.place :=
          lt_of_le_of_ne (hlast ▸ hle d hd) fun heq => hplace (Triplet.place_eq_iff.mp heq)
        refine h.push fun s hs => ?_
        rcases List.mem_cons.mp hs with rfl | hs
        · exact hlt
        · exact ((List.pairwise_cons.mp h.descend).1 s hs).trans hlt

end Placed

theorem placed_foldl {sorted : List (Triplet T)} (h : sorted.Pairwise fun s t => s.place ≤ t.place) :
    Placed sorted (sorted.foldl putDown []) := by
  induction sorted using List.reverseRecOn with
  | nil => exact placed_nil
  | append_singleton done t ih =>
      rw [List.pairwise_append] at h
      rw [List.foldl_append]
      exact (ih h.1).putDown fun s hs => h.2.2 s hs t (List.mem_singleton_self t)

theorem ascend_mergePlaces (triplets : List (Triplet T)) :
    (mergePlaces triplets).Pairwise fun s t => s.place < t.place :=
  List.pairwise_reverse.mpr (placed_foldl (sorted_mergeSort triplets)).descend

/-- The entries are the sums at the places that are named. -/
theorem mem_mergePlaces {triplets : List (Triplet T)} {t : Triplet T} :
    t ∈ mergePlaces triplets ↔ leftSum (valuesAt triplets t.row t.col) = some t.value := by
  rw [mergePlaces, List.mem_reverse, (placed_foldl (sorted_mergeSort triplets)).mem_iff, valuesAt_mergeSort]

theorem exists_place_of_mem {triplets : List (Triplet T)} {t : Triplet T} (ht : t ∈ mergePlaces triplets) :
    ∃ s ∈ triplets, s.row = t.row ∧ s.col = t.col := by
  refine valuesAt_ne_nil_iff.mp fun hnil => ?_
  have hsum := mem_mergePlaces.mp ht
  rw [hnil] at hsum
  cases hsum

/-! ## Columns -/

section Columns

omit [Scalar T]

theorem filter_col_lt_append {entries : List (Triplet T)} (h : entries.Pairwise fun s t => s.col ≤ t.col) (c : Nat) :
    (entries.filter fun t => t.col < c) ++ (entries.filter fun t => t.col = c) =
      entries.filter fun t => t.col < c + 1 := by
  induction entries with
  | nil => rfl
  | cons t entries ih =>
      obtain ⟨hle, htail⟩ := List.pairwise_cons.mp h
      rcases Nat.lt_trichotomy t.col c with hlt | heq | hgt
      · rw [List.filter_cons_of_pos (by simpa using hlt), List.filter_cons_of_neg (by simpa using hlt.ne),
          List.filter_cons_of_pos (by simpa using hlt.trans (Nat.lt_succ_self c)), List.cons_append, ih htail]
      · -- no column before `c` is left
        have hnone : (entries.filter fun t => t.col < c) = [] :=
          List.filter_eq_nil_iff.mpr fun s hs => by simpa using heq ▸ hle s hs
        have hrest := ih htail
        rw [hnone, List.nil_append] at hrest
        rw [List.filter_cons_of_neg (by simpa using heq.ge), List.filter_cons_of_pos (by simpa using heq),
          List.filter_cons_of_pos (by simp [heq]), hnone, hrest, List.nil_append]
      · rw [List.filter_cons_of_neg (by simpa using hgt.le), List.filter_cons_of_neg (by simpa using hgt.ne'),
          List.filter_cons_of_neg (by simpa using hgt), ih htail]

/-- Entries in the order of their columns are those of one column after the other. -/
theorem flatMap_filter_col {entries : List (Triplet T)} (h : entries.Pairwise fun s t => s.col ≤ t.col) (c : Nat) :
    ((List.range c).flatMap fun j => entries.filter fun t => t.col = j) = entries.filter fun t => t.col < c := by
  induction c with
  | zero => simp
  | succ c ih => rw [List.range_succ, List.flatMap_append, ih, List.flatMap_singleton, filter_col_lt_append h]

end Columns

/-- The entries of column `j`. -/
def mergedColumn (triplets : List (Triplet T)) (j : Nat) : List (Nat × T) :=
  ((mergePlaces triplets).filter fun t => t.col = j).map fun t => (t.row, t.value)

theorem ascend_mergedColumn (triplets : List (Triplet T)) (j : Nat) :
    ((mergedColumn triplets j).map Prod.fst).Pairwise (· < ·) := by
  rw [mergedColumn, List.map_map, List.pairwise_map]
  refine List.Pairwise.imp_of_mem (fun hs ht hlt => ?_) ((ascend_mergePlaces triplets).filter _)
  rw [List.mem_filter, decide_eq_true_eq] at hs ht
  exact Triplet.row_lt_of_place hlt (hs.2.trans ht.2.symm)

theorem lookup_mergedColumn (triplets : List (Triplet T)) (i j : Nat) :
    (mergedColumn triplets j).lookup i = leftSum (valuesAt triplets i j) := by
  refine Option.ext fun v => ?_
  rw [lookup_eq_some_iff_mem ((ascend_mergedColumn triplets j).imp fun hlt => hlt.ne), mergedColumn, List.mem_map]
  constructor
  · rintro ⟨t, ht, heq⟩
    obtain ⟨rfl, rfl⟩ := Prod.mk.inj heq
    obtain ⟨hmem, hcol⟩ := List.mem_filter.mp ht
    rw [← of_decide_eq_true hcol]
    exact mem_mergePlaces.mp hmem
  · intro hsum
    refine ⟨⟨i, j, v⟩, List.mem_filter.mpr ⟨mem_mergePlaces.mpr hsum, ?_⟩, rfl⟩
    exact decide_eq_true rfl

/-- Combining the neighbours of a sorted column adds up the values of each row from left to right. -/
theorem lookup_combineRows {entries : List (Nat × T)} (h : (entries.map Prod.fst).Pairwise (· ≤ ·)) (i : Nat) :
    (combineRows entries).lookup i = leftSum ((entries.filter fun e => e.1 = i).map Prod.snd) := by
  fun_induction combineRows entries with
  | case1 a k b rest ih =>
      simp only [List.map_cons, List.pairwise_cons] at h
      rw [ih (by simpa only [List.map_cons, List.pairwise_cons] using h.2)]
      by_cases hk : k = i
      · simp [hk, leftSum]
      · simp [hk]
  | case2 k a l b rest hne ih =>
      rw [List.map_cons, List.pairwise_cons] at h
      by_cases hk : k = i
      · -- the other rows are behind this one
        subst hk
        have hnone : (((l, b) :: rest).filter fun e => e.1 = k) = [] := by
          refine List.filter_eq_nil_iff.mpr fun e he => ?_
          have hkl := h.1 l (by simp)
          have hle : l ≤ e.1 := by
            rcases List.mem_cons.mp he with rfl | he
            · exact le_rfl
            · exact (List.pairwise_cons.mp h.2).1 e.1 (List.mem_map_of_mem he)
          simp only [decide_eq_true_eq]
          omega
        rw [List.lookup_cons_self, List.filter_cons_of_pos (by simp), hnone]
        rfl
      · have hdrop := List.filter_cons_of_neg (p := fun e : Nat × T => e.1 = i) (a := (k, a)) (l := (l, b) :: rest)
          (by simpa using hk)
        rw [lookup_cons_of_ne (Ne.symm hk), ih h.2, hdrop]
  | case3 short hshort =>
      match short, hshort with
      | [], _ => rfl
      | [(k, a)], _ =>
          by_cases hk : k = i
          · subst hk
            simp [leftSum]
          · rw [lookup_cons_of_ne (Ne.symm hk), List.filter_cons_of_neg (by simpa using hk)]
            rfl
      | (k, a) :: (l, b) :: rest, hshort => exact absurd rfl (hshort k a l b rest)

theorem lookup_gatherColumn (triplets : List (Triplet T)) (i j : Nat) :
    (gatherColumn triplets j).lookup i = leftSum (valuesAt triplets i j) := by
  rw [gatherColumn, lookup_combineRows (sorted_rows _), filter_mergeSort fstUpTo_trans fstUpTo_total
    fun a b ha hb => decide_eq_true ((of_decide_eq_true ha).trans (of_decide_eq_true hb).symm).le,
    List.filter_map, List.filter_filter, List.map_map]
  refine congrArg (fun l : List (Triplet T) => leftSum (l.map Triplet.value)) (List.filter_congr fun t _ => ?_)
  rw [Bool.decide_and]
  rfl

/-- Merging all triplets at once and gathering them column by column is the same. -/
theorem gatherColumn_eq (triplets : List (Triplet T)) (j : Nat) : gatherColumn triplets j = mergedColumn triplets j :=
  eq_of_lookup_eq (ascend_gatherColumn triplets j) (ascend_mergedColumn triplets j) fun i => by
    rw [lookup_gatherColumn, lookup_mergedColumn]

end SparseMatrix
end AugLag
