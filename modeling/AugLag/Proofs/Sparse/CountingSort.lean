import AugLag.Proofs.Sparse.Layout
import AugLag.Sparse.Transpose

/-!
# Counting sorts

Items are sorted by counting their keys, summing the counts up to first places, and putting every item into the
next free place of its key. In the end the places of a key hold the items with that key, in their old order.
-/

namespace AugLag

variable {β γ : Type}

/-! ## First places -/

theorem foldl_accumulate (counts : Array Nat) (m : Nat) (hm : m + 1 ≤ counts.size) :
    ((List.range m).foldl (fun ptr i => ptr.modify (i + 1) (· + ptr.getD i 0)) counts).size = counts.size ∧
      ∀ i < counts.size,
        ((List.range m).foldl (fun ptr i => ptr.modify (i + 1) (· + ptr.getD i 0)) counts).getD i 0 =
          if i ≤ m then ((List.range (i + 1)).map fun t => counts.getD t 0).sum else counts.getD i 0 := by
  induction m with
  | zero =>
      refine ⟨rfl, fun i hi => ?_⟩
      by_cases hle : i ≤ 0
      · rw [if_pos hle, Nat.le_zero.mp hle]
        simp
      · rw [if_neg hle]
        rfl
  | succ m ih =>
      obtain ⟨hsize, hget⟩ := ih (by omega)
      rw [List.range_succ, List.foldl_append, List.foldl_cons, List.foldl_nil]
      refine ⟨by rw [Array.size_modify, hsize], fun i hi => ?_⟩
      rw [getD_modify, hsize, hget i hi, hget m (by omega), if_pos le_rfl]
      rcases Nat.lt_trichotomy i (m + 1) with hlt | rfl | hgt
      · rw [if_neg fun h => absurd h.1 (by omega), if_pos (by omega), if_pos (by omega)]
      · rw [if_pos ⟨rfl, hi⟩, if_neg (by omega), if_pos le_rfl, @List.range_succ (m + 1), List.map_append,
          List.sum_append]
        simp [Nat.add_comm]
      · rw [if_neg fun h => absurd h.1 (by omega), if_neg (by omega), if_neg (by omega)]

theorem size_accumulate (counts : Array Nat) : (SparseMatrix.accumulate counts).size = counts.size := by
  unfold SparseMatrix.accumulate
  rcases Nat.eq_zero_or_pos counts.size with hzero | hpos
  · simp [hzero]
  · exact (foldl_accumulate counts (counts.size - 1) (by omega)).1

theorem getD_accumulate (counts : Array Nat) {i : Nat} (hi : i < counts.size) :
    (SparseMatrix.accumulate counts).getD i 0 = ((List.range (i + 1)).map fun t => counts.getD t 0).sum := by
  rw [SparseMatrix.accumulate, (foldl_accumulate counts (counts.size - 1) (by omega)).2 i hi, if_pos (by omega)]

/-- The first places of the keys up to `bound`, where the items of smaller keys come first. -/
def starts (key : β → Nat) (l : List β) (bound : Nat) : Array Nat :=
  SparseMatrix.accumulate
    (l.foldl (fun counts b => counts.modify (key b + 1) (· + 1)) (Array.replicate (bound + 1) 0))

variable (key : β → Nat) (l : List β) {bound : Nat}

@[simp] theorem size_starts (bound : Nat) : (starts key l bound).size = bound + 1 := by
  rw [starts, size_accumulate, size_foldl_modify l (fun b => key b + 1) fun _ => (· + 1), Array.size_replicate]

theorem countP_lt_succ (i : Nat) :
    l.countP (fun b => key b < i + 1) = l.countP (fun b => key b < i) + l.countP fun b => key b = i := by
  induction l with
  | nil => rfl
  | cons b l ih =>
      simp only [List.countP_cons, ih, decide_eq_true_eq]
      split_ifs <;> omega

theorem getD_starts {i : Nat} (hi : i ≤ bound) : (starts key l bound).getD i 0 = l.countP fun b => key b < i := by
  have hcount : ∀ t ≤ bound, (l.foldl (fun counts b => counts.modify (key b + 1) (· + 1))
      (Array.replicate (bound + 1) 0)).getD t 0 = l.countP fun b => key b + 1 = t := by
    intro t ht
    rw [getD_foldl_modify l (fun b => key b + 1) (fun _ => (· + 1)) _ (by simpa using Nat.lt_succ_of_le ht),
      getD_replicate, List.foldl_add_const, List.countP_eq_length_filter]
    simp
  have hsize := size_foldl_modify l (fun b => key b + 1) (fun _ => (· + 1)) (Array.replicate (bound + 1) 0)
  rw [Array.size_replicate] at hsize
  rw [starts, getD_accumulate _ (by rw [hsize]; omega)]
  induction i with
  | zero =>
      rw [List.range_one, List.map_singleton, List.sum_singleton, hcount 0 (Nat.zero_le _)]
      simp
  | succ i ih =>
      rw [List.range_succ, List.map_append, List.sum_append, ih (by omega), List.map_singleton, List.sum_singleton,
        hcount _ hi, countP_lt_succ]
      simp

theorem starts_mono {i j : Nat} (hij : i ≤ j) (hj : j ≤ bound) :
    (starts key l bound).getD i 0 ≤ (starts key l bound).getD j 0 := by
  rw [getD_starts key l (by omega), getD_starts key l hj]
  exact List.countP_mono_left fun b _ hb => by simp only [decide_eq_true_eq] at *; omega

/-! ## Places -/

/-- The places of the items, each being the next free place of its key. -/
def places (next : Array Nat) : List β → List Nat
  | [] => []
  | b :: l => next.getD (key b) 0 :: places (next.modify (key b) (· + 1)) l

@[simp] theorem length_places (next : Array Nat) : (places key next l).length = l.length := by
  induction l generalizing next with
  | nil => rfl
  | cons b l ih => rw [places, List.length_cons, ih, List.length_cons]

/-- The places of one key are consecutive. -/
theorem places_of_key {next : Array Nat} {c : Nat} (hc : c < next.size) :
    ((l.zip (places key next l)).filter fun e => key e.1 = c).map Prod.snd =
      List.range' (next.getD c 0) (l.countP fun b => key b = c) := by
  induction l generalizing next with
  | nil => rfl
  | cons b l ih =>
      have hih := @ih (next.modify (key b) (· + 1)) (by simpa using hc)
      rw [getD_modify] at hih
      rw [places, List.zip_cons_cons]
      by_cases hb : key b = c
      · rw [List.filter_cons_of_pos (by simpa using hb), List.map_cons, hih, if_pos ⟨hb, hc⟩,
          List.countP_cons_of_pos (by simpa using hb), List.range'_succ, hb]
      · rw [List.filter_cons_of_neg (by simpa using hb), hih, if_neg fun h => hb h.1,
          List.countP_cons_of_neg (by simpa using hb)]

theorem items_of_key (next : Array Nat) (c : Nat) :
    ((l.zip (places key next l)).filter fun e => key e.1 = c).map Prod.fst = l.filter fun b => key b = c := by
  have hfst : (l.zip (places key next l)).map Prod.fst = l := List.map_fst_zip (by simp)
  conv_rhs => rw [← hfst, List.filter_map]
  rfl

section Sorted

variable {key l}

theorem mem_places {next : Array Nat} (hkey : ∀ b ∈ l, key b < next.size) {b : β} {p : Nat}
    (h : (b, p) ∈ l.zip (places key next l)) :
    next.getD (key b) 0 ≤ p ∧ p < next.getD (key b) 0 + l.countP fun b' => key b' = key b := by
  have hb := hkey b (List.of_mem_zip h).1
  have hmem : p ∈ ((l.zip (places key next l)).filter fun e => key e.1 = key b).map Prod.snd :=
    List.mem_map.mpr ⟨(b, p), List.mem_filter.mpr ⟨h, by simp⟩, rfl⟩
  rw [places_of_key key l hb, List.mem_range'_1] at hmem
  exact hmem

/-- The places of the items are between the first places of their key and of the next one. -/
theorem mem_places_starts (hkey : ∀ b ∈ l, key b < bound) {b : β} {p : Nat}
    (h : (b, p) ∈ l.zip (places key (starts key l bound) l)) :
    (starts key l bound).getD (key b) 0 ≤ p ∧ p < (starts key l bound).getD (key b + 1) 0 := by
  have hb := hkey b (List.of_mem_zip h).1
  have hmem := mem_places (fun b' hb' => by rw [size_starts]; have := hkey b' hb'; omega) h
  rw [getD_starts key l (by omega)] at hmem
  rw [getD_starts key l (by omega), getD_starts key l (by omega), countP_lt_succ]
  exact hmem

theorem getD_starts_bound (hkey : ∀ b ∈ l, key b < bound) : (starts key l bound).getD bound 0 = l.length := by
  rw [getD_starts key l le_rfl]
  exact List.countP_eq_length.mpr fun b hb => by simpa using hkey b hb

/-- No place is used twice. -/
theorem places_inj (hkey : ∀ b ∈ l, key b < bound) {b b' : β} {p : Nat}
    (h : (b, p) ∈ l.zip (places key (starts key l bound) l))
    (h' : (b', p) ∈ l.zip (places key (starts key l bound) l)) : b = b' := by
  have hb := hkey b (List.of_mem_zip h).1
  have hb' := hkey b' (List.of_mem_zip h').1
  have hp := mem_places_starts hkey h
  have hp' := mem_places_starts hkey h'
  have hkeys : key b = key b' := by
    rcases Nat.lt_trichotomy (key b) (key b') with hlt | heq | hgt
    · have := @starts_mono _ key l bound (key b + 1) (key b') hlt (by omega)
      omega
    · exact heq
    · have := @starts_mono _ key l bound (key b' + 1) (key b) hgt (by omega)
      omega
  have hnodup : (((l.zip (places key (starts key l bound) l)).filter fun e => key e.1 = key b).map Prod.snd).Nodup := by
    rw [places_of_key key l (by rw [size_starts]; omega)]
    exact List.nodup_range'
  have heq := List.inj_on_of_nodup_map hnodup (List.mem_filter.mpr ⟨h, by simp⟩)
    (List.mem_filter.mpr ⟨h', by simpa using hkeys.symm⟩) rfl
  exact congrArg Prod.fst heq

/-! ## Scattering to the places -/

/-- What a place holds once every item has been put down. -/
theorem getD_scatter_places (hkey : ∀ b ∈ l, key b < bound) (f : β → γ) (d : γ) {out : Array γ}
    (hout : l.length ≤ out.size) {b : β} {p : Nat} (h : (b, p) ∈ l.zip (places key (starts key l bound) l)) :
    ((l.zip (places key (starts key l bound) l)).foldl (fun out e => out.setIfInBounds e.2 (f e.1)) out).getD p d =
      f b := by
  have hb := hkey b (List.of_mem_zip h).1
  have hp := (mem_places_starts hkey h).2
  have hlast := @starts_mono _ key l bound (key b + 1) bound (by omega) le_rfl
  rw [getD_starts_bound hkey] at hlast
  refine getD_foldl_set_of_mem _ Prod.snd (fun e => f e.1) out d (by omega) ⟨(b, p), h, rfl⟩ fun e he hep => ?_
  obtain ⟨b', p'⟩ := e
  obtain rfl : p' = p := hep
  rw [places_inj hkey he h]

/-- The places of a key hold its items in their old order. -/
theorem map_scatter_places (hkey : ∀ b ∈ l, key b < bound) (f : β → γ) (d : γ) {out : Array γ}
    (hout : l.length ≤ out.size) {c : Nat} (hc : c < bound) :
    (List.range' ((starts key l bound).getD c 0)
        ((starts key l bound).getD (c + 1) 0 - (starts key l bound).getD c 0)).map
      (fun p => ((l.zip (places key (starts key l bound) l)).foldl
        (fun out e => out.setIfInBounds e.2 (f e.1)) out).getD p d) =
      (l.filter fun b => key b = c).map f := by
  have hlen : (starts key l bound).getD (c + 1) 0 - (starts key l bound).getD c 0 = l.countP fun b => key b = c := by
    rw [getD_starts key l (by omega), getD_starts key l hc.le, countP_lt_succ]
    omega
  rw [hlen, ← places_of_key key l (by rw [size_starts]; omega), List.map_map, ← items_of_key key l, List.map_map]
  refine List.map_congr_left fun e he => ?_
  exact getD_scatter_places hkey f d hout (List.mem_filter.mp he).1

/-- While items are put down, the next free place of a key is one of as many places as there are items. -/
theorem next_lt_length (hkey : ∀ b ∈ l, key b < bound) {before : List β} {b : β} {after : List β}
    (hl : l = before ++ b :: after) :
    (before.foldl (fun next b => next.modify (key b) (· + 1)) (starts key l bound)).getD (key b) 0 < l.length := by
  have hb : key b < bound := hkey b (by rw [hl]; exact List.mem_append_right _ List.mem_cons_self)
  have hlast := @starts_mono _ key l bound (key b + 1) bound hb le_rfl
  rw [getD_starts_bound hkey, getD_starts key l hb, countP_lt_succ] at hlast
  rw [getD_foldl_modify before key (fun _ => (· + 1)) _ (by rw [size_starts]; omega), List.foldl_add_const,
    getD_starts key l hb.le, ← List.countP_eq_length_filter]
  have hcount : before.countP (fun b' => key b' = key b) < l.countP fun b' => key b' = key b := by
    rw [hl, List.countP_append, List.countP_cons_of_pos (by simp)]
    omega
  omega

end Sorted

/-- A loop that puts down items one after the other scatters them to their places. -/
theorem foldl_place (f : β → γ) (next : Array Nat) (out : Array γ) :
    (l.foldl (fun acc b => (acc.1.modify (key b) (· + 1), acc.2.setIfInBounds (acc.1.getD (key b) 0) (f b)))
      (next, out)).2 = (l.zip (places key next l)).foldl (fun out e => out.setIfInBounds e.2 (f e.1)) out := by
  induction l generalizing next out with
  | nil => rfl
  | cons b l ih =>
      rw [List.foldl_cons, ih, places, List.zip_cons_cons, List.foldl_cons]

/-! ## Entries by rows -/

namespace SparseMatrix

variable {T : Type} {M : SparseMatrix T}

theorem toList_rowIdx (M : SparseMatrix T) : M.rowIdx.toList = (List.range M.rowIdx.size).map M.rowAt := by
  refine List.ext_getElem (by simp) fun k h₁ h₂ => ?_
  have hk : k < M.rowIdx.size := by simpa using h₁
  simp [rowAt, Array.getD_eq_getD_getElem?, hk]

theorem rowPointers_eq (M : SparseMatrix T) : M.rowPointers = starts M.rowAt (List.range M.rowIdx.size) M.rows := by
  rw [rowPointers, starts, ← Array.foldl_toList, toList_rowIdx, List.foldl_map]

/-- The slots of a row are those that name it, in increasing order. -/
theorem WellFormed.row_rowIndex (h : WellFormed M) {r : Nat} (hr : r < M.rows) :
    M.rowIndex.row r = (List.range M.values.size).filter fun k => M.rowAt k = r := by
  have hkey : ∀ k ∈ List.range M.rowIdx.size, M.rowAt k < M.rows := by
    intro k hk
    rw [List.mem_range, h.size_rowIdx] at hk
    exact h.rowAt_lt k hk
  have hsort := @map_scatter_places _ _ _ _ _ hkey id 0 (Array.replicate M.nnz 0)
    (by rw [List.length_range, Array.size_replicate, h.nnz_eq, h.size_rowIdx]) _ hr
  rw [← foldl_place, List.map_id, h.size_rowIdx] at hsort
  rw [RowIndex.row, rowIndex, rowPointers_eq, h.size_rowIdx]
  exact hsort

theorem Layout.columnOf_slot (h : Layout M) {j k : Nat} (hj : j < M.cols) (hk : k ∈ M.slots j) :
    M.columnOfSlot.getD k 0 = j := by
  have hflat : M.columnOfSlot = ((List.range M.cols).flatMap fun j => (M.slots j).map fun k => (j, k)).foldl
      (fun out e => out.setIfInBounds e.2 e.1) (Array.replicate M.nnz 0) := by
    rw [List.foldl_flatMap]
    simp only [List.foldl_map]
    rfl
  rw [hflat]
  refine getD_foldl_set_of_mem _ Prod.snd Prod.fst _ 0 ?_ ⟨(j, k), ?_, rfl⟩ fun e he hek => ?_
  · rw [Array.size_replicate, h.nnz_eq]
    exact h.lt_size hj hk
  · exact List.mem_flatMap.mpr ⟨j, List.mem_range.mpr hj, List.mem_map.mpr ⟨k, hk, rfl⟩⟩
  · obtain ⟨j', hj', he'⟩ := List.mem_flatMap.mp he
    obtain ⟨k', hk', rfl⟩ := List.mem_map.mp he'
    obtain rfl : k' = k := hek
    exact h.column_unique (List.mem_range.mp hj') hj hk' hk

end SparseMatrix
end AugLag
