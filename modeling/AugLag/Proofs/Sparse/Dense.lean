import AugLag.Proofs.Machine.Zeros
import AugLag.Proofs.Sparse.Assemble

/-!
# Matrices from dense data

The columns of a dense matrix one after the other, its rows as lists, and its nonzero entries as triplets in any order are
three ways to give the same data. All of them make the same matrix (`ofDense?_agrees`), in which no zero of either sign is
stored.
-/

namespace AugLag.SparseMatrix

variable {T : Type} {m n : Nat}

/-- The columns of a dense matrix one after the other. -/
def columnMajor (D : Matrix (Fin m) (Fin n) T) : Array T := Array.ofFn fun k : Fin (n * m) => D k.modNat k.divNat

/-- The rows of a dense matrix. -/
def rowMajor (D : Matrix (Fin m) (Fin n) T) : List (List T) := List.ofFn fun i => List.ofFn (D i)

theorem size_columnMajor (D : Matrix (Fin m) (Fin n) T) : (columnMajor D).size = m * n := by
  rw [columnMajor, Array.size_ofFn, Nat.mul_comm]

theorem extract_columnMajor (D : Matrix (Fin m) (Fin n) T) (j : Fin n) :
    ((columnMajor D).extract (j * m) ((j + 1) * m)).toList = List.ofFn fun i => D i j := by
  have hroom : (j + 1) * m ≤ n * m := Nat.mul_le_mul_right m j.isLt
  refine List.ext_getElem ?_ fun i hi hi' => ?_
  · rw [Array.length_toList, Array.size_extract, size_columnMajor, Nat.mul_comm m, min_eq_left hroom, Nat.succ_mul,
      Nat.add_sub_cancel_left, List.length_ofFn]
  · rw [List.length_ofFn] at hi'
    have hpos : 0 < m := Nat.zero_lt_of_lt hi'
    rw [Array.getElem_toList, Array.getElem_extract, List.getElem_ofFn]
    simp only [columnMajor, Array.getElem_ofFn]
    refine congrArg₂ D (Fin.ext ?_) (Fin.ext ?_)
    · simp [Fin.modNat, Nat.mod_eq_of_lt hi']
    · simp [Fin.divNat, Nat.add_comm _ i, Nat.add_mul_div_right _ _ hpos, Nat.div_eq_of_lt hi']

/-! ## Numbered lists -/

theorem mem_range_zip {α : Type} {l : List α} {i : Nat} {a : α} :
    (i, a) ∈ (List.range l.length).zip l ↔ l[i]? = some a := by
  rw [List.mem_iff_getElem?]
  simp only [List.getElem?_zip_eq_some]
  constructor
  · rintro ⟨k, hk, hl⟩
    obtain ⟨-, rfl⟩ := List.getElem?_eq_some_iff.mp hk
    simpa using hl
  · intro h
    have hi : i < l.length := (List.getElem?_eq_some_iff.mp h).1
    exact ⟨i, by simp [hi], h⟩

theorem getElem?_ofFn_eq_some {α : Type} {f : Fin m → α} {k : Nat} {a : α} :
    (List.ofFn f)[k]? = some a ↔ ∃ i : Fin m, i = k ∧ f i = a := by
  rw [List.getElem?_eq_some_iff]
  constructor
  · rintro ⟨hk, rfl⟩
    exact ⟨⟨k, by simpa using hk⟩, rfl, by simp⟩
  · rintro ⟨i, rfl, rfl⟩
    exact ⟨by simp, by simp⟩

variable [Scalar T]

theorem mem_nonzeros {column : List T} {i : Nat} {v : T} :
    (i, v) ∈ nonzeros column ↔ column[i]? = some v ∧ ¬Vanishes v := by
  rw [nonzeros, List.mem_filter, mem_range_zip, Bool.not_eq_true', Vanishes, Bool.not_eq_true]

/-! ## Nonzero entries -/

/-- The triplets are the entries of a dense matrix that differ from zero, each of them once. -/
structure Lists (D : Matrix (Fin m) (Fin n) T) (triplets : List (Triplet T)) : Prop where
  nodup : triplets.Nodup
  mem_iff : ∀ t, t ∈ triplets ↔ ∃ (i : Fin m) (j : Fin n), t = ⟨i, j, D i j⟩ ∧ ¬Vanishes (D i j)

namespace Lists

variable {D : Matrix (Fin m) (Fin n) T} {triplets : List (Triplet T)}

theorem lt (h : Lists D triplets) : ∀ t ∈ triplets, t.row < m ∧ t.col < n := by
  intro t ht
  obtain ⟨i, j, rfl, -⟩ := (h.mem_iff t).mp ht
  exact ⟨i.isLt, j.isLt⟩

/-- What the triplets name at a place is the entry there, unless it vanishes. -/
theorem valuesAt_eq (h : Lists D triplets) (i : Fin m) (j : Fin n) :
    valuesAt triplets i j = if Vanishes (D i j) then [] else [D i j] := by
  have hentry {t : Triplet T} (ht : t ∈ triplets) (hplace : t.row = i ∧ t.col = j) :
      t = ⟨i, j, D i j⟩ ∧ ¬Vanishes (D i j) := by
    obtain ⟨i', j', rfl, hv⟩ := (h.mem_iff t).mp ht
    obtain ⟨hi, hj⟩ := hplace
    obtain rfl := Fin.ext hi
    obtain rfl := Fin.ext hj
    exact ⟨rfl, hv⟩
  split_ifs with hv
  · by_contra hne
    obtain ⟨t, ht, hplace⟩ := valuesAt_ne_nil_iff.mp hne
    exact (hentry ht hplace).2 hv
  · have hperm : (triplets.filter fun t => t.row = (i : Nat) ∧ t.col = (j : Nat)).Perm [⟨i, j, D i j⟩] := by
      refine (List.perm_ext_iff_of_nodup (h.nodup.filter _) (List.nodup_singleton _)).mpr fun t => ?_
      rw [List.mem_filter, decide_eq_true_eq, List.mem_singleton]
      refine ⟨fun ht => (hentry ht.1 ht.2).1, ?_⟩
      rintro rfl
      exact ⟨(h.mem_iff _).mpr ⟨i, j, rfl, hv⟩, rfl, rfl⟩
    rw [valuesAt, List.perm_singleton.mp hperm, List.map_singleton]

theorem lookup_sumTriplets (h : Lists D triplets) (i : Fin m) (j : Fin n) :
    ((sumTriplets m n triplets).column j).lookup (i : Nat) = if Vanishes (D i j) then none else some (D i j) := by
  rw [SparseMatrix.lookup_sumTriplets m i j.isLt, h.valuesAt_eq]
  split_ifs <;> rfl

end Lists

/-! ## The three constructions -/

theorem lookup_ofDense (D : Matrix (Fin m) (Fin n) T) (i : Fin m) (j : Fin n) :
    ((ofDense m n (columnMajor D)).column j).lookup (i : Nat) = if Vanishes (D i j) then none else some (D i j) := by
  have hcolumn : (ofDense m n (columnMajor D)).column j = nonzeros (List.ofFn fun i => D i j) := by
    rw [ofDense, column_ofColumns (by simp), List.getElem_map, List.getElem_range, extract_columnMajor]
  refine Option.ext fun v => ?_
  rw [hcolumn, lookup_eq_some_iff_mem ((ascend_nonzeros _).1.imp fun hlt => hlt.ne), mem_nonzeros,
    getElem?_ofFn_eq_some, Option.ite_none_left_eq_some, Option.some_inj]
  constructor
  · rintro ⟨⟨i', hi, rfl⟩, hv⟩
    obtain rfl := Fin.ext hi
    exact ⟨hv, rfl⟩
  · rintro ⟨hv, rfl⟩
    exact ⟨⟨i, rfl, rfl⟩, hv⟩

/-- The entries of the rows are listed row by row. -/
theorem lists_rowMajor (D : Matrix (Fin m) (Fin n) T) :
    Lists D (Triplet.ofRows (rowMajor D)) where
  nodup := by
    refine List.nodup_flatMap.mpr ⟨fun r _ => ?_, ?_⟩
    · refine .of_map Triplet.col ?_
      rw [List.map_map]
      exact (ascend_nonzeros r.2).1.imp fun hlt => hlt.ne
    · have hrows := map_fst_range_zip (rowMajor D) ▸ List.nodup_range
      refine (List.pairwise_map.mp hrows).imp fun hne t ht ht' => ?_
      obtain ⟨e, -, rfl⟩ := List.mem_map.mp ht
      obtain ⟨e', -, heq⟩ := List.mem_map.mp ht'
      exact hne (congrArg Triplet.row heq).symm
  mem_iff t := by
    simp only [Triplet.ofRows, List.mem_flatMap, List.mem_map, Prod.exists, mem_range_zip, mem_nonzeros]
    constructor
    · rintro ⟨i, row, hrow, j, v, ⟨hv, hne⟩, rfl⟩
      obtain ⟨i, rfl, rfl⟩ := getElem?_ofFn_eq_some.mp hrow
      obtain ⟨j, rfl, rfl⟩ := getElem?_ofFn_eq_some.mp hv
      exact ⟨i, j, rfl, hne⟩
    · rintro ⟨i, j, rfl, hne⟩
      exact ⟨i, _, getElem?_ofFn_eq_some.mpr ⟨i, rfl, rfl⟩, j, _, ⟨getElem?_ofFn_eq_some.mpr ⟨j, rfl, rfl⟩, hne⟩, rfl⟩

/-- The nonzero entries in any order make the same matrix as the columns. -/
theorem Lists.sumTriplets_eq {D : Matrix (Fin m) (Fin n) T} {triplets : List (Triplet T)} (h : Lists D triplets) :
    sumTriplets m n triplets = ofDense m n (columnMajor D) := by
  refine (wellFormed_sumTriplets fun t ht => (h.lt t ht).1).ext_lookup (wellFormed_ofDense (size_columnMajor D))
    (Prod.ext rfl ((cols_sumTriplets m n _).trans (cols_ofDense m n _).symm)) fun j hj i hi => ?_
  rw [cols_ofDense] at hj
  exact (h.lookup_sumTriplets ⟨i, hi⟩ ⟨j, hj⟩).trans (lookup_ofDense D ⟨i, hi⟩ ⟨j, hj⟩).symm

/-- The columns, the rows and the nonzero entries of a dense matrix, these in any order, make one matrix. It passes every
check of the format and stores the entries that differ from zero. Of the machine numbers only the two zeros do not. -/
theorem ofDense?_agrees (hm : m < UInt64.size) (hn : n < UInt64.size) (D : Matrix (Fin m) (Fin n) T)
    {rowIdx colIdx : Array Nat} {values : Array T} (hcols : colIdx.size = rowIdx.size)
    (hvalues : values.size = rowIdx.size) (h : Lists D (Triplet.ofArrays rowIdx colIdx values)) :
    (∃ M, ofDense? m n (columnMajor D) = some M ∧ ofRows? n (rowMajor D) = some M ∧
      ofTriplets? m n rowIdx colIdx values = some (.ok M) ∧ M.size = (m, n) ∧
      M.check = (if M.values.all Scalar.isFinite then .ok () else .error .nonFiniteValue) ∧
      ∀ (i : Fin m) (j : Fin n), M.get? i j = some (if Vanishes (D i j) then none else some (D i j))) ∧
      (∀ a : Float, Vanishes a ↔ a = 0 ∨ a = -0) ∧ ∀ a : Float32, Vanishes a ↔ a = 0 ∨ a = -0 := by
  have hword {i bound : Nat} (hbound : bound < UInt64.size) (hi : i < bound) : i + 1 < UInt64.size :=
    (Nat.succ_le_of_lt hi).trans_lt hbound
  have hsize := size_columnMajor D
  have hformed := wellFormed_ofDense hsize
  have hwidth : (ofDense m n (columnMajor D)).cols = n := cols_ofDense m n _
  refine ⟨⟨ofDense m n (columnMajor D), ofDense?_eq hsize, ?_, ?_, Prod.ext rfl hwidth, hformed.check_eq, fun i j => ?_⟩,
    fun _ => vanishes_float_iff, fun _ => vanishes_float32_iff⟩
  · have hrows := lists_rowMajor D
    have hcolumns (t : Triplet T) (ht : t ∈ Triplet.ofRows (rowMajor D)) : t.col < n ∧ t.col + 1 < UInt64.size :=
      ⟨(hrows.lt t ht).2, hword hn (hrows.lt t ht).2⟩
    have hlength : (rowMajor D).length = m := List.length_ofFn
    rw [ofRows?, assemble?_eq _ hcolumns, hlength]
    exact congrArg some hrows.sumTriplets_eq
  · have hinside := (forall_ofArrays_iff (p := (· < m)) (q := (· < n)) hcols hvalues).mp h.lt
    rw [ofTriplets?_of_fits (fun i hi => hword hm (hinside.1 i hi)) (fun j hj => hword hn (hinside.2 j hj))
      ⟨⟨hcols, hvalues⟩, hinside⟩, h.sumTriplets_eq]
  · rw [hformed.get?_eq i.isLt (j.isLt.trans_eq hwidth.symm), lookup_ofDense]

/-- A number that is none, zeros of both signs, and a number. -/
def special : Matrix (Fin 2) (Fin 2) Float
  | 0, 0 => Scalar.nan
  | 0, 1 => -0
  | 1, 0 => 0
  | 1, 1 => 3

theorem lists_special : Lists special (Triplet.ofArrays #[1, 0] #[1, 0] #[3, Scalar.nan]) where
  nodup := by simp [Triplet.ofArrays]
  mem_iff t := by
    have hnan : ¬Vanishes (Scalar.nan : Float) := by decide +kernel
    have hneg : Vanishes (-0 : Float) := by decide +kernel
    have hzero : Vanishes (0 : Float) := by decide +kernel
    have hthree : ¬Vanishes (3 : Float) := by decide +kernel
    simp [Triplet.ofArrays, Fin.exists_fin_two, special, hnan, hneg, hzero, hthree, or_comm]

theorem ofDense?_agrees_special :
    2 < UInt64.size ∧ Lists special (Triplet.ofArrays #[1, 0] #[1, 0] #[3, Scalar.nan]) ∧
      ∃ M, ofDense? 2 2 (columnMajor special) = some M ∧ ofRows? 2 (rowMajor special) = some M ∧
        ofTriplets? 2 2 #[1, 0] #[1, 0] #[3, Scalar.nan] = some (.ok M) ∧
        M.get? 0 0 = some (some (Scalar.nan : Float)) ∧ M.get? 0 1 = some none := by
  have hsize : 2 < UInt64.size := by decide
  obtain ⟨⟨M, hdense, hrows, htriplets, -, -, hget⟩, -⟩ := ofDense?_agrees hsize hsize special rfl rfl lists_special
  refine ⟨hsize, lists_special, M, hdense, hrows, htriplets, (hget 0 0).trans ?_, (hget 0 1).trans ?_⟩
  · rw [if_neg (by decide +kernel)]
    rfl
  · rw [if_pos (by decide +kernel)]

end AugLag.SparseMatrix
