import AugLag.Proofs.Sparse.Layout
import AugLag.Factor.Tree

/-!
# Elimination trees

The tree of a matrix tells the pattern of its factor: row `k` has entries in the columns that are reached from the
entries above the diagonal of column `k` by climbing towards `k`. The construction of the tree keeps the invariant
that every column reached so far has its parent (`Accounts`), and the traversal lists the columns of a row so that
no column comes before one below it.
-/

namespace AugLag.EliminationTree

variable {T : Type} {A : SparseMatrix T} {tree t₀ : EliminationTree} {k : Nat}

/-- Row `k` of the factor has an entry in this column. -/
inductive Reaches (A : SparseMatrix T) (tree : EliminationTree) (k : Nat) : Nat → Prop
  | entry {p : Nat} : p ∈ A.slots k → A.rowAt p < k → Reaches A tree k (A.rowAt p)
  | parent {c above : Nat} : Reaches A tree k c → tree.parentOf c = some above → above < k → Reaches A tree k above

/-- The rows below `k` in which column `c` of the factor has an entry. -/
noncomputable def rowsOf (A : SparseMatrix T) (tree : EliminationTree) (c k : Nat) : List Nat :=
  open scoped Classical in (List.range k).filter fun r => Reaches A tree r c

/-- The tree accounts for the rows below `k`. -/
structure Accounts (A : SparseMatrix T) (tree : EliminationTree) (k : Nat) : Prop where
  size_parent : tree.parent.size = A.cols
  size_count : tree.count.size = A.cols
  parent_gt : ∀ c above, tree.parentOf c = some above → c < above ∧ above < k
  parent_le : ∀ r < k, ∀ c, Reaches A tree r c → ∃ above, tree.parentOf c = some above ∧ above ≤ r
  parent_reaches : ∀ c above, tree.parentOf c = some above → Reaches A tree above c
  count_eq : ∀ c < A.cols, tree.count.getD c 0 = (rowsOf A tree c k).length

theorem Reaches.lt {c : Nat} (h : Reaches A tree k c) : c < k := by
  cases h with
  | entry _ hlt => exact hlt
  | parent _ _ hlt => exact hlt

theorem mem_rowsOf {c r : Nat} : r ∈ rowsOf A tree c k ↔ r < k ∧ Reaches A tree r c := by
  classical
  simp [rowsOf]

theorem rowsOf_succ_of_reaches {c : Nat} (h : Reaches A tree k c) :
    rowsOf A tree c (k + 1) = rowsOf A tree c k ++ [k] := by
  classical
  simp [rowsOf, List.range_succ, h]

theorem rowsOf_succ_of_not {c : Nat} (h : ¬Reaches A tree k c) : rowsOf A tree c (k + 1) = rowsOf A tree c k := by
  classical
  simp [rowsOf, List.range_succ, h]

theorem length_rowsOf_mono (A : SparseMatrix T) (tree : EliminationTree) (c : Nat) {k l : Nat} (h : k ≤ l) :
    (rowsOf A tree c k).length ≤ (rowsOf A tree c l).length := by
  classical
  exact (((List.range_sublist.mpr h).filter _).length_le)

/-- Only parents below the row matter for what it reaches. -/
theorem Reaches.congr {t₁ : EliminationTree} {c : Nat} (h : Reaches A t₀ k c)
    (hpar : ∀ c q, q < k → t₀.parentOf c = some q → t₁.parentOf c = some q) : Reaches A t₁ k c := by
  induction h with
  | entry hp hlt => exact .entry hp hlt
  | parent _ hq hlt ih => exact .parent ih (hpar _ _ hlt hq) hlt

/-- The values of the matrix do not matter. -/
theorem reaches_withValues (values : Array T) {c : Nat} :
    Reaches { A with values } tree k c ↔ Reaches A tree k c := by
  constructor
  · intro h
    induction h with
    | entry hp hlt => exact @Reaches.entry _ A tree k _ hp hlt
    | parent _ hq hlt ih => exact .parent ih hq hlt
  · intro h
    induction h with
    | entry hp hlt => exact @Reaches.entry _ { A with values } tree k _ hp hlt
    | parent _ hq hlt ih => exact .parent ih hq hlt

theorem rowsOf_withValues (values : Array T) (c : Nat) : rowsOf { A with values } tree c k = rowsOf A tree c k := by
  classical
  exact List.filter_congr fun r _ => decide_eq_decide.mpr (reaches_withValues values)

theorem Accounts.withValues (h : Accounts A tree k) (values : Array T) : Accounts { A with values } tree k where
  size_parent := h.size_parent
  size_count := h.size_count
  parent_gt := h.parent_gt
  parent_le r hr c hc := h.parent_le r hr c ((reaches_withValues values).mp hc)
  parent_reaches c above hq := (reaches_withValues values).mpr (h.parent_reaches c above hq)
  count_eq c hc := by
    rw [rowsOf_withValues]
    exact h.count_eq c hc

/-! ## Climbing -/

/-- Column `c` has been passed on the way up to `k`. -/
def Visited (k : Nat) (marks : Array Bool) (c : Nat) : Prop := c ≠ k ∧ marks.getD c false = true

/-- The state of a climb towards `k`, where `t₀` is the tree before row `k`. -/
structure Climbing (A : SparseMatrix T) (t₀ : EliminationTree) (k : Nat) (acc : EliminationTree × Array Bool) :
    Prop where
  size_parent : acc.1.parent.size = A.cols
  size_count : acc.1.count.size = A.cols
  size_marks : acc.2.size = A.cols
  marked : acc.2.getD k false = true
  parent_of_visited : ∀ c, Visited k acc.2 c → acc.1.parentOf c = some ((t₀.parentOf c).getD k)
  parent_of_not : ∀ c, ¬Visited k acc.2 c → acc.1.parentOf c = t₀.parentOf c
  count_of_visited : ∀ c, Visited k acc.2 c → acc.1.count.getD c 0 = t₀.count.getD c 0 + 1
  count_of_not : ∀ c, ¬Visited k acc.2 c → acc.1.count.getD c 0 = t₀.count.getD c 0
  reaches : ∀ c, Visited k acc.2 c → Reaches A t₀ k c

/-- The parent of a visited column is visited, or it is the column at hand. -/
def ClosedUpTo (t₀ : EliminationTree) (k : Nat) (marks : Array Bool) (i : Nat) : Prop :=
  ∀ c q, Visited k marks c → t₀.parentOf c = some q → Visited k marks q ∨ q = i

theorem getD_true_iff {marks : Array Bool} {c : Nat} (h : c < marks.size) :
    marks.getD c true = true ↔ marks.getD c false = true := by
  simp [Array.getD_eq_getD_getElem?, h]

theorem visited_set {marks : Array Bool} {i c : Nat} (hi : i < marks.size) (hik : i ≠ k) :
    Visited k (marks.setIfInBounds i true) c ↔ Visited k marks c ∨ c = i := by
  unfold Visited
  rw [getD_setIfInBounds]
  by_cases hc : i = c
  · subst hc
    simp [hi, hik]
  · simp [hc, Ne.symm hc]

/-- The climbing state after one more column. -/
theorem Climbing.visit {tree : EliminationTree} {marks : Array Bool}
    (h : Climbing A t₀ k (tree, marks)) {i : Nat} (hi : Reaches A t₀ k i) (hcols : i < A.cols)
    (hnew : ¬Visited k marks i) :
    Climbing A t₀ k
      ({ parent := tree.parent.setIfInBounds i (some ((tree.parentOf i).getD k))
         count := tree.count.modify i (· + 1) }, marks.setIfInBounds i true) := by
  have hik : i ≠ k := hi.lt.ne
  have him : i < marks.size := by rw [h.size_marks]; exact hcols
  have hpar : ∀ c, ({ parent := tree.parent.setIfInBounds i (some ((tree.parentOf i).getD k))
                      count := tree.count.modify i (· + 1) } : EliminationTree).parentOf c =
      if c = i then some ((t₀.parentOf i).getD k) else tree.parentOf c := by
    intro c
    rw [h.parent_of_not i hnew]
    exact getD_setIfInBounds_of_lt _ (by rw [h.size_parent]; exact hcols) _ _ _
  have hcount : ∀ c, (tree.count.modify i (· + 1)).getD c 0 =
      if c = i then tree.count.getD i 0 + 1 else tree.count.getD c 0 :=
    fun c => getD_modify_of_lt _ (by rw [h.size_count]; exact hcols) _ _ _
  refine
    { size_parent := by rw [Array.size_setIfInBounds]; exact h.size_parent
      size_count := by rw [Array.size_modify]; exact h.size_count
      size_marks := by rw [Array.size_setIfInBounds]; exact h.size_marks
      marked := ?_, parent_of_visited := fun c hc => ?_, parent_of_not := fun c hc => ?_,
      count_of_visited := fun c hc => ?_, count_of_not := fun c hc => ?_, reaches := fun c hc => ?_ }
  · rw [getD_setIfInBounds_of_ne _ _ _ hik]
    exact h.marked
  · rw [hpar]
    by_cases heq : c = i
    · rw [if_pos heq, heq]
    · rw [if_neg heq]
      exact h.parent_of_visited c (((visited_set him hik).mp hc).resolve_right heq)
  · rw [visited_set him hik, not_or] at hc
    rw [hpar, if_neg hc.2]
    exact h.parent_of_not c hc.1
  · rw [hcount]
    by_cases heq : c = i
    · rw [if_pos heq, heq, h.count_of_not i hnew]
    · rw [if_neg heq]
      exact h.count_of_visited c (((visited_set him hik).mp hc).resolve_right heq)
  · rw [visited_set him hik, not_or] at hc
    rw [hcount, if_neg hc.2]
    exact h.count_of_not c hc.1
  · rcases (visited_set him hik).mp hc with hold | rfl
    · exact h.reaches c hold
    · exact hi

/-- From a column of row `k` the climb goes upwards, to another column of the row or to `k`. -/
theorem Accounts.next_of_reaches (h₀ : Accounts A t₀ k) {i : Nat} (hi : Reaches A t₀ k i) :
    ((t₀.parentOf i).getD k = k ∨ Reaches A t₀ k ((t₀.parentOf i).getD k)) ∧ i < (t₀.parentOf i).getD k := by
  cases hq : t₀.parentOf i with
  | none => exact ⟨.inl rfl, hi.lt⟩
  | some q =>
      obtain ⟨hgt, hlt⟩ := h₀.parent_gt i q hq
      exact ⟨.inr (.parent hi hq hlt), hgt⟩

theorem lt_cols_of_reaches (hk : k < A.cols) {i : Nat} (hi : i = k ∨ Reaches A t₀ k i) : i < A.cols :=
  hi.elim (fun heq => heq ▸ hk) fun hreach => hreach.lt.trans hk

/-- A column without a mark is one that has not been passed, with its parent as it was. -/
theorem Climbing.of_unmarked {tree : EliminationTree} {marks : Array Bool} (h : Climbing A t₀ k (tree, marks)) {i : Nat}
    (hi : i = k ∨ Reaches A t₀ k i) (him : i < marks.size) (hmark : ¬marks.getD i true = true) :
    Reaches A t₀ k i ∧ ¬Visited k marks i ∧ tree.parentOf i = t₀.parentOf i := by
  have hnew : ¬Visited k marks i := fun hvis => hmark ((getD_true_iff him).mpr hvis.2)
  have hik : i ≠ k := by
    rintro rfl
    exact hmark ((getD_true_iff him).mpr h.marked)
  exact ⟨hi.resolve_left hik, hnew, h.parent_of_not i hnew⟩

theorem ClosedUpTo.of_visited {marks : Array Bool} {i : Nat} (h : ClosedUpTo t₀ k marks i) (hi : Visited k marks i) :
    ClosedUpTo t₀ k marks k := by
  intro c q hc hq
  rcases h c q hc hq with hvq | rfl
  · exact .inl hvq
  · exact .inl hi

theorem ClosedUpTo.visit {marks : Array Bool} {i : Nat} (h : ClosedUpTo t₀ k marks i) (him : i < marks.size)
    (hik : i ≠ k) : ClosedUpTo t₀ k (marks.setIfInBounds i true) ((t₀.parentOf i).getD k) := by
  intro c q hc hq
  rcases (visited_set him hik).mp hc with hold | rfl
  · rcases h c q hold hq with hvq | rfl
    · exact .inl ((visited_set him hik).mpr (.inl hvq))
    · exact .inl ((visited_set him hik).mpr (.inr rfl))
  · rw [hq]
    exact .inr rfl

theorem climb_spec (h₀ : Accounts A t₀ k) (hk : k < A.cols) (fuel : Nat) {acc : EliminationTree × Array Bool} {i : Nat}
    (hi : i = k ∨ Reaches A t₀ k i) (hfuel : k - i ≤ fuel) (h : Climbing A t₀ k acc)
    (hclosed : ClosedUpTo t₀ k acc.2 i) :
    Climbing A t₀ k (climb k fuel acc i) ∧ ClosedUpTo t₀ k (climb k fuel acc i).2 k ∧
      (∀ c, Visited k acc.2 c → Visited k (climb k fuel acc i).2 c) ∧
        (i = k ∨ Visited k (climb k fuel acc i).2 i) := by
  induction fuel generalizing acc i with
  | zero =>
      obtain rfl : i = k := by
        rcases hi with rfl | hreach
        · rfl
        · have := hreach.lt
          omega
      exact ⟨h, hclosed, fun _ hc => hc, .inl rfl⟩
  | succ fuel ih =>
      obtain ⟨tree, marks⟩ := acc
      have hcols := lt_cols_of_reaches hk hi
      have him : i < marks.size := by rw [h.size_marks]; exact hcols
      unfold climb
      by_cases hmark : marks.getD i true = true
      · rw [if_pos hmark]
        by_cases hik : i = k
        · subst hik
          exact ⟨h, hclosed, fun _ hc => hc, .inl rfl⟩
        · have hvis : Visited k marks i := ⟨hik, (getD_true_iff him).mp hmark⟩
          exact ⟨h, hclosed.of_visited hvis, fun _ hc => hc, .inr hvis⟩
      · rw [if_neg hmark]
        obtain ⟨hreach, hnew, hpar⟩ := h.of_unmarked hi him hmark
        have hik : i ≠ k := hreach.lt.ne
        obtain ⟨hnext, hgt⟩ := h₀.next_of_reaches hreach
        have hvisit := h.visit hreach hcols hnew
        rw [hpar] at hvisit ⊢
        obtain ⟨hcl, hco, hmono, -⟩ := ih hnext (by omega) hvisit (hclosed.visit him hik)
        refine ⟨hcl, hco, fun c hc => hmono c ((visited_set him hik).mpr (.inl hc)), .inr ?_⟩
        exact hmono i ((visited_set him hik).mpr (.inr rfl))

/-- The climbs from several entries of column `k`, one after the other. -/
theorem climbs_spec (h₀ : Accounts A t₀ k) (hA : A.Upper) (hk : k < A.cols) (slots : List Nat)
    (hslots : ∀ p ∈ slots, p ∈ A.slots k) {acc : EliminationTree × Array Bool} (h : Climbing A t₀ k acc)
    (hclosed : ClosedUpTo t₀ k acc.2 k) :
    Climbing A t₀ k (slots.foldl (fun acc p => climb k A.cols acc (A.rowAt p)) acc) ∧
      ClosedUpTo t₀ k (slots.foldl (fun acc p => climb k A.cols acc (A.rowAt p)) acc).2 k ∧
        (∀ c, Visited k acc.2 c → Visited k (slots.foldl (fun acc p => climb k A.cols acc (A.rowAt p)) acc).2 c) ∧
          ∀ p ∈ slots, A.rowAt p < k →
            Visited k (slots.foldl (fun acc p => climb k A.cols acc (A.rowAt p)) acc).2 (A.rowAt p) := by
  induction slots generalizing acc with
  | nil => exact ⟨h, hclosed, fun _ hv => hv, fun p hp => by cases hp⟩
  | cons p slots ih =>
      have hp := hslots p List.mem_cons_self
      have hi : A.rowAt p = k ∨ Reaches A t₀ k (A.rowAt p) := by
        rcases (hA k hk p hp).eq_or_lt with heq | hlt
        · exact .inl heq
        · exact .inr (.entry hp hlt)
      obtain ⟨hcl, hco, hmono, hvis⟩ := climb_spec h₀ hk A.cols hi (by omega) h (by
        intro c q hcv hq
        rcases hclosed c q hcv hq with hv | rfl
        · exact .inl hv
        · exact absurd (h₀.parent_gt c q hq).2 (lt_irrefl q))
      obtain ⟨hcl', hco', hmono', hall⟩ := ih (fun p' hp' => hslots p' (List.mem_cons_of_mem _ hp')) hcl hco
      refine ⟨hcl', hco', fun c hcv => hmono' c (hmono c hcv), fun p' hp' hlt => ?_⟩
      rcases List.mem_cons.mp hp' with rfl | hp'
      · exact hmono' _ (hvis.resolve_left hlt.ne)
      · exact hall p' hp' hlt

/-! ## The tree after one more row -/

theorem climbing_start (h₀ : Accounts A t₀ k) (hk : k < A.cols) :
    Climbing A t₀ k (t₀, (Array.replicate A.cols false).setIfInBounds k true) ∧
      ∀ c, ¬Visited k ((Array.replicate A.cols false).setIfInBounds k true) c := by
  have hmarks : ∀ c, ((Array.replicate A.cols false).setIfInBounds k true).getD c false = true ↔ c = k := by
    intro c
    rw [getD_setIfInBounds, getD_replicate, Array.size_replicate]
    by_cases hc : k = c
    · subst hc
      simp [hk]
    · simp [hc, Ne.symm hc]
  have hnone : ∀ c, ¬Visited k ((Array.replicate A.cols false).setIfInBounds k true) c :=
    fun c hc => hc.1 ((hmarks c).mp hc.2)
  exact
    ⟨{ size_parent := h₀.size_parent
       size_count := h₀.size_count
       size_marks := by simp
       marked := (hmarks k).mpr rfl
       parent_of_visited := fun c hc => absurd hc (hnone c)
       parent_of_not := fun _ _ => rfl
       count_of_visited := fun c hc => absurd hc (hnone c)
       count_of_not := fun _ _ => rfl
       reaches := fun c hc => absurd hc (hnone c) }, hnone⟩

/-- Accounting for row `k` visits exactly the columns that it reaches. -/
theorem Accounts.addRow_climbing (h₀ : Accounts A t₀ k) (hA : A.Upper) (hk : k < A.cols) :
    ∃ marks, Climbing A t₀ k (EliminationTree.addRow A t₀ k, marks) ∧
      ∀ c, Visited k marks c ↔ Reaches A t₀ k c := by
  obtain ⟨hstart, hnone⟩ := climbing_start h₀ hk
  obtain ⟨h, hclosed, -, hall⟩ := climbs_spec h₀ hA hk (A.slots k) (fun _ hp => hp) hstart
    fun c q hc => absurd hc (hnone c)
  refine ⟨_, h, fun c => ⟨h.reaches c, fun hr => ?_⟩⟩
  induction hr with
  | entry hp hlt => exact hall _ hp hlt
  | parent _ hq hlt ih =>
      rcases hclosed _ _ ih hq with hv | rfl
      · exact hv
      · exact absurd hlt (lt_irrefl _)

theorem Accounts.parentOf_addRow (h₀ : Accounts A t₀ k) (hA : A.Upper) (hk : k < A.cols) {c q : Nat} :
    (EliminationTree.addRow A t₀ k).parentOf c = some q ↔
      t₀.parentOf c = some q ∨ t₀.parentOf c = none ∧ Reaches A t₀ k c ∧ q = k := by
  obtain ⟨marks, h, hvisited⟩ := h₀.addRow_climbing hA hk
  rw [← hvisited]
  by_cases hv : Visited k marks c
  · rw [h.parent_of_visited c hv]
    cases hq : t₀.parentOf c with
    | none => simp [hv, eq_comm]
    | some q' => simp
  · rw [h.parent_of_not c hv]
    simp [hv]

/-- A new parent is equal to `k`, so that rows up to `k` reach the same columns as before. -/
theorem Accounts.reaches_addRow (h₀ : Accounts A t₀ k) (hA : A.Upper) (hk : k < A.cols) {r c : Nat} (hr : r ≤ k) :
    Reaches A (EliminationTree.addRow A t₀ k) r c ↔ Reaches A t₀ r c := by
  refine ⟨fun hc => hc.congr fun c q hqr hq => ?_, fun hc => hc.congr fun c q _ hq => ?_⟩
  · rcases (h₀.parentOf_addRow hA hk).mp hq with hq' | ⟨-, -, rfl⟩
    · exact hq'
    · omega
  · exact (h₀.parentOf_addRow hA hk).mpr (.inl hq)

theorem Accounts.addRow (h₀ : Accounts A t₀ k) (hA : A.Upper) (hk : k < A.cols) :
    Accounts A (EliminationTree.addRow A t₀ k) (k + 1) := by
  obtain ⟨marks, h, hvisited⟩ := h₀.addRow_climbing hA hk
  refine { size_parent := h.size_parent, size_count := h.size_count, parent_gt := fun c q hq => ?_,
           parent_le := fun r hr c hc => ?_, parent_reaches := fun c q hq => ?_, count_eq := fun c hc => ?_ }
  · rcases (h₀.parentOf_addRow hA hk).mp hq with hq' | ⟨-, hc, rfl⟩
    · have := h₀.parent_gt c q hq'
      omega
    · exact ⟨hc.lt, Nat.lt_succ_self _⟩
  · rw [h₀.reaches_addRow hA hk (by omega)] at hc
    rcases Nat.lt_succ_iff_lt_or_eq.mp hr with hlt | rfl
    · obtain ⟨q, hq, hle⟩ := h₀.parent_le r hlt c hc
      exact ⟨q, (h₀.parentOf_addRow hA hk).mpr (.inl hq), hle⟩
    · cases hq : t₀.parentOf c with
      | none => exact ⟨r, (h₀.parentOf_addRow hA hk).mpr (.inr ⟨hq, hc, rfl⟩), le_rfl⟩
      | some q => exact ⟨q, (h₀.parentOf_addRow hA hk).mpr (.inl hq), (h₀.parent_gt c q hq).2.le⟩
  · rcases (h₀.parentOf_addRow hA hk).mp hq with hq' | ⟨-, hc, rfl⟩
    · exact (h₀.reaches_addRow hA hk (h₀.parent_gt c q hq').2.le).mpr (h₀.parent_reaches c q hq')
    · exact (h₀.reaches_addRow hA hk le_rfl).mpr hc
  · have hrows : rowsOf A (EliminationTree.addRow A t₀ k) c k = rowsOf A t₀ c k := by
      classical
      refine List.filter_congr fun r hr => ?_
      simp only [h₀.reaches_addRow hA hk (List.mem_range.mp hr).le]
    by_cases hv : Reaches A t₀ k c
    · rw [rowsOf_succ_of_reaches ((h₀.reaches_addRow hA hk le_rfl).mpr hv), hrows, List.length_append,
        List.length_singleton, h.count_of_visited c ((hvisited c).mpr hv), h₀.count_eq c hc]
    · rw [rowsOf_succ_of_not fun hr => hv ((h₀.reaches_addRow hA hk le_rfl).mp hr), hrows,
        h.count_of_not c fun hvis => hv ((hvisited c).mp hvis), h₀.count_eq c hc]

/-- The empty tree accounts for no rows. -/
theorem accounts_empty (A : SparseMatrix T) :
    Accounts A { parent := Array.replicate A.cols none, count := Array.replicate A.cols 0 } 0 := by
  have hroot : ∀ c, EliminationTree.parentOf
      { parent := Array.replicate A.cols none, count := Array.replicate A.cols 0 } c = none := by
    intro c
    rw [parentOf, getD_replicate, ite_self]
  exact
    { size_parent := Array.size_replicate
      size_count := Array.size_replicate
      parent_gt := fun c above habove => by
        rw [hroot] at habove
        cases habove
      parent_le := fun r hr => absurd hr (Nat.not_lt_zero r)
      parent_reaches := fun c above habove => by
        rw [hroot] at habove
        cases habove
      count_eq := fun c _ => by
        rw [getD_replicate, ite_self]
        rfl }

theorem accounts_ofMatrix (hA : A.Upper) : Accounts A (ofMatrix A) A.cols := by
  have hfold : ∀ k ≤ A.cols, Accounts A ((List.range k).foldl (addRow A)
      { parent := Array.replicate A.cols none, count := Array.replicate A.cols 0 }) k := by
    intro k
    induction k with
    | zero => exact fun _ => accounts_empty A
    | succ k ih =>
        intro hk
        rw [List.range_succ, List.foldl_append]
        exact (ih (by omega)).addRow hA (by omega)
  exact hfold A.cols le_rfl

/-! ## Ancestors -/

/-- Column `a` lies above column `c` in the tree. -/
def Above (tree : EliminationTree) (a c : Nat) : Prop :=
  Relation.TransGen (fun c above => tree.parentOf c = some above) c a

theorem Accounts.lt_of_above (h : Accounts A tree k) {a c : Nat} (hac : Above tree a c) : c < a := by
  induction hac with
  | single hq => exact (h.parent_gt _ _ hq).1
  | tail _ hq ih => exact ih.trans (h.parent_gt _ _ hq).1

/-- A row lies above all columns in which it has an entry. -/
theorem Accounts.above_of_reaches (h : Accounts A tree k) {r c : Nat} (hr : r < k) (hc : Reaches A tree r c) :
    Above tree r c := by
  induction hd : r - c using Nat.strong_induction_on generalizing c with
  | h d ih =>
      obtain ⟨q, hq, hle⟩ := h.parent_le r hr c hc
      rcases hle.eq_or_lt with rfl | hlt
      · exact .single hq
      · have hcq := (h.parent_gt c q hq).1
        exact .head hq (ih (r - q) (by have := hc.lt; omega) (.parent hc hq hlt) rfl)

/-- What a row reaches is closed under going up, as far as that row. -/
theorem Accounts.reaches_of_above (h : Accounts A tree k) {r a c : Nat} (hc : Reaches A tree r c)
    (hac : Above tree a c) (har : a < r) : Reaches A tree r a := by
  induction hac with
  | single hq => exact .parent hc hq har
  | tail _ hq ih => exact .parent (ih ((h.parent_gt _ _ hq).1.trans har)) hq har

/-- If two rows have an entry in one column, the higher one has an entry in the column of the lower one. -/
theorem Accounts.reaches_of_common (h : Accounts A tree k) {r s c : Nat} (hr : r < k) (hrc : Reaches A tree r c)
    (hsc : Reaches A tree s c) (hrs : r < s) : Reaches A tree s r :=
  h.reaches_of_above hsc (h.above_of_reaches hr hrc) hrs

/-! ## Listing the columns of a row -/

/-- What one path adds to the columns that are marked. -/
structure PathAdds (A : SparseMatrix T) (tree : EliminationTree) (k : Nat) (marks : Array Bool) (i : Nat)
    (out : Array Bool × List Nat) : Prop where
  size_eq : out.1.size = marks.size
  marked : ∀ c < k, out.1.getD c true = true ↔ marks.getD c true = true ∨ c ∈ out.2
  fresh : ∀ c ∈ out.2, c < k ∧ i ≤ c ∧ ¬marks.getD c true = true
  reaches : Reaches A tree k i → ∀ c ∈ out.2, Reaches A tree k c
  start : i < k → marks.getD i true = true ∨ i ∈ out.2
  closed : ∀ c ∈ out.2, ∀ q < k, tree.parentOf c = some q → marks.getD q true = true ∨ q ∈ out.2
  ascend : out.2.Pairwise (· < ·)

theorem pathAdds_nil {marks : Array Bool} {i : Nat} (hi : i < k → marks.getD i true = true) :
    PathAdds A tree k marks i (marks, []) where
  size_eq := rfl
  marked := fun c _ => by simp
  fresh := fun c hc => by cases hc
  reaches := fun _ c hc => by cases hc
  start := fun hlt => .inl (hi hlt)
  closed := fun c hc => by cases hc
  ascend := .nil

theorem getD_set_true {marks : Array Bool} {i c : Nat} :
    (marks.setIfInBounds i true).getD c true = true ↔ marks.getD c true = true ∨ c = i := by
  rw [getD_setIfInBounds]
  by_cases hi : i = c
  · subst hi
    by_cases hs : i < marks.size
    · simp [hs]
    · simp [hs]
  · simp [hi, Ne.symm hi]

/-- A root that is not marked is listed alone. -/
theorem pathAdds_root {marks : Array Bool} {i : Nat} (hik : i < k) (hnew : ¬marks.getD i true = true)
    (hroot : tree.parentOf i = none) : PathAdds A tree k marks i (marks.setIfInBounds i true, [i]) where
  size_eq := Array.size_setIfInBounds
  marked := fun c _ => by rw [getD_set_true, List.mem_singleton]
  fresh := fun c hc => by
    obtain rfl := List.mem_singleton.mp hc
    exact ⟨hik, le_rfl, hnew⟩
  reaches := fun hr c hc => List.mem_singleton.mp hc ▸ hr
  start := fun _ => .inr List.mem_cons_self
  closed := fun c hc q _ hcq => by
    rw [List.mem_singleton.mp hc, hroot] at hcq
    cases hcq
  ascend := List.pairwise_singleton _ _

/-- Another column that is not marked is listed before the path of its parent. -/
theorem PathAdds.cons {N : Nat} (h : Accounts A tree N) {marks : Array Bool} {i above : Nat} {rest : Array Bool × List Nat}
    (hrest : PathAdds A tree k (marks.setIfInBounds i true) above rest) (hik : i < k)
    (hnew : ¬marks.getD i true = true) (hparent : tree.parentOf i = some above) :
    PathAdds A tree k marks i (rest.1, i :: rest.2) := by
  have hgt := (h.parent_gt i above hparent).1
  -- The columns of the rest lie above `i`, so that the mark of `i` does not count for them.
  have hmark : ∀ {q : Nat}, i < q →
      (marks.setIfInBounds i true).getD q true = true ∨ q ∈ rest.2 → marks.getD q true = true ∨ q ∈ i :: rest.2 :=
    fun hlt hq => hq.imp (fun hset => (getD_set_true.mp hset).resolve_right hlt.ne') (List.mem_cons_of_mem _)
  refine
    { size_eq := hrest.size_eq.trans Array.size_setIfInBounds
      marked := fun c hc => by rw [hrest.marked c hc, getD_set_true, List.mem_cons, or_assoc]
      fresh := fun c hc => ?_
      reaches := fun hr c hc => ?_
      start := fun _ => .inr List.mem_cons_self
      closed := fun c hc q hqk hcq => ?_
      ascend := List.pairwise_cons.mpr ⟨fun c hc => hgt.trans_le (hrest.fresh c hc).2.1, hrest.ascend⟩ }
  · rcases List.mem_cons.mp hc with rfl | hc
    · exact ⟨hik, le_rfl, hnew⟩
    · obtain ⟨hck, hle, hfresh⟩ := hrest.fresh c hc
      rw [getD_set_true, not_or] at hfresh
      exact ⟨hck, hgt.le.trans hle, hfresh.1⟩
  · rcases List.mem_cons.mp hc with rfl | hc
    · exact hr
    · obtain ⟨hck, hle, -⟩ := hrest.fresh c hc
      exact hrest.reaches (.parent hr hparent (hle.trans_lt hck)) c hc
  · rcases List.mem_cons.mp hc with rfl | hc
    · rw [hparent, Option.some_inj] at hcq
      subst hcq
      exact hmark hgt (hrest.start hqk)
    · have hle := (hrest.fresh c hc).2.1
      exact hmark (hgt.trans_le (hle.trans (h.parent_gt c q hcq).1.le)) (hrest.closed c hc q hqk hcq)

theorem path_spec {N : Nat} (h : Accounts A tree N) (fuel : Nat) {marks : Array Bool} {i : Nat} (hfuel : k - i < fuel) :
    PathAdds A tree k marks i (path tree k fuel marks i) := by
  induction fuel generalizing marks i with
  | zero => omega
  | succ fuel ih =>
      unfold path
      by_cases hgo : (i < k && !marks.getD i true) = true
      · rw [if_pos hgo]
        simp only [Bool.and_eq_true, decide_eq_true_eq, Bool.not_eq_true', ← Bool.not_eq_true] at hgo
        obtain ⟨hik, hnew⟩ := hgo
        cases hq : tree.parentOf i with
        | none => exact pathAdds_root hik hnew hq
        | some above =>
            have hgt := (h.parent_gt i above hq).1
            exact (ih (by omega)).cons h hik hnew hq
      · rw [if_neg hgo]
        refine pathAdds_nil fun hik => ?_
        simpa [hik] using hgo

/-- The columns listed so far, marked and in an order in which no column comes before one below it. -/
structure Listed (A : SparseMatrix T) (tree : EliminationTree) (k : Nat) (acc : Array Bool × List Nat) : Prop where
  size_eq : acc.1.size = k
  marked : ∀ c < k, acc.1.getD c true = true ↔ c ∈ acc.2
  nodup : acc.2.Nodup
  reaches : ∀ c ∈ acc.2, Reaches A tree k c
  closed : ∀ c ∈ acc.2, ∀ q < k, tree.parentOf c = some q → q ∈ acc.2
  order : acc.2.Pairwise fun a c => ¬Above tree a c

theorem Listed.mem_of_above {N : Nat} (hN : Accounts A tree N) {acc : Array Bool × List Nat} (h : Listed A tree k acc)
    {a c : Nat} (hc : c ∈ acc.2) (hac : Above tree a c) (ha : a < k) : a ∈ acc.2 := by
  induction hac with
  | single hq => exact h.closed _ hc _ ha hq
  | tail _ hq ih => exact h.closed _ (ih ((hN.parent_gt _ _ hq).1.trans ha)) _ ha hq

theorem Listed.step {N : Nat} (hN : Accounts A tree N) {acc : Array Bool × List Nat} (h : Listed A tree k acc) {i : Nat}
    (hi : Reaches A tree k i) {out : Array Bool × List Nat} (hout : PathAdds A tree k acc.1 i out) :
    Listed A tree k (out.1, out.2 ++ acc.2) ∧ i ∈ out.2 ++ acc.2 := by
  have hnew : ∀ c ∈ out.2, c ∉ acc.2 := by
    intro c hc hmem
    obtain ⟨hck, -, hfresh⟩ := hout.fresh c hc
    exact hfresh ((h.marked c hck).mpr hmem)
  refine ⟨{ size_eq := hout.size_eq.trans h.size_eq, marked := fun c hc => ?_, nodup := ?_, reaches := fun c hc => ?_,
            closed := fun c hc q hqk hcq => ?_, order := ?_ }, ?_⟩
  · rw [hout.marked c hc, h.marked c hc, List.mem_append, or_comm]
  · exact List.nodup_append.mpr ⟨hout.ascend.imp fun hlt => hlt.ne, h.nodup, fun c hc c' hc' heq =>
      hnew c hc (heq ▸ hc')⟩
  · rcases List.mem_append.mp hc with hc | hc
    · exact hout.reaches hi c hc
    · exact h.reaches c hc
  · rcases List.mem_append.mp hc with hc | hc
    · rcases hout.closed c hc q hqk hcq with hmark | hmem
      · exact List.mem_append_right _ ((h.marked q hqk).mp hmark)
      · exact List.mem_append_left _ hmem
    · exact List.mem_append_right _ (h.closed c hc q hqk hcq)
  · refine List.pairwise_append.mpr ⟨?_, h.order, fun a ha c hc hac => ?_⟩
    · exact hout.ascend.imp fun hlt hac => absurd (hN.lt_of_above hac) hlt.asymm
    · exact hnew a ha (h.mem_of_above hN hc hac (hout.fresh a ha).1)
  · rcases hout.start hi.lt with hmark | hmem
    · exact List.mem_append_right _ ((h.marked i hi.lt).mp hmark)
    · exact List.mem_append_left _ hmem

theorem Accounts.listed_foldl {N : Nat} (hN : Accounts A tree N) (rows : List Nat) (hrows : ∀ i ∈ rows, Reaches A tree k i)
    {acc : Array Bool × List Nat} (h : Listed A tree k acc) :
    Listed A tree k (rows.foldl (fun acc i =>
        let p := tree.path k (k + 1) acc.1 i
        (p.1, p.2 ++ acc.2)) acc) ∧
      ∀ i, i ∈ rows ∨ i ∈ acc.2 → i ∈ (rows.foldl (fun acc i =>
        let p := tree.path k (k + 1) acc.1 i
        (p.1, p.2 ++ acc.2)) acc).2 := by
  induction rows generalizing acc with
  | nil => exact ⟨h, fun i hi => hi.resolve_left List.not_mem_nil⟩
  | cons i rows ih =>
      have hi := hrows i List.mem_cons_self
      obtain ⟨hstep, hmem⟩ := h.step hN hi (path_spec hN (k + 1) (by omega))
      obtain ⟨hlast, hall⟩ := ih (fun c hc => hrows c (List.mem_cons_of_mem _ hc)) hstep
      rw [List.foldl_cons]
      refine ⟨hlast, fun c hc => hall c ?_⟩
      rcases hc with hc | hc
      · rcases List.mem_cons.mp hc with rfl | hc
        · exact .inr hmem
        · exact .inl hc
      · exact .inr (List.mem_append_right _ hc)

/-- The rows above the diagonal in column `k`. -/
def rowsAbove (A : SparseMatrix T) (k : Nat) : List Nat := ((A.slots k).map A.rowAt).filter (· ≠ k)

/-- The columns of a row are listed and marked. -/
theorem Accounts.listed_reach {N : Nat} (hN : Accounts A tree N) (hA : A.Upper) (hk : k < A.cols) :
    Listed A tree k ((rowsAbove A k).foldl (fun acc i =>
        let p := tree.path k (k + 1) acc.1 i
        (p.1, p.2 ++ acc.2)) (Array.replicate k false, [])) ∧
      ∀ i ∈ rowsAbove A k, i ∈ tree.reach k (rowsAbove A k) := by
  have hrows : ∀ i ∈ rowsAbove A k, Reaches A tree k i := by
    intro i hi
    obtain ⟨hmem, hne⟩ := List.mem_filter.mp hi
    obtain ⟨p, hp, rfl⟩ := List.mem_map.mp hmem
    have hle := hA k hk p hp
    exact .entry hp (lt_of_le_of_ne hle (of_decide_eq_true hne))
  have hstart : Listed A tree k (Array.replicate k false, []) :=
    { size_eq := Array.size_replicate
      marked := fun c hc => by simp [hc]
      nodup := .nil
      reaches := fun c hc => absurd hc List.not_mem_nil
      closed := fun c hc => absurd hc List.not_mem_nil
      order := .nil }
  obtain ⟨hlisted, hall⟩ := hN.listed_foldl (rowsAbove A k) hrows hstart
  exact ⟨hlisted, fun i hi => hall i (.inl hi)⟩

/-- The columns of a row of the factor, each once, and none before a column below it. -/
theorem Accounts.reach_spec {N : Nat} (hN : Accounts A tree N) (hA : A.Upper) (hk : k < A.cols) :
    (tree.reach k (rowsAbove A k)).Nodup ∧ (∀ c, c ∈ tree.reach k (rowsAbove A k) ↔ Reaches A tree k c) ∧
      (tree.reach k (rowsAbove A k)).Pairwise fun a c => ¬Above tree a c := by
  obtain ⟨hlisted, hall⟩ := hN.listed_reach hA hk
  refine ⟨hlisted.nodup, fun c => ⟨hlisted.reaches c, fun hc => ?_⟩, hlisted.order⟩
  induction hc with
  | entry hp hlt => exact hall _ (List.mem_filter.mpr ⟨List.mem_map_of_mem hp, by simpa using hlt.ne⟩)
  | parent _ hq hlt ih => exact hlisted.closed _ ih _ hlt hq

end AugLag.EliminationTree
