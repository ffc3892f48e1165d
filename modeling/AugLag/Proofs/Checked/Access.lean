import AugLag.Proofs.Scatter

/-!
# Checked accesses

An access to an array answers `none` where the element is not there. The definitions in this directory repeat those
of the solver with checked accesses, and with its assertions, in place of the total ones: `none` is a panic. They are
proved to answer `some` of what the total definitions give, so that no default of a total access is ever used.
-/

namespace AugLag.Checked

variable {α β γ : Type}

/-! ## Single accesses -/

/-- Replaces element `i`, which must be there. -/
def set (a : Array α) (i : Nat) (x : α) : Option (Array α) :=
  if i < a.size then some (a.setIfInBounds i x) else none

/-- Changes element `i`, which must be there. -/
def modify (a : Array α) (i : Nat) (f : α → α) : Option (Array α) :=
  if i < a.size then some (a.modify i f) else none

/-- The elements from `first` up to `stop`, which must be a stretch of the array. -/
def stretch (a : Array α) (first stop : Nat) : Option (List α) :=
  if first ≤ stop ∧ stop ≤ a.size then (List.range' first (stop - first)).mapM (a[·]?) else none

/-- An assertion. -/
def require (p : Prop) [Decidable p] : Option Unit := if p then some () else none

theorem get_eq {a : Array α} {i : Nat} (h : i < a.size) (d : α) : a[i]? = some (a.getD i d) := by
  simp [Array.getD_eq_getD_getElem?, h]

theorem set_eq {a : Array α} {i : Nat} (h : i < a.size) (x : α) : set a i x = some (a.setIfInBounds i x) := if_pos h

theorem modify_eq {a : Array α} {i : Nat} (h : i < a.size) (f : α → α) : modify a i f = some (a.modify i f) := if_pos h

theorem require_eq {p : Prop} [Decidable p] (h : p) : require p = some () := if_pos h

/-! ## Loops -/

/-- A loop with an invariant, in which the elements that are done may occur, under which every step is the total one. -/
theorem foldlM_eq_of_done {f : β → α → Option β} {g : β → α → β} {l : List α} (inv : List α → β → Prop) {b : β}
    (hb : inv [] b) (h : ∀ before a after b, l = before ++ a :: after → inv before b →
      f b a = some (g b a) ∧ inv (before ++ [a]) (g b a)) :
    l.foldlM f b = some (l.foldl g b) ∧ inv l (l.foldl g b) := by
  have hrest : ∀ rest before b, l = before ++ rest → inv before b →
      rest.foldlM f b = some (rest.foldl g b) ∧ inv l (rest.foldl g b) := by
    intro rest
    induction rest with
    | nil =>
        intro before b hl hinv
        rw [List.append_nil] at hl
        exact ⟨rfl, hl ▸ hinv⟩
    | cons a rest ih =>
        intro before b hl hinv
        obtain ⟨hstep, hnext⟩ := h before a rest b hl hinv
        rw [List.foldlM_cons, hstep, List.foldl_cons]
        exact ih (before ++ [a]) (g b a) (by rw [hl, List.append_assoc]; rfl) hnext
  exact hrest l [] b rfl hb

/-- A loop with an invariant under which every step is the total one. -/
theorem foldlM_eq {f : β → α → Option β} {g : β → α → β} (inv : β → Prop) {l : List α} {b : β} (hb : inv b)
    (h : ∀ b, ∀ a ∈ l, inv b → f b a = some (g b a) ∧ inv (g b a)) :
    l.foldlM f b = some (l.foldl g b) ∧ inv (l.foldl g b) :=
  foldlM_eq_of_done (fun _ => inv) hb fun before a after b hl hinv =>
    h b a (by rw [hl]; exact List.mem_append_right _ List.mem_cons_self) hinv

/-- A loop of which every step is the total one, whatever was done before. -/
theorem foldlM_eq_foldl {f : β → α → Option β} {g : β → α → β} {l : List α} {b : β}
    (h : ∀ b, ∀ a ∈ l, f b a = some (g b a)) : l.foldlM f b = some (l.foldl g b) :=
  (foldlM_eq (fun _ => True) trivial fun b a ha _ => ⟨h b a ha, trivial⟩).1

/-- A counting loop, whose invariant may refer to the count. -/
theorem foldlM_range_eq {f : β → Nat → Option β} {g : β → Nat → β} (inv : Nat → β → Prop) {n : Nat} {b : β}
    (hb : inv 0 b) (h : ∀ i < n, ∀ b, inv i b → f b i = some (g b i) ∧ inv (i + 1) (g b i)) :
    (List.range n).foldlM f b = some ((List.range n).foldl g b) ∧ inv n ((List.range n).foldl g b) := by
  induction n with
  | zero => exact ⟨rfl, hb⟩
  | succ n ih =>
      obtain ⟨hbefore, hinv⟩ := ih fun i hi => h i (by omega)
      obtain ⟨hstep, hnext⟩ := h n (Nat.lt_succ_self n) _ hinv
      rw [List.range_succ, List.foldlM_append, hbefore, List.foldl_append]
      exact ⟨by simp [hstep], hnext⟩

theorem mapM_eq {f : α → Option β} {g : α → β} {l : List α} (h : ∀ a ∈ l, f a = some (g a)) :
    l.mapM f = some (l.map g) := by
  induction l with
  | nil => rfl
  | cons a l ih =>
      rw [List.mapM_cons, h a List.mem_cons_self, ih fun a ha => h a (List.mem_cons_of_mem _ ha), List.map_cons]
      rfl

/-- A list of accesses, none of which misses. -/
theorem mapM_get_eq {a : Array α} {l : List Nat} (h : ∀ i ∈ l, i < a.size) (d : α) :
    l.mapM (a[·]?) = some (l.map (a.getD · d)) := mapM_eq fun i hi => get_eq (h i hi) d

theorem allM_eq {p : α → Option Bool} {q : α → Bool} {l : List α} (h : ∀ a ∈ l, p a = some (q a)) :
    l.allM p = some (l.all q) := by
  induction l with
  | nil => rfl
  | cons a l ih =>
      rw [List.allM, h a List.mem_cons_self, List.all_cons, ih fun a ha => h a (List.mem_cons_of_mem _ ha)]
      cases hq : q a with
      | true => rfl
      | false => rfl

theorem stretch_eq {a : Array α} {first stop : Nat} (hle : first ≤ stop) (hstop : stop ≤ a.size) (d : α) :
    stretch a first stop = some ((List.range' first (stop - first)).map (a.getD · d)) := by
  rw [stretch, if_pos ⟨hle, hstop⟩]
  refine mapM_get_eq (fun i hi => ?_) d
  rw [List.mem_range'_1] at hi
  omega

/-- A loop that replaces elements, all of which are there. -/
theorem foldlM_set_eq (place : β → Nat) (x : β → α) {l : List β} {a : Array α} (h : ∀ b ∈ l, place b < a.size) :
    l.foldlM (fun v b => set v (place b) (x b)) a = some (l.foldl (fun v b => v.setIfInBounds (place b) (x b)) a) := by
  refine (foldlM_eq (fun v => v.size = a.size) rfl fun v b hb hv => ⟨set_eq ?_ _, ?_⟩).1
  · rw [hv]
    exact h b hb
  · rw [Array.size_setIfInBounds, hv]

/-- A loop that changes elements, all of which are there. -/
theorem foldlM_modify_eq (place : β → Nat) (f : β → α → α) {l : List β} {a : Array α} (h : ∀ b ∈ l, place b < a.size) :
    l.foldlM (fun v b => modify v (place b) (f b)) a = some (l.foldl (fun v b => v.modify (place b) (f b)) a) := by
  refine (foldlM_eq (fun v => v.size = a.size) rfl fun v b hb hv => ⟨modify_eq ?_ _, ?_⟩).1
  · rw [hv]
    exact h b hb
  · rw [Array.size_modify, hv]

end AugLag.Checked
