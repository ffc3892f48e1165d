import Mathlib.Tactic

/-!
# Scattering into arrays

Loops that change one element of an array after the other. An element ends up as what the changes aimed at it
make of it, in their order; the others do not matter.
-/

namespace AugLag

variable {α β : Type}

/-! ## Single changes -/

theorem getD_modify (v : Array α) (i k : Nat) (f : α → α) (d : α) :
    (v.modify i f).getD k d = if i = k ∧ k < v.size then f (v.getD k d) else v.getD k d := by
  by_cases hk : k < v.size
  · simp only [Array.getD_eq_getD_getElem?, Array.size_modify, hk, Array.getElem?_eq_getElem, Array.getElem_modify,
      Option.getD_some, and_true]
  · simp [Array.getD_eq_getD_getElem?, hk]

theorem getD_setIfInBounds (v : Array α) (i k : Nat) (x d : α) :
    (v.setIfInBounds i x).getD k d = if i = k ∧ k < v.size then x else v.getD k d := by
  by_cases hk : k < v.size
  · simp only [Array.getD_eq_getD_getElem?, Array.size_setIfInBounds, hk, Array.getElem?_eq_getElem,
      Array.getElem_setIfInBounds, Option.getD_some, and_true]
  · simp [Array.getD_eq_getD_getElem?, hk]

theorem getD_modify_of_ne (v : Array α) {i k : Nat} (f : α → α) (d : α) (h : i ≠ k) :
    (v.modify i f).getD k d = v.getD k d := by
  rw [getD_modify, if_neg fun hand => h hand.1]

theorem getD_modify_self (v : Array α) {i : Nat} (hi : i < v.size) (f : α → α) (d : α) :
    (v.modify i f).getD i d = f (v.getD i d) := by
  rw [getD_modify, if_pos ⟨rfl, hi⟩]

theorem getD_setIfInBounds_of_ne (v : Array α) {i k : Nat} (x d : α) (h : i ≠ k) :
    (v.setIfInBounds i x).getD k d = v.getD k d := by
  rw [getD_setIfInBounds, if_neg fun hand => h hand.1]

theorem getD_setIfInBounds_self (v : Array α) {i : Nat} (hi : i < v.size) (x d : α) :
    (v.setIfInBounds i x).getD i d = x := by
  rw [getD_setIfInBounds, if_pos ⟨rfl, hi⟩]

/-- A change inside of the array replaces one element. -/
theorem getD_setIfInBounds_of_lt (v : Array α) {i : Nat} (hi : i < v.size) (x : α) (k : Nat) (d : α) :
    (v.setIfInBounds i x).getD k d = if k = i then x else v.getD k d := by
  by_cases hk : i = k
  · rw [← hk, getD_setIfInBounds_self v hi, if_pos rfl]
  · rw [getD_setIfInBounds_of_ne v x d hk, if_neg (Ne.symm hk)]

theorem getD_modify_of_lt (v : Array α) {i : Nat} (hi : i < v.size) (f : α → α) (k : Nat) (d : α) :
    (v.modify i f).getD k d = if k = i then f (v.getD i d) else v.getD k d := by
  by_cases hk : i = k
  · rw [← hk, getD_modify_self v hi, if_pos rfl]
  · rw [getD_modify_of_ne v f d hk, if_neg (Ne.symm hk)]

theorem getD_of_size_le (v : Array α) {k : Nat} (h : v.size ≤ k) (d : α) : v.getD k d = d := by
  simp [Array.getD_eq_getD_getElem?, h]

@[simp] theorem getD_replicate (n k : Nat) (x d : α) :
    (Array.replicate n x).getD k d = if k < n then x else d := by
  by_cases hk : k < n <;> simp [Array.getD_eq_getD_getElem?, hk]

theorem array_ext_getD {v w : Array α} (d : α) (hs : v.size = w.size)
    (h : ∀ k < v.size, v.getD k d = w.getD k d) : v = w := by
  refine Array.ext hs fun k h₁ h₂ => ?_
  simpa [Array.getD_eq_getD_getElem?, h₁, h₂] using h k h₁

/-! ## Loops of changes -/

@[simp] theorem size_foldl_modify (l : List β) (place : β → Nat) (f : β → α → α) (v : Array α) :
    (l.foldl (fun v b => v.modify (place b) (f b)) v).size = v.size := by
  induction l generalizing v with
  | nil => rfl
  | cons b l ih => rw [List.foldl_cons, ih, Array.size_modify]

@[simp] theorem size_foldl_setIfInBounds (l : List β) (place : β → Nat) (x : β → α) (v : Array α) :
    (l.foldl (fun v b => v.setIfInBounds (place b) (x b)) v).size = v.size := by
  induction l generalizing v with
  | nil => rfl
  | cons b l ih => rw [List.foldl_cons, ih, Array.size_setIfInBounds]

theorem getD_foldl_modify (l : List β) (place : β → Nat) (f : β → α → α) (v : Array α) {k : Nat}
    (hk : k < v.size) (d : α) :
    (l.foldl (fun v b => v.modify (place b) (f b)) v).getD k d =
      (l.filter fun b => place b = k).foldl (fun x b => f b x) (v.getD k d) := by
  induction l generalizing v with
  | nil => rfl
  | cons b l ih =>
      rw [List.foldl_cons, ih _ (by rwa [Array.size_modify]), getD_modify]
      by_cases hb : place b = k
      · rw [if_pos ⟨hb, hk⟩, List.filter_cons_of_pos (by simpa using hb), List.foldl_cons]
      · rw [if_neg fun hand => hb hand.1, List.filter_cons_of_neg (by simpa using hb)]

/-- A place that no change is aimed at keeps its element. -/
theorem getD_foldl_set_of_forall_ne (l : List β) (place : β → Nat) (x : β → α) (v : Array α) {k : Nat} (d : α)
    (h : ∀ b ∈ l, place b ≠ k) :
    (l.foldl (fun v b => v.setIfInBounds (place b) (x b)) v).getD k d = v.getD k d := by
  induction l generalizing v with
  | nil => rfl
  | cons b l ih =>
      rw [List.foldl_cons, ih _ fun b' hb' => h b' (List.mem_cons_of_mem _ hb'),
        getD_setIfInBounds_of_ne _ _ _ (h b List.mem_cons_self)]

/-- A place that is hit holds the new element, if all hits agree on it. -/
theorem getD_foldl_set_of_mem (l : List β) (place : β → Nat) (x : β → α) (v : Array α) {k : Nat} (d : α) {y : α}
    (hs : k < v.size) (hex : ∃ b ∈ l, place b = k) (h : ∀ b ∈ l, place b = k → x b = y) :
    (l.foldl (fun v b => v.setIfInBounds (place b) (x b)) v).getD k d = y := by
  induction l generalizing v with
  | nil => simp at hex
  | cons b l ih =>
      rw [List.foldl_cons]
      have htail : ∀ b' ∈ l, place b' = k → x b' = y := fun b' hb' => h b' (List.mem_cons_of_mem _ hb')
      by_cases hl : ∃ b' ∈ l, place b' = k
      · exact ih _ (by simpa using hs) hl htail
      · obtain ⟨b', hb', rfl⟩ := hex
        rcases List.mem_cons.mp hb' with rfl | hb'
        · rw [getD_foldl_set_of_forall_ne _ _ _ _ _ fun c hc hck => hl ⟨c, hc, hck⟩, getD_setIfInBounds_self _ hs,
            h b' List.mem_cons_self rfl]
        · exact absurd ⟨b', hb', rfl⟩ hl

/-- The same changes of two arrays leave equal elements where they hit, and where the elements were equal before. -/
theorem getD_foldl_set_congr (l : List β) (place : β → Nat) (x : β → α) {v v' : Array α} {k : Nat} (d : α)
    (hs : v'.size = v.size) (h : (∃ b ∈ l, place b = k) ∨ v'.getD k d = v.getD k d) :
    (l.foldl (fun v b => v.setIfInBounds (place b) (x b)) v').getD k d =
      (l.foldl (fun v b => v.setIfInBounds (place b) (x b)) v).getD k d := by
  induction l generalizing v v' with
  | nil => exact h.resolve_left fun ⟨_, hb, _⟩ => List.not_mem_nil hb
  | cons b l ih =>
      rw [List.foldl_cons, List.foldl_cons]
      refine ih (by simpa using hs) ?_
      by_cases hl : ∃ b' ∈ l, place b' = k
      · exact .inl hl
      · refine .inr ?_
        rcases h with ⟨b', hb', rfl⟩ | heq
        · rcases List.mem_cons.mp hb' with rfl | hb'
          · rw [getD_setIfInBounds, getD_setIfInBounds, hs]
            by_cases hk : place b' < v.size
            · rw [if_pos ⟨rfl, hk⟩, if_pos ⟨rfl, hk⟩]
            · have hsize : v.size ≤ place b' := not_lt.mp hk
              rw [getD_of_size_le _ hsize, getD_of_size_le _ (hs.trans_le hsize)]
          · exact absurd ⟨b', hb', rfl⟩ hl
        · rw [getD_setIfInBounds, getD_setIfInBounds, hs, heq]

end AugLag
