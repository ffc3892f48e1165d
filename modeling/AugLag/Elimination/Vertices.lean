import AugLag.Elimination.Order

/-!
# The vertices of the order

The elimination of pivots rearranges a quotient graph but does not change the number of its vertices. So the order that
is read off in the end lists vertices of the graph and nothing else.
-/

namespace AugLag.Elimination

namespace Quotient

/-! ## The number of vertices -/

/-- What no step of a loop changes is unchanged in the end. -/
theorem foldl_keeps {α β γ : Type} (measure : β → γ) {f : β → α → β} (h : ∀ b a, measure (f b a) = measure b)
    (l : List α) (b : β) : measure (l.foldl f b) = measure b := by
  induction l generalizing b with
  | nil => rfl
  | cons a l ih => rw [List.foldl_cons, ih, h]

theorem order_place (dense : Nat) (G : Quotient) (i : Nat) : (place dense G i).order = G.order := by
  unfold place
  simp only
  split
  · rfl
  · split
    · rfl
    · rfl

theorem order_ofGraph (graph : Graph) (dense : Nat) : (ofGraph graph dense).order = graph.size :=
  foldl_keeps order (order_place dense) _ _

theorem order_livingElements (G : Quotient) (pivot : Nat) (outside : Array (Option Nat)) (elements : List Nat) :
    (G.livingElements pivot outside elements).1.order = G.order := by
  unfold livingElements
  refine foldl_keeps (fun acc : Quotient × List Nat => acc.1.order) (fun acc e => ?_) elements (G, [])
  split
  · rfl
  · split
    · rfl
    · rfl

theorem order_visitVariable (pivot : Nat) (marked : Array Bool) (outside : Array (Option Nat)) (s : Visit) (i : Nat) :
    (visitVariable pivot marked outside s i).graph.order = s.graph.order := by
  have hliving := s.graph.order_livingElements pivot outside (s.graph.elementsOf i)
  unfold visitVariable
  simp only
  split
  · exact hliving
  · exact hliving

theorem order_mergeBucket (G : Quotient) (bucket : List Nat) : (G.mergeBucket bucket).order = G.order := by
  induction hlen : bucket.length using Nat.strongRecOn generalizing G bucket with
  | ind k ih =>
      cases bucket with
      | nil => rw [mergeBucket]
      | cons i rest =>
          rw [mergeBucket]
          refine (ih _ ?_ _ _ rfl).trans ?_
          · rw [← hlen]
            exact Nat.lt_succ_of_le (List.length_filter_le _ rest)
          · exact foldl_keeps order (f := fun G j => G.mergeVariable i j) (fun _ _ => rfl) _ G

theorem order_mergeLike (hashOf : Array Nat) (acc : Quotient × Array (List Nat)) (i : Nat) :
    (mergeLike hashOf acc i).1.order = acc.1.order := by
  unfold mergeLike
  split
  · rfl
  · exact order_mergeBucket _ _

theorem order_eliminate (G : Quotient) (pivot : Nat) : (G.eliminate pivot).order = G.order := by
  have hdelist : ∀ (l : List Nat) (G : Quotient), (l.foldl delist G).order = G.order :=
    foldl_keeps order fun _ _ => rfl
  have habsorb : ∀ (l : List Nat) (G : Quotient), (l.foldl (fun G e => G.absorbElement pivot e) G).order = G.order :=
    foldl_keeps order fun _ _ => rfl
  have hvisit : ∀ marked outside (l : List Nat) (s : Visit),
      (l.foldl (visitVariable pivot marked outside) s).graph.order = s.graph.order :=
    fun marked outside => foldl_keeps (fun s : Visit => s.graph.order) (order_visitVariable pivot marked outside)
  have hmerge : ∀ hashOf (l : List Nat) (acc : Quotient × Array (List Nat)),
      (l.foldl (mergeLike hashOf) acc).1.order = acc.1.order :=
    fun hashOf => foldl_keeps (fun acc : Quotient × Array (List Nat) => acc.1.order) (order_mergeLike hashOf)
  have hrestore : ∀ weight (l : List Nat) (G : Quotient), (l.foldl (restore weight) G).order = G.order :=
    fun _ => foldl_keeps order fun _ _ => rfl
  simp only [eliminate, hrestore, hmerge, hvisit, habsorb, hdelist]

theorem order_run (steps : Nat) (G : Quotient) : (G.run steps).order = G.order := by
  induction steps generalizing G with
  | zero => rfl
  | succ steps ih =>
      unfold run
      split
      · split
        · rfl
        · rw [ih, order_eliminate]
          rfl
      · rfl

/-! ## The vertices that are listed -/

variable {G : Quotient}

/-- What a loop picks from a list is in the list, if it picks anything new. -/
theorem mem_of_foldl_pick {pick : Option Nat → Nat → Option Nat}
    (hpick : ∀ best e, pick best e = best ∨ pick best e = some e) (l : List Nat) (best : Option Nat) {b : Nat}
    (h : l.foldl pick best = some b) : best = some b ∨ b ∈ l := by
  induction l generalizing best with
  | nil => exact .inl h
  | cons e l ih =>
      rcases ih _ h with hstep | hmem
      · rcases hpick best e with hold | hnew
        · exact .inl (hold.symm.trans hstep)
        · rw [hnew] at hstep
          exact .inr (Option.some.inj hstep ▸ List.mem_cons_self)
      · exact .inr (List.mem_cons_of_mem _ hmem)

theorem mem_largestLast {l : List Nat} {v : Nat} (h : v ∈ G.largestLast l) :
    v ∈ l := by
  unfold largestLast at h
  simp only at h
  generalize hlargest : l.foldl _ none = largest at h
  cases largest with
  | none => exact absurd h List.not_mem_nil
  | some b =>
      rcases List.mem_append.mp h with hrest | hlast
      · exact List.mem_of_mem_erase hrest
      · rw [List.mem_singleton.mp hlast]
        refine (mem_of_foldl_pick (fun best e => ?_) l none hlargest).resolve_left nofun
        cases best with
        | none => exact .inr rfl
        | some b =>
            dsimp only
            split
            · exact .inr rfl
            · exact .inl rfl

theorem postorder_lt (fuel : Nat) {e : Nat} (he : e < G.order) : ∀ v ∈ G.postorder fuel e, v < G.order := by
  induction fuel generalizing e with
  | zero => exact fun v hv => absurd hv List.not_mem_nil
  | succ fuel ih =>
      intro v hv
      rcases List.mem_append.mp hv with hbelow | hlast
      · obtain ⟨c, hc, hv⟩ := List.mem_flatMap.mp hbelow
        refine ih ?_ v hv
        exact List.mem_range.mp (List.mem_filter.mp (mem_largestLast hc)).1
      · rw [List.mem_singleton.mp hlast]
        exact he

theorem vertexOrder_lt : ∀ v ∈ G.vertexOrder, v < G.order := by
  have howned : ∀ p ∈ ((List.range G.order).filter fun i => G.weightOf i = 0).map fun i =>
      (i, G.owner (G.order + 1) i), p.1 < G.order := by
    intro p hp
    obtain ⟨i, hi, rfl⟩ := List.mem_map.mp hp
    exact List.mem_range.mp (List.mem_filter.mp hi).1
  intro v hv
  rcases List.mem_append.mp hv with hv | hv
  · obtain ⟨e, he, hv⟩ := List.mem_flatMap.mp hv
    rcases List.mem_append.mp hv with hv | hv
    · obtain ⟨p, hp, rfl⟩ := List.mem_map.mp hv
      exact howned p (List.mem_filter.mp hp).1
    · rw [List.mem_singleton.mp hv]
      obtain ⟨root, hroot, he⟩ := List.mem_flatMap.mp he
      exact postorder_lt _ (List.mem_range.mp (List.mem_filter.mp hroot).1) e he
  · obtain ⟨p, hp, rfl⟩ := List.mem_map.mp hv
    exact howned p (List.mem_filter.mp hp).1

end Quotient

theorem size_graph {T : Type} (A : SparseMatrix T) : (graph A).size = A.cols := by
  have hlink : ∀ (k : Nat) (l : List Nat) (g : Graph), (link g k l).size = g.size := fun k l g =>
    Quotient.foldl_keeps Array.size (fun g j => by rw [Array.size_modify, Array.size_modify]) l g
  rw [graph, Quotient.foldl_keeps Array.size (fun g k => hlink k (rowsAbove A k) g), Array.size_replicate]

/-- The order of elimination lists vertices of the graph. -/
theorem order_lt (graph : Graph) (denseScale : Float) : ∀ v ∈ order graph denseScale, v < graph.size := by
  have hlt := ((Quotient.ofGraph graph (denseLimit graph.size (denseFactor * denseScale))).run graph.size).vertexOrder_lt
  rw [Quotient.order_run, Quotient.order_ofGraph] at hlt
  exact hlt

end AugLag.Elimination
