import AugLag.Proofs.Newton.AugmentedWrites
import AugLag.Proofs.Newton.Engine

/-!
# Histories of the augmented system

An update of a factored system rewrites the rows that changed and, if the weight is new, the diagonal of the cost. It
ends as if the system had just been made and had never seen another request: with the same outcome, the same values and
the same factors, down to the last bit. All that is asked of the scalars is that positive ones are identical if they
compare as equal.
-/

namespace AugLag

/-- Positive scalars that compare as equal are identical. Zeros and NaN are not positive. -/
def ExactlyCompared (T : Type) [Scalar T] : Prop := ∀ a b : T, 0 < a → 0 < b → (a == b) = true → a = b

/-- The penalties and the weight are positive. -/
structure NewtonRequest.Positive {T : Type} [Scalar T] {m : Nat} (request : NewtonRequest T m) : Prop where
  sigma_pos : ∀ r, 0 < request.sigma.get r
  rho_pos : 0 < request.rho

namespace AugmentedSystem

open SparseMatrix Factorization

variable {T : Type} [Scalar T] {Q A : SparseMatrix T} {n m : Nat} {S S' S₀ : AugmentedSystem T n m}
variable {active active' : Vector Bool m} {sigma sigma' : Vector T m} {rho : T} {values values' : Array T} {r : Fin m}

/-! ## Slot by slot -/

theorem writeRow_eq_of_same (hactive : active.get r = active'.get r)
    (hsigma : active.get r = true → sigma.get r = sigma'.get r) :
    S.writeRow A active sigma values r = S.writeRow A active' sigma' values r := by
  unfold writeRow
  rw [← hactive]
  cases hr : active.get r with
  | false => rfl
  | true => rw [hsigma hr]

/-- Whatever is written before and after it, a row of the list ends up as if it were written alone. -/
theorem writeRows_row (h : Frame Q A S) (l : List (Fin m)) (hr : r ∈ l) (hs : values'.size = values.size) {p : Nat}
    (hp : p ∈ S.matrix.slots (n + r)) :
    (l.foldl (S.writeRow A active sigma) values').getD p 0 = (S.writeRow A active sigma values r).getD p 0 := by
  induction l generalizing values' with
  | nil => cases hr
  | cons r' l ih =>
      rw [List.foldl_cons]
      by_cases hmem : r ∈ l
      · exact ih hmem ((size_writeRow ..).trans hs)
      · obtain rfl := (List.mem_cons.mp hr).resolve_right hmem
        refine (writeRows_column h l (by omega) (fun r' hr' heq => hmem ?_) hp).trans (writeRow_congr h hs (.inl hp))
        rwa [Fin.ext (Nat.add_left_cancel heq)] at hr'

theorem assemble_row (h : Frame Q A S) {p : Nat} (hp : p ∈ S.matrix.slots (n + r)) :
    (S.assemble Q A active sigma rho).1.getD p 0 = (S.writeRow A active sigma S.matrix.values r).getD p 0 := by
  refine writeRows_row h _ (List.mem_finRange r) ?_ hp
  rw [size_foldl_modify _ (diagonalSlot S.matrix) fun _ x => x + rho, size_writeCost]

theorem assemble_cost (h : Frame Q A S) {j p : Nat} (hj : j < n) (hp : p ∈ S.matrix.slots j) :
    (S.assemble Q A active sigma rho).1.getD p 0 =
      if p = diagonalSlot S.matrix j then (S.writeCost Q).getD p 0 + rho else (S.writeCost Q).getD p 0 := by
  have hlt : p < (S.writeCost Q).size := (size_writeCost S Q) ▸ h.lt_size (by omega) hp
  refine (writeRows_column h _ (by omega) (fun _ _ => by omega) hp).trans ?_
  rw [getD_foldl_modify _ (diagonalSlot S.matrix) (fun _ x => x + rho) _ hlt, filter_diagonal h hj hp]
  split
  · rfl
  · rfl

theorem costDiag_assemble {j : Nat} (hj : j < n) :
    (S.assemble Q A active sigma rho).2.getD j 0 = (S.writeCost Q).getD (diagonalSlot S.matrix j) 0 := by
  simp [assemble, Array.getD_eq_getD_getElem?, hj]

/-! ## Systems with factors in place -/

/-- The values and the factors are those of the state that the system records. -/
structure Current (Q A : SparseMatrix T) (S : AugmentedSystem T n m) : Prop where
  recorded : NewtonRequest.Positive { active := S.active, sigma := S.sigma, rho := S.rho }
  values_eq : S.matrix.values = (S.assemble Q A S.active S.sigma S.rho).1
  costDiag_eq : S.costDiag = (S.assemble Q A S.active S.sigma S.rho).2
  holds : S.factors.stored.Holds S.matrix
  refactor_eq : S.factors.refactor = (S.factors, .ok ())
  positive_eq : S.factors.positive = n

/-- A row that is left alone is written in the same way for the new state. -/
theorem writeRow_of_unchanged (hT : ExactlyCompared T) (hsigma : ∀ r, 0 < sigma.get r) (hS : ∀ r, 0 < S.sigma.get r)
    (hr : ¬S.rowChanged active sigma r = true) :
    S.writeRow A active sigma values r = S.writeRow A S.active S.sigma values r := by
  refine writeRow_eq_of_same ?_ fun hactive => ?_
  · by_contra hne
    exact hr (by simp [rowChanged, hne])
  · refine hT _ _ (hsigma r) (hS r) ?_
    by_contra hne
    exact hr (by simp [rowChanged, hactive, hne])

theorem Current.reassemble_cost (hc : Current Q A S) (h : Frame Q A S) (hT : ExactlyCompared T) (hrho : 0 < rho)
    {j p : Nat} (hj : j < n) (hp : p ∈ S.matrix.slots j) :
    (S.shifted rho).getD p 0 = (S.assemble Q A active sigma rho).1.getD p 0 := by
  rw [assemble_cost h hj hp]
  by_cases hdiag : p = diagonalSlot S.matrix j
  · by_cases hsame : (rho == S.rho) = true
    · have hvalues : S.shifted rho = S.matrix.values := by rw [shifted, if_pos hsame, List.foldl_nil]
      rw [hvalues, hc.values_eq, assemble_cost h hj hp, hT rho S.rho hrho hc.recorded.rho_pos hsame]
    · rw [if_pos hdiag, hdiag, shifted_diagonal h hj hsame, hc.costDiag_eq, costDiag_assemble hj]
  · have hnone : ∀ i < n, diagonalSlot S.matrix i ≠ p := by
      intro i hi heq
      have hmem := (h.diagonal_slot i (by omega)).1
      rw [heq] at hmem
      obtain rfl := h.column_unique (by omega) (by omega) hmem hp
      exact hdiag heq.symm
    rw [if_neg hdiag, shifted_of_ne hnone, hc.values_eq, assemble_cost h hj hp, if_neg hdiag]

/-- The rows that changed and the diagonal are all that has to be written. -/
theorem Current.reassemble_eq (hc : Current Q A S) (h : Frame Q A S) (hT : ExactlyCompared T)
    (hsigma : ∀ r, 0 < sigma.get r) (hrho : 0 < rho) :
    (S.reassemble A active sigma rho).1 = (S.assemble Q A active sigma rho).1 := by
  refine array_ext_getD 0 (by rw [size_reassemble, size_assemble]) fun p hp => ?_
  rw [size_reassemble] at hp
  obtain ⟨j, hj, hpj⟩ := h.matrix.exists_column hp
  rw [h.matrix_cols] at hj
  by_cases hjn : j < n
  · refine (writeRows_column h _ hj (fun _ _ => by omega) hpj).trans ?_
    exact hc.reassemble_cost h hT hrho hjn hpj
  · obtain ⟨r, rfl⟩ : ∃ r : Fin m, n + r = j := ⟨⟨j - n, by omega⟩, by simp; omega⟩
    rw [assemble_row h hpj]
    by_cases hr : S.rowChanged active sigma r = true
    · exact writeRows_row h _ (List.mem_filter.mpr ⟨List.mem_finRange r, hr⟩) (size_shifted S rho) hpj
    · have hrest : (S.reassemble A active sigma rho).1.getD p 0 = (S.shifted rho).getD p 0 := by
        refine writeRows_column h _ hj (fun r' hr' heq => hr ?_) hpj
        rw [← Fin.ext (Nat.add_left_cancel heq)]
        exact (List.mem_filter.mp hr').2
      have hnone : ∀ i < n, diagonalSlot S.matrix i ≠ p := by
        intro i hi heq
        have := h.eq_of_diagonalSlot_eq (by omega) hj hpj heq
        omega
      rw [hrest, shifted_of_ne hnone, writeRow_of_unchanged hT hsigma hc.recorded.sigma_pos hr]
      conv_lhs => rw [hc.values_eq]
      exact assemble_row h hpj

/-- An update of all slots leaves a system that is in line with its state, if it succeeds. -/
theorem current_of_update (hb : Built Q A S) (hS : S.factored = false) (hsigma : ∀ r, 0 < sigma.get r)
    (hrho : 0 < rho) (hok : (S.update Q A active sigma rho).2 = .ok ()) :
    Current Q A (S.update Q A active sigma rho).1 := by
  have hsize := size_assemble S Q A active sigma rho
  have hnnz : S.matrix.nnz = S.matrix.values.size := hb.frame.matrix.nnz_eq
  have hfitted := hb.fitted.updateValues (List.range S.matrix.nnz)
    ((List.range S.matrix.nnz).map fun k => (S.assemble Q A active sigma rho).1.getD k 0)
  have hinside : ∀ k ∈ List.range S.matrix.nnz, k < S.matrix.values.size := fun k hk => hnnz ▸ List.mem_range.mp hk
  have hholds := hb.fitted.holds_updateValues hsize hinside fun k hk hnot =>
    absurd (List.mem_range.mpr (hnnz.symm ▸ hk)) hnot
  rw [update_of_not_factored hS] at hok ⊢
  generalize hU : S.factors.updateValues (List.range S.matrix.nnz)
    ((List.range S.matrix.nnz).map fun k => (S.assemble Q A active sigma rho).1.getD k 0) = U at hfitted hholds
  generalize hresult : (S.assembled Q A active sigma rho).factorChanged (List.range (S.assembled Q A active sigma rho).matrix.nnz) = result at hok ⊢
  obtain ⟨S', outcome⟩ := result
  obtain ⟨rfl, hcases⟩ := factorChanged_cases hU hresult
  obtain ⟨-, hshape, hsame, -⟩ := hfitted.shape.refactor_congr hfitted.shape (SameAnalysis.refl U)
  obtain ⟨hagain, -, -, hequal⟩ := hfitted.shape.refactor_congr hshape hsame
  rcases hcases with ⟨hUok, ⟨hpositive, rfl⟩ | ⟨-, rfl⟩⟩ | ⟨e, -, rfl⟩
  · exact
      { recorded := ⟨hsigma, hrho⟩
        values_eq := (congrArg Prod.fst (assemble_congr hb.frame hsize)).symm
        costDiag_eq := (congrArg Prod.snd (assemble_congr hb.frame hsize)).symm
        holds := fun k hk => by
          rw [hsame.stored]
          exact hholds k hk
        refactor_eq := Prod.ext (hequal hUok) (hagain.trans hUok)
        positive_eq := hpositive }
  · cases hok
  · cases hok

/-- Whichever slots are listed, the stored values of the factors become those of the new state. -/
theorem Current.updateValues_eq (hc : Current Q A S) (hb : Built Q A S) (hT : ExactlyCompared T)
    (hsigma : ∀ r, 0 < sigma.get r) (hrho : 0 < rho) :
    S.factors.updateValues (S.reassemble A active sigma rho).2
        ((S.reassemble A active sigma rho).2.map fun k => (S.assemble Q A active sigma rho).1.getD k 0) =
      S.factors.updateValues (List.range S.matrix.nnz)
        ((List.range S.matrix.nnz).map fun k => (S.assemble Q A active sigma rho).1.getD k 0) := by
  have hsize := size_assemble S Q A active sigma rho
  have hnnz : S.matrix.nnz = S.matrix.values.size := hb.frame.matrix.nnz_eq
  refine hb.fitted.updateValues_eq_of_holds hsize (hb.fitted.holds_updateValues hsize ?_ ?_)
    (hb.fitted.holds_updateValues hsize ?_ ?_)
  · exact fun k hk => reassemble_slot_lt hb.frame hk
  · intro k hk hnot
    rw [← hc.reassemble_eq hb.frame hT hsigma hrho, reassemble_of_notMem hb.frame hnot]
    exact hc.holds k hk
  · intro k hk
    rw [List.mem_range, hnnz] at hk
    exact hk
  · intro k hk hnot
    rw [List.mem_range, hnnz] at hnot
    exact absurd hk hnot

/-- The matrix and its factors are the same, down to the last bit. What is recorded besides may differ. -/
structure Agrees (S S' : AugmentedSystem T n m) : Prop where
  matrix : S'.matrix = S.matrix
  factors : S'.factors = S.factors

/-- With factors in place an update finds nothing to do, which agrees with an update of all slots, or it is one. -/
theorem Current.update_cases (hc : Current Q A S) (hb : Built Q A S) (hS : S.factored = true)
    (hT : ExactlyCompared T) (hsigma : ∀ r, 0 < sigma.get r) (hrho : 0 < rho) (active : Vector Bool m) :
    (S.update Q A active sigma rho = (S, .ok ()) ∧ (S.invalidate.update Q A active sigma rho).2 = .ok () ∧
        Agrees (S.invalidate.update Q A active sigma rho).1 S) ∨
      S.update Q A active sigma rho = S.invalidate.update Q A active sigma rho := by
  have hvalues : (S.reassemble A active sigma rho).1 = (S.assemble Q A active sigma rho).1 :=
    hc.reassemble_eq hb.frame hT hsigma hrho
  have hdiag : S.costDiag = (S.assemble Q A active sigma rho).2 := hc.costDiag_eq
  have hstored : (S.assembled Q A active sigma rho).factorChanged (List.range S.matrix.nnz) =
      (S.assembled Q A active sigma rho).factorChanged (S.reassemble A active sigma rho).2 :=
    factorChanged_of_stored (hc.updateValues_eq hb hT hsigma hrho).symm
  have hscratch : S.invalidate.update Q A active sigma rho =
      (S.assembled Q A active sigma rho).factorChanged (S.reassemble A active sigma rho).2 :=
    (update_of_not_factored rfl).trans hstored
  rw [hscratch, update, if_pos hS]
  cases hslots : (S.reassemble A active sigma rho).2 with
  | nil =>
      -- Nothing is written and nothing is factored, but both would have led to the same.
      have hsame : (S.assemble Q A active sigma rho).1 = S.matrix.values := by
        rw [← hvalues]
        refine array_ext_getD 0 (size_reassemble ..) fun p _ => reassemble_of_notMem hb.frame ?_
        rw [hslots]
        exact List.not_mem_nil
      have hend : (S.assembled Q A active sigma rho).factorChanged [] =
          ({ S.assembled Q A active sigma rho with factored := true }, .ok ()) := by
        have hrefactor : (S.factors.updateValues [] []).refactor = (S.factors, .ok ()) := hc.refactor_eq
        unfold AugmentedSystem.factorChanged
        simp only [AugmentedSystem.assembled, List.map_nil, hrefactor, hc.positive_eq, if_true]
        rfl
      rw [hend]
      refine .inl ⟨by simp only [hslots, List.isEmpty_nil, if_true], rfl, { matrix := ?_, factors := rfl }⟩
      show S.matrix = { S.matrix with values := (S.assemble Q A active sigma rho).1 }
      rw [hsame]
  | cons p slots =>
      have hstate : ({ S with
          matrix := { S.matrix with values := (S.reassemble A active sigma rho).1 }, active, sigma, rho } :
            AugmentedSystem T n m) = S.assembled Q A active sigma rho := by
        unfold AugmentedSystem.assembled
        rw [hvalues, ← hdiag]
      simp only [hslots, hstate]
      exact .inr rfl

/-! ## Histories -/

/-- Brings the system in line with a request. -/
def answer (S : AugmentedSystem T n m) (Q A : SparseMatrix T) (request : NewtonRequest T m) :
    AugmentedSystem T n m × Except NewtonError Unit :=
  S.update Q A request.active request.sigma request.rho

/-- A system after a sequence of calls, and its last request if that was answered. -/
inductive History (Q A : SparseMatrix T) {n m : Nat} (S₀ : AugmentedSystem T n m) :
    AugmentedSystem T n m → Option (NewtonRequest T m) → Prop
  | opened : History Q A S₀ S₀ none
  | answered {S : AugmentedSystem T n m} {last : Option (NewtonRequest T m)} {request : NewtonRequest T m} :
      History Q A S₀ S last → request.Positive → (S.answer Q A request).2 = .ok () →
      History Q A S₀ (S.answer Q A request).1 (some request)
  | refused {S : AugmentedSystem T n m} {last : Option (NewtonRequest T m)} {request : NewtonRequest T m}
      {e : NewtonError} : History Q A S₀ S last → request.Positive → (S.answer Q A request).2 = .error e →
      History Q A S₀ (S.answer Q A request).1 none
  | invalidated {S : AugmentedSystem T n m} {last : Option (NewtonRequest T m)} :
      History Q A S₀ S last → History Q A S₀ S.invalidate last

/-- The invariant of a history that began with the system `S₀`. -/
structure Follows (Q A : SparseMatrix T) (S₀ S : AugmentedSystem T n m) (last : Option (NewtonRequest T m)) : Prop where
  built : Built Q A S
  siblings : Siblings S₀ S
  current : S.factored = true → Current Q A S
  agrees : ∀ request, last = some request →
    (S₀.answer Q A request).2 = .ok () ∧ Agrees (S₀.answer Q A request).1 S

/-- A new system, as it is before its first request. -/
structure Fresh (Q A : SparseMatrix T) (S₀ : AugmentedSystem T n m) : Prop where
  built : Built Q A S₀
  not_factored : S₀.factored = false

variable {last : Option (NewtonRequest T m)} {request : NewtonRequest T m}

theorem factored_update (h : (S.update Q A active sigma rho).1.factored = true) :
    (S.update Q A active sigma rho).2 = .ok () := by
  have hchanged : ∀ (S : AugmentedSystem T n m) (slots : List Nat), (S.factorChanged slots).1.factored = true →
      (S.factorChanged slots).2 = .ok () := by
    intro S slots htrue
    generalize hresult : S.factorChanged slots = result at htrue ⊢
    obtain ⟨S', outcome⟩ := result
    obtain ⟨rfl, -⟩ := factorChanged_cases rfl hresult
    cases outcome with
    | ok u => rfl
    | error e => cases htrue
  unfold AugmentedSystem.update at h ⊢
  split at h
  · simp only at h ⊢
    split at h
    · rename_i hfactored hempty
      rw [if_pos hfactored, if_pos hempty]
    · rename_i hfactored hempty
      rw [if_pos hfactored, if_neg hempty]
      exact hchanged _ _ h
  · rename_i hfactored
    rw [if_neg hfactored]
    exact hchanged _ _ h

/-- Without factors in place a system answers as a new one. -/
theorem Fresh.answer_eq (h₀ : Fresh Q A S₀) (hb : Built Q A S) (hs : Siblings S₀ S) (hS : S.factored = false)
    (request : NewtonRequest T m) :
    (S.answer Q A request).2 = (S₀.answer Q A request).2 ∧
      ((S₀.answer Q A request).2 = .ok () → (S.answer Q A request).1 = (S₀.answer Q A request).1) := by
  have hend := h₀.built.update_congr hb hs h₀.not_factored hS request.active request.sigma request.rho
  unfold answer
  generalize S₀.update Q A request.active request.sigma request.rho = out₀ at hend ⊢
  generalize S.update Q A request.active request.sigma request.rho = out at hend ⊢
  cases hend with
  | done S₁ => exact ⟨rfl, fun _ => rfl⟩
  | failed e hS₁ hS₁' => exact ⟨rfl, nofun⟩

/-- One request. -/
theorem Follows.answer_spec (h : Follows Q A S₀ S last) (h₀ : Fresh Q A S₀) (hT : ExactlyCompared T)
    (hpos : request.Positive) :
    (S.answer Q A request).2 = (S₀.answer Q A request).2 ∧
      ((S₀.answer Q A request).2 = .ok () → Agrees (S₀.answer Q A request).1 (S.answer Q A request).1) ∧
      ((S.answer Q A request).1.factored = true → Current Q A (S.answer Q A request).1) := by
  have hunfactored : ∀ S' : AugmentedSystem T n m, Built Q A S' → Siblings S₀ S' → S'.factored = false →
      (S'.answer Q A request).2 = (S₀.answer Q A request).2 ∧
        ((S₀.answer Q A request).2 = .ok () → Agrees (S₀.answer Q A request).1 (S'.answer Q A request).1) ∧
        ((S'.answer Q A request).1.factored = true → Current Q A (S'.answer Q A request).1) := by
    intro S' hb hs hS'
    obtain ⟨houtcome, hequal⟩ := h₀.answer_eq hb hs hS' request
    refine ⟨houtcome, fun hok => ?_, fun htrue => ?_⟩
    · rw [hequal hok]
      exact ⟨rfl, rfl⟩
    · exact current_of_update hb hS' hpos.sigma_pos hpos.rho_pos (factored_update htrue)
  cases hS : S.factored with
  | false => exact hunfactored S h.built h.siblings hS
  | true =>
      obtain ⟨hb, hs⟩ := h.built.invalidate
      obtain ⟨houtcome, hagrees, hcurrent⟩ := hunfactored S.invalidate hb (h.siblings.trans hs) rfl
      rcases (h.current hS).update_cases h.built hS hT hpos.sigma_pos hpos.rho_pos request.active with
        ⟨hnothing, hok, hsame⟩ | hall
      · have hanswer : S.answer Q A request = (S, .ok ()) := hnothing
        have hok₀ : (S₀.answer Q A request).2 = .ok () := houtcome.symm.trans hok
        have hagrees₀ := hagrees hok₀
        rw [hanswer]
        refine ⟨hok₀.symm, fun _ => ?_, h.current⟩
        exact { matrix := hsame.matrix.trans hagrees₀.matrix, factors := hsame.factors.trans hagrees₀.factors }
      · have hanswer : S.answer Q A request = S.invalidate.answer Q A request := hall
        rw [hanswer]
        exact ⟨houtcome, hagrees, hcurrent⟩

/-- All requests. -/
theorem History.follows (h : History Q A S₀ S last) (h₀ : Fresh Q A S₀) (hT : ExactlyCompared T) :
    Follows Q A S₀ S last := by
  induction h with
  | opened =>
      refine { built := h₀.built, siblings := Siblings.refl S₀, current := fun htrue => ?_, agrees := nofun }
      rw [h₀.not_factored] at htrue
      cases htrue
  | @answered S last request _ hpos hok ih =>
      obtain ⟨hbuilt, hsiblings⟩ := ih.built.update request.active request.sigma request.rho
      obtain ⟨houtcome, hagrees, hcurrent⟩ := ih.answer_spec h₀ hT hpos
      have hok₀ := houtcome.symm.trans hok
      refine { built := hbuilt, siblings := ih.siblings.trans hsiblings, current := hcurrent, agrees := ?_ }
      intro request' heq
      obtain rfl := Option.some.inj heq
      exact ⟨hok₀, hagrees hok₀⟩
  | @refused S last request e _ hpos _ ih =>
      obtain ⟨hbuilt, hsiblings⟩ := ih.built.update request.active request.sigma request.rho
      obtain ⟨-, -, hcurrent⟩ := ih.answer_spec h₀ hT hpos
      exact { built := hbuilt, siblings := ih.siblings.trans hsiblings, current := hcurrent, agrees := nofun }
  | @invalidated S last _ ih =>
      obtain ⟨hbuilt, hsiblings⟩ := ih.built.invalidate
      refine { built := hbuilt, siblings := ih.siblings.trans hsiblings, current := nofun, agrees := ?_ }
      intro request heq
      obtain ⟨hok, hagrees⟩ := ih.agrees request heq
      exact ⟨hok, { matrix := hagrees.matrix, factors := hagrees.factors }⟩

theorem fresh_of_ofProblem [Elimination.Rule] (data : NewtonData Q A n m) (hS₀ : ofProblem Q A n m = .ok S₀) :
    Fresh Q A S₀ := by
  refine ⟨built_of_ofProblem data hS₀, ?_⟩
  obtain ⟨F, -, rfl⟩ := ofProblem_eq_ok.mp hS₀
  rfl

/-- After any history a request is answered as by a new system, and the last one that was answered left the matrix, the
factors and all solutions of a new system that has seen nothing else. -/
theorem History.answers_as_fresh [Elimination.Rule] (h : History Q A S₀ S last) (data : NewtonData Q A n m)
    (hS₀ : ofProblem Q A n m = .ok S₀) (hT : ExactlyCompared T) :
    (∀ request, last = some request → (S₀.answer Q A request).2 = .ok () ∧
        S.matrix = (S₀.answer Q A request).1.matrix ∧ S.factors = (S₀.answer Q A request).1.factors ∧
        ∀ rhs, S.solve rhs = (S₀.answer Q A request).1.solve rhs) ∧
      ∀ request : NewtonRequest T m, request.Positive → (S.answer Q A request).2 = (S₀.answer Q A request).2 := by
  have h₀ := fresh_of_ofProblem data hS₀
  have hfollows := h.follows h₀ hT
  refine ⟨fun request heq => ?_, fun request hpos => (hfollows.answer_spec h₀ hT hpos).1⟩
  obtain ⟨hok, hagrees⟩ := hfollows.agrees request heq
  refine ⟨hok, hagrees.matrix, hagrees.factors, fun rhs => ?_⟩
  unfold solve
  rw [hagrees.factors]

namespace Sample

open NewtonEngine.Sample

theorem exactlyCompared : ExactlyCompared ℚ := fun _ _ _ _ heq => eq_of_beq heq

theorem positive_both : both.Positive := ⟨both_positive, show (0 : ℚ) < 1 / 2 by norm_num⟩

theorem positive_second : second.Positive := ⟨second_positive, show (0 : ℚ) < 1 / 2 by norm_num⟩

theorem positive_released : released.Positive := ⟨released_positive, show (0 : ℚ) < 1 / 2 by norm_num⟩

/-- Two requests are answered, the second one in place, and then one is refused. -/
def answersTwo (S : AugmentedSystem ℚ 2 2) : Bool :=
  let first := S.answer cost constraints both
  let next := first.1.answer cost constraints second
  first.2.toBool && next.2.toBool && !(next.1.answer cost constraints released).2.toBool

theorem answersTwo_opened : (((ofProblem cost constraints 2 2).toOption.any answersTwo) = true) := by
  decide +kernel

end Sample

open Sample NewtonEngine.Sample in
/-- A system that was changed in place agrees with a new one, and so does the next answer after a refusal. -/
theorem History.answers_as_fresh_sample :
    ∃ S₀ S S' : AugmentedSystem ℚ 2 2, ofProblem cost constraints 2 2 = .ok S₀ ∧
      History cost constraints S₀ S (some second) ∧ History cost constraints S₀ S' none ∧
      (S.matrix = (S₀.answer cost constraints second).1.matrix ∧
        S.factors = (S₀.answer cost constraints second).1.factors) ∧
      (S'.answer cost constraints both).2 = (S₀.answer cost constraints both).2 := by
  have htest := answersTwo_opened
  cases hopen : (ofProblem cost constraints 2 2 : Except NewtonError (AugmentedSystem ℚ 2 2)) with
  | error e =>
      rw [hopen] at htest
      cases htest
  | ok S₀ =>
      rw [hopen] at htest
      replace htest : answersTwo S₀ = true := htest
      obtain ⟨⟨hboth, hsecond⟩, hreleased⟩ : ((S₀.answer cost constraints both).2.toBool = true ∧
          ((S₀.answer cost constraints both).1.answer cost constraints second).2.toBool = true) ∧
          (((S₀.answer cost constraints both).1.answer cost constraints second).1.answer cost constraints
            released).2.toBool = false := by
        simpa [answersTwo] using htest
      have hopened : History cost constraints S₀ S₀ none := .opened
      have hfirst := hopened.answered positive_both (eq_ok_of_toBool hboth)
      have hnext := hfirst.answered positive_second (eq_ok_of_toBool hsecond)
      obtain ⟨e, herror⟩ := exists_error_of_toBool hreleased
      have hrefused := hnext.refused positive_released herror
      obtain ⟨-, hmatrix, hfactors, -⟩ := (History.answers_as_fresh hnext data hopen exactlyCompared).1 second rfl
      have hagain := (History.answers_as_fresh hrefused data hopen exactlyCompared).2 both positive_both
      exact ⟨S₀, _, _, rfl, hnext, hrefused, ⟨hmatrix, hfactors⟩, hagain⟩

end AugmentedSystem
end AugLag
