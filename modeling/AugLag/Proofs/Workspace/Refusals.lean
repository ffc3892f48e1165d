import AugLag.Proofs.Workspace.Verdict

/-!
# Refused calls

What a call leaves behind that is refused. A new cost, new bounds and new settings are taken as a whole or not at all. A
starting point is taken part by part, the primal one first: where only the dual part is refused, the primal one has been
replaced. Nothing here depends on how the scalars calculate.
-/

namespace AugLag

variable {T : Type} {n m : Nat}

/-- A change that a workspace is asked for. -/
inductive Revision (T : Type)
  | start (x y : Option (Array T))
  | cost (q : Array T)
  | bounds (lower upper : Option (Array T))
  | settings (c : Settings T)

/-- No dual point is given, so that there is only one part to be refused. -/
def Revision.Undivided (u : Revision T) : Prop := ∀ x y, u ≠ .start x (some y)

/-! ## A sample -/

namespace Sample

/-- The sample at its solution, where a solve may take one step at most. -/
def settled : Workspace ℚ :=
  (((opened bounded).updateSettings { settings with maxIter := 1 }).1.warmStart (some #[2]) none).1

def primalStart (w : Workspace ℚ) : Option (Array ℚ) := w.prepared.map fun p => p.solver.xStart.toArray

/-- Of the calls that are made of the sample, two are refused, and the starting point among them costs a solve a step. -/
theorem settled_checked :
    (Workspace.setup bounded settings 10).1.toBool = true ∧ (opened bounded).dims = some (1, 1) ∧
      ((opened bounded).updateSettings { settings with maxIter := 1 }).2 = .ok () ∧
      (((opened bounded).updateSettings { settings with maxIter := 1 }).1.warmStart (some #[2]) none).2 = .ok () ∧
      (settled.updateBounds (some #[5]) none).2 = .error (.inconsistentBounds 0) ∧
      (settled.warmStart (some #[-100]) (some #[])).2 = .error (.dimensionMismatch .dualPoint 1 0) ∧
      (settled.warmStart (some #[2]) none).2 = .ok () ∧
      primalStart (settled.warmStart (some #[-100]) (some #[])).1 ≠ primalStart settled ∧
      iterations settled = some 0 ∧ iterations (settled.warmStart (some #[-100]) (some #[])).1 = some 1 := by
  decide +kernel

theorem session_settled : Session 10 settled (bounded.posed 1 1) := by
  obtain ⟨hsetup, hdims, hsettings, hstart, -⟩ := settled_checked
  exact .warmStart (.updateSettings (session_opened bounded hsetup hdims) hsettings) hstart

end Sample

variable [Scalar T]

/-! ## The parts of a starting point -/

namespace Solver

def primalStart (S : Solver T n m) (x : Option (Array T)) : Except UpdateError (Vector T n) :=
  match x with
  | some x => (finiteVector .primalPoint n x).map S.program.scaling.scalePrimal
  | none => .ok (Vec.zeros n)

def dualStart (S : Solver T n m) (y : Option (Array T)) : Except UpdateError (Vector T m) :=
  match y with
  | some y => (finiteVector .dualPoint m y).map S.program.scaling.scaleDual
  | none => .ok (Vec.zeros m)

/-- The primal part is taken before the dual part is looked at. -/
theorem warmStart_eq_parts (S : Solver T n m) (x y : Option (Array T)) : S.warmStart x y =
    match S.primalStart x, S.dualStart y with
    | .error e, _ => (S, .error e)
    | .ok xStart, .error e => ({ S with xStart }, .error e)
    | .ok xStart, .ok yStart => ({ S with xStart, yStart }, .ok ()) := rfl

/-- The primal part that was there before does not show once another one is taken. -/
theorem warmStart_of_displaced (S : Solver T n m) (xStart : Vector T n) {x : Option (Array T)} {v : Vector T n}
    (hx : S.primalStart x = .ok v) (y : Option (Array T)) :
    ({ S with xStart } : Solver T n m).warmStart x y = S.warmStart x y := by
  have hparts : ({ S with xStart } : Solver T n m).primalStart x = S.primalStart x ∧
      ({ S with xStart } : Solver T n m).dualStart y = S.dualStart y := ⟨rfl, rfl⟩
  rw [warmStart_eq_parts, warmStart_eq_parts, hparts.1, hparts.2, hx]
  cases S.dualStart y with
  | error e => rfl
  | ok u => rfl

/-! The other calls carry a primal part along without looking at it. -/

theorem updateCost_of_displaced (S : Solver T n m) (xStart : Vector T n) (q : Array T) :
    ({ S with xStart } : Solver T n m).updateCost q = (S.updateCost q).map fun S' => { S' with xStart } := by
  unfold updateCost
  cases finiteVector ProblemPart.linearCost n q with
  | error e => rfl
  | ok v => rfl

theorem updateBounds_of_displaced (S : Solver T n m) (xStart : Vector T n) (lower upper : Option (Array T)) :
    ({ S with xStart } : Solver T n m).updateBounds lower upper =
      (S.updateBounds lower upper).map fun S' => { S' with xStart } := by
  rw [updateBounds_eq, updateBounds_eq]
  generalize boundsOr .lowerBounds lower _ = l
  generalize boundsOr .upperBounds upper _ = u
  cases l with
  | error e => rfl
  | ok l =>
      cases u with
      | error e => rfl
      | ok u =>
          simp only [bind, Except.bind]
          cases inconsistentBound? l.toArray u.toArray with
          | some i => rfl
          | none => rfl

theorem updateSettings_of_displaced (S : Solver T n m) (xStart : Vector T n) (c : Settings T) :
    ({ S with xStart } : Solver T n m).updateSettings c = (S.updateSettings c).map fun S' => { S' with xStart } := by
  unfold updateSettings
  cases (c.validateAsUpdate S.settings).mapError UpdateError.badSettings with
  | error e => rfl
  | ok u => rfl

end Solver

/-! ## One call -/

namespace Workspace

def revise (w : Workspace T) : Revision T → Workspace T × Except UpdateError Unit
  | .start x y => w.warmStart x y
  | .cost q => w.updateCost q
  | .bounds lower upper => w.updateBounds lower upper
  | .settings c => w.updateSettings c

/-- A new starting point whose primal part can be taken, and is not the one that is stored. The last workspace is the
first one with this part in place. -/
inductive Displaces : Workspace T → Revision T → Workspace T → Prop
  | start {w : Workspace T} {n m : Nat} {S : Solver T n m} {x y : Option (Array T)} {xStart : Vector T n} :
      w.prepared = some ⟨n, m, S⟩ → S.primalStart x = .ok xStart → xStart ≠ S.xStart →
      Displaces w (.start x y) { w with prepared := some ⟨n, m, { S with xStart }⟩ }

variable {w w' : Workspace T} {u : Revision T} {e : UpdateError}

theorem not_displaces (hu : ∀ x y, u ≠ .start x y) (w' : Workspace T) : ¬Displaces w u w' := by
  intro h
  cases h with
  | start _ _ _ => exact hu _ _ rfl

theorem Displaces.eq_start {x y : Option (Array T)} {S : Solver T n m} (h : Displaces w (.start x y) w')
    (hw : w.prepared = some ⟨n, m, S⟩) : ∃ xStart, S.primalStart x = .ok xStart ∧ xStart ≠ S.xStart ∧
      w' = { w with prepared := some ⟨n, m, { S with xStart }⟩ } := by
  cases h with
  | start hw' hx hne =>
      rw [hw] at hw'
      cases hw'
      exact ⟨_, hx, hne, rfl⟩

theorem Displaces.eq {w'' : Workspace T} (h : Displaces w u w') (h' : Displaces w u w'') : w' = w'' := by
  cases h with
  | start hw hx _ =>
      obtain ⟨xStart, hx', -, rfl⟩ := h'.eq_start hw
      rw [hx] at hx'
      cases hx'
      rfl

theorem Displaces.ne (h : Displaces w u w') : w' ≠ w := by
  cases h with
  | start hw _ hne =>
      intro heq
      have hprepared := (congrArg Workspace.prepared heq).trans hw
      simp only [Option.some.injEq, Prepared.mk.injEq, heq_eq_eq, true_and] at hprepared
      exact hne (congrArg Solver.xStart hprepared)

omit [Scalar T] in
theorem change_refused {f : {n m : Nat} → Solver T n m → Except UpdateError (Solver T n m)}
    (h : (w.change f).2 = .error e) : (w.change f).1 = w := by
  unfold change at h ⊢
  split
  · rfl
  · next p hw =>
      rw [hw] at h
      simp only at h ⊢
      split
      · rfl
      · next S' hS' =>
          rw [hS'] at h
          cases h

/-- A refused starting point either leaves everything as it was, or its primal part in place of the old one. -/
theorem warmStart_refused {x y : Option (Array T)} (h : (w.warmStart x y).2 = .error e) :
    ((w.warmStart x y).1 = w ∧ ∀ w', ¬Displaces w (.start x y) w') ∨
      Displaces w (.start x y) (w.warmStart x y).1 := by
  cases hw : w.prepared with
  | none =>
      refine .inl ⟨?_, fun w' hdisplaces => ?_⟩
      · unfold warmStart
        rw [hw]
      · cases hdisplaces with
        | start hw' _ _ => exact nomatch hw.symm.trans hw'
  | some p =>
      obtain ⟨n, m, S⟩ := p
      have hsame : { w with prepared := some ⟨n, m, S⟩ } = w := by rw [← hw]
      rw [warmStart_of_prepared hw, Solver.warmStart_eq_parts] at h ⊢
      cases hx : S.primalStart x with
      | error e =>
          refine .inl ⟨hsame, fun w' hdisplaces => ?_⟩
          obtain ⟨xStart, hx', -⟩ := hdisplaces.eq_start hw
          exact nomatch hx.symm.trans hx'
      | ok xStart =>
          cases hy : S.dualStart y with
          | ok yStart =>
              rw [hx, hy] at h
              cases h
          | error e =>
              by_cases hstored : xStart = S.xStart
              · subst hstored
                refine .inl ⟨hsame, fun w' hdisplaces => ?_⟩
                obtain ⟨xStart, hx', hne, -⟩ := hdisplaces.eq_start hw
                exact hne (Except.ok.inj (hx'.symm.trans hx))
              · exact .inr (.start hw hx hstored)

theorem revise_refused (h : (w.revise u).2 = .error e) :
    ((w.revise u).1 = w ∧ ∀ w', ¬Displaces w u w') ∨ Displaces w u (w.revise u).1 := by
  cases u with
  | start x y => exact warmStart_refused h
  | cost q =>
      simp only [revise, updateCost] at h ⊢
      exact .inl ⟨change_refused h, not_displaces (by simp)⟩
  | bounds lower upper =>
      simp only [revise, updateBounds] at h ⊢
      exact .inl ⟨change_refused h, not_displaces (by simp)⟩
  | settings c =>
      simp only [revise, updateSettings] at h ⊢
      exact .inl ⟨change_refused h, not_displaces (by simp)⟩

/-! ## Later calls -/

/-- The second workspace is the first one, its primal starting point aside. -/
inductive Resembles : Workspace T → Workspace T → Prop
  | refl (w : Workspace T) : Resembles w w
  | start {w : Workspace T} {n m : Nat} {S : Solver T n m} (xStart : Vector T n) :
      w.prepared = some ⟨n, m, S⟩ → Resembles w { w with prepared := some ⟨n, m, { S with xStart }⟩ }

theorem Displaces.resembles (h : Displaces w u w') : Resembles w w' := by
  cases h with
  | start hw _ _ => exact .start _ hw

theorem resembles_of_refused (h : (w.revise u).2 = .error e) : Resembles w (w.revise u).1 := by
  rcases revise_refused h with ⟨heq, -⟩ | hdisplaces
  · rw [heq]
    exact .refl w
  · exact hdisplaces.resembles

namespace Resembles

omit [Scalar T] in
theorem change {f : {n m : Nat} → Solver T n m → Except UpdateError (Solver T n m)}
    (hf : ∀ {n m : Nat} (S : Solver T n m) (xStart : Vector T n),
      f { S with xStart } = (f S).map fun S' => { S' with xStart }) (h : Resembles w w') :
    (w'.change f).2 = (w.change f).2 ∧ Resembles (w.change f).1 (w'.change f).1 := by
  cases h with
  | refl => exact ⟨rfl, .refl _⟩
  | @start n m S xStart hw =>
      unfold Workspace.change
      rw [hw]
      simp only [hf S xStart]
      cases f S with
      | error e => exact ⟨rfl, .start xStart hw⟩
      | ok S' => exact ⟨rfl, .start xStart rfl⟩

theorem warmStart (h : Resembles w w') (x y : Option (Array T)) :
    (w'.warmStart x y).2 = (w.warmStart x y).2 ∧ Resembles (w.warmStart x y).1 (w'.warmStart x y).1 := by
  cases h with
  | refl => exact ⟨rfl, .refl _⟩
  | @start n m S xStart hw =>
      rw [warmStart_of_prepared hw, warmStart_of_prepared rfl]
      cases hx : S.primalStart x with
      | error e =>
          have hx' : ({ S with xStart } : Solver T n m).primalStart x = .error e := hx
          rw [Solver.warmStart_eq_parts, Solver.warmStart_eq_parts, hx, hx']
          exact ⟨rfl, .start xStart rfl⟩
      | ok v =>
          rw [S.warmStart_of_displaced xStart hx y]
          exact ⟨rfl, .refl _⟩

/-- A starting point that is accepted makes up for the difference. -/
theorem warmStart_eq (h : Resembles w w') {x y : Option (Array T)} (hok : (w.warmStart x y).2 = .ok ()) :
    w'.warmStart x y = w.warmStart x y := by
  cases h with
  | refl => rfl
  | @start n m S xStart hw =>
      rw [warmStart_of_prepared hw] at hok ⊢
      rw [warmStart_of_prepared rfl]
      cases hx : S.primalStart x with
      | error e =>
          rw [Solver.warmStart_eq_parts, hx] at hok
          cases hok
      | ok v => rw [S.warmStart_of_displaced xStart hx y]

theorem revise (h : Resembles w w') (u : Revision T) :
    (w'.revise u).2 = (w.revise u).2 ∧ Resembles (w.revise u).1 (w'.revise u).1 := by
  cases u with
  | start x y => exact h.warmStart x y
  | cost q => exact h.change fun S xStart => S.updateCost_of_displaced xStart q
  | bounds lower upper => exact h.change fun S xStart => S.updateBounds_of_displaced xStart lower upper
  | settings c => exact h.change fun S xStart => S.updateSettings_of_displaced xStart c

end Resembles

def reviseAll (w : Workspace T) (us : List (Revision T)) : Workspace T := us.foldl (fun w u => (w.revise u).1) w

/-- What the calls return. -/
def outcomes (w : Workspace T) : List (Revision T) → List (Except UpdateError Unit)
  | [] => []
  | u :: us => (w.revise u).2 :: outcomes (w.revise u).1 us

/-- The calls that are accepted when all of them are made. -/
def accepted (w : Workspace T) : List (Revision T) → List (Revision T)
  | [] => []
  | u :: us =>
    match (w.revise u).2 with
    | .ok () => u :: accepted (w.revise u).1 us
    | .error _ => accepted (w.revise u).1 us

/-- Among the calls is a starting point that is accepted. -/
def Restarts (w : Workspace T) (us : List (Revision T)) : Prop :=
  ∃ before x y after, us = before ++ .start x y :: after ∧ ((w.reviseAll before).warmStart x y).2 = .ok ()

theorem reviseAll_append (w : Workspace T) (us vs : List (Revision T)) :
    w.reviseAll (us ++ vs) = (w.reviseAll us).reviseAll vs :=
  List.foldl_append

namespace Resembles

theorem reviseAll (h : Resembles w w') (us : List (Revision T)) : Resembles (w.reviseAll us) (w'.reviseAll us) := by
  induction us generalizing w w' with
  | nil => exact h
  | cons u us ih => exact ih (h.revise u).2

theorem outcomes_eq (h : Resembles w w') (us : List (Revision T)) : w'.outcomes us = w.outcomes us := by
  induction us generalizing w w' with
  | nil => rfl
  | cons u us ih =>
      obtain ⟨hsame, hnext⟩ := h.revise u
      rw [outcomes, outcomes, hsame, ih hnext]

theorem reviseAll_eq (h : Resembles w w') {us : List (Revision T)} (hus : w.Restarts us) :
    w'.reviseAll us = w.reviseAll us := by
  obtain ⟨before, x, y, after, rfl, hok⟩ := hus
  have hrestart := congrArg Prod.fst ((h.reviseAll before).warmStart_eq hok)
  rw [reviseAll_append, reviseAll_append]
  exact congrArg (Workspace.reviseAll · after) hrestart

end Resembles

/-! ## Refused calls among others -/

/-- Where a refused call displaces something, it is the dual part that is refused. -/
theorem Displaces.divided (h : Displaces w u w') (hrefused : (w.revise u).2 = .error e) :
    ∃ x y, u = .start x (some y) := by
  cases h with
  | @start n m S x y xStart hw hx _ =>
      cases y with
      | some y => exact ⟨x, y, rfl⟩
      | none =>
          have houtcome := (Workspace.warmStart_eq hw x none).2.symm.trans hrefused
          rw [Solver.warmStart_eq_parts, hx] at houtcome
          cases houtcome

theorem revise_refused_of_undivided (hu : u.Undivided) (h : (w.revise u).2 = .error e) : (w.revise u).1 = w := by
  rcases revise_refused h with ⟨heq, -⟩ | hdisplaces
  · exact heq
  · obtain ⟨x, y, heq⟩ := hdisplaces.divided h
    exact absurd heq (hu x y)

/-- Refused calls can be left out, as long as no dual point is among what is asked for. -/
theorem reviseAll_accepted {us : List (Revision T)} (hus : ∀ u ∈ us, u.Undivided) (w : Workspace T) :
    w.reviseAll (w.accepted us) = w.reviseAll us := by
  induction us generalizing w with
  | nil => rfl
  | cons u us ih =>
      have hrest := ih (fun v hv => hus v (List.mem_cons_of_mem u hv)) (w.revise u).1
      unfold accepted
      split
      · exact hrest
      · next e he =>
          have hkept := revise_refused_of_undivided (hus u List.mem_cons_self) he
          have hstep : w.reviseAll (u :: us) = (w.revise u).1.reviseAll us := rfl
          rw [hstep]
          rw [hkept] at hrest ⊢
          exact hrest

/-- A refused call leaves the workspace as it was, with one exception: a starting point of which only the dual part is
refused leaves its primal part behind, and nothing else. Later calls return what they would have returned, and the first
starting point among them that is accepted makes up for the difference. Where no dual point is asked for, all refused
calls can be left out. -/
theorem refused_revision (h : (w.revise u).2 = .error e) :
    ((w.revise u).1 = w ↔ ∀ w', ¬Displaces w u w') ∧ (∀ w', Displaces w u w' → (w.revise u).1 = w') ∧
      (∀ x y, (w.warmStart x y).2 = .ok () → (w.revise u).1.warmStart x y = w.warmStart x y) ∧
      (∀ us, (w.revise u).1.outcomes us = w.outcomes us ∧
        (w.Restarts us → (w.revise u).1.reviseAll us = w.reviseAll us)) ∧
      ∀ us, (∀ v ∈ u :: us, v.Undivided) → w.reviseAll (u :: us) = w.reviseAll (w.accepted us) := by
  have hresembles := resembles_of_refused h
  refine ⟨?_, ?_, fun x y => hresembles.warmStart_eq, fun us => ⟨hresembles.outcomes_eq us, hresembles.reviseAll_eq⟩,
    fun us hus => ?_⟩
  · rcases revise_refused h with ⟨heq, hnone⟩ | hdisplaces
    · exact iff_of_true heq hnone
    · exact iff_of_false hdisplaces.ne fun hnone => hnone _ hdisplaces
  · rcases revise_refused h with ⟨-, hnone⟩ | hdisplaces
    · exact fun w' hw' => absurd hw' (hnone w')
    · exact fun w' hw' => hdisplaces.eq hw'
  · have hkept := revise_refused_of_undivided (hus u List.mem_cons_self) h
    rw [reviseAll_accepted fun v hv => hus v (List.mem_cons_of_mem u hv)]
    exact congrArg (reviseAll · us) hkept

/-- Bounds that are out of order leave the sample as it was. A starting point with a dual part of the wrong length
displaces its primal part, until another one is accepted. -/
theorem refused_revision_settled :
    (Sample.settled.revise (.bounds (some #[5]) none)).1 = Sample.settled ∧
      ∃ w', Displaces Sample.settled (.start (some #[-100]) (some #[])) w' ∧
        (Sample.settled.revise (.start (some #[-100]) (some #[]))).1 = w' ∧
          w'.warmStart (some #[2]) none = Sample.settled.warmStart (some #[2]) none := by
  obtain ⟨-, -, -, -, hbounds, hstart, hnext, hmoved, -⟩ := Sample.settled_checked
  have hrefusedBounds : (Sample.settled.revise (.bounds (some #[5]) none)).2 = .error (.inconsistentBounds 0) := hbounds
  have hrefusedStart : (Sample.settled.revise (.start (some #[-100]) (some #[]))).2 =
      .error (.dimensionMismatch .dualPoint 1 0) := hstart
  refine ⟨(refused_revision hrefusedBounds).1.mpr (not_displaces (by simp)), ?_⟩
  obtain ⟨hkept, hdisplaced, hrestart, -⟩ := refused_revision hrefusedStart
  have hsome : ∃ w', Displaces Sample.settled (.start (some #[-100]) (some #[])) w' := by
    by_contra hnone
    exact hmoved (congrArg Sample.primalStart (hkept.mpr (not_exists.mp hnone)))
  obtain ⟨w', hw'⟩ := hsome
  refine ⟨w', hw', hdisplaced w' hw', ?_⟩
  rw [← hdisplaced w' hw']
  exact hrestart _ _ hnext

/-- A solve of the sample takes no step. After a starting point that is refused it takes one, from the primal part of that
point. -/
theorem refused_start_remembered :
    Session 10 Sample.settled (Sample.bounded.posed 1 1) ∧
      (Sample.settled.warmStart (some #[-100]) (some #[])).2 = .error (.dimensionMismatch .dualPoint 1 0) ∧
        Sample.iterations Sample.settled = some 0 ∧
          Sample.iterations (Sample.settled.warmStart (some #[-100]) (some #[])).1 = some 1 := by
  obtain ⟨-, -, -, -, -, hrefused, -, -, hiterations⟩ := Sample.settled_checked
  exact ⟨Sample.session_settled, hrefused, hiterations⟩

end Workspace
end AugLag
