import AugLag.Proofs.Checked.Solver
import AugLag.Proofs.Workspace.Replay

/-!
# Workspaces never panic

A problem may be set up from any arrays: either validation refuses it, or there is a workspace that can be used. No call
of such a workspace misses an access or fails an assertion, whatever it is given and whatever calls there were before.
The arithmetic of the scalars counts only where the first Newton system is factored, and the order of elimination is taken
to be a permutation.
-/

namespace AugLag

variable {T : Type}

/-! ## Calls -/

/-- What a workspace may be asked for once it is set up. -/
inductive Call (T : Type)
  | solve (clock : Nat → Float) (old : Results T)
  | revise (u : Revision T)
  | release

/-- What a call answers. -/
inductive Answer (T : Type)
  | solution (outcome : Except ReleasedError (Solution T))
  | revision (outcome : Except UpdateError Unit)
  | release (log : List (Event T))

namespace Workspace

variable [MachineScalar T]

/-- What a solve leaves behind. One that is refused changes nothing. -/
def afterSolve (w : Workspace T) : Except ReleasedError (Solution T) → Workspace T
  | .ok solution => solution.workspace
  | .error _ => w

def call (w : Workspace T) : Call T → Workspace T × Answer T
  | .solve clock old => (w.afterSolve (w.solveInto clock old), .solution (w.solveInto clock old))
  | .revise u => ((w.revise u).1, .revision (w.revise u).2)
  | .release => (w.release.1, .release w.release.2)

/-- Makes calls one after the other. -/
def callAll (w : Workspace T) : List (Call T) → Workspace T × List (Answer T)
  | [] => (w, [])
  | c :: cs =>
    let rest := callAll (w.call c).1 cs
    (rest.1, (w.call c).2 :: rest.2)

end Workspace

namespace Checked.Workspace

/-! ## Checked calls -/

section Changes

variable [Scalar T]

/-- Validates a problem and prepares its solution. -/
def setup [Elimination.Rule] (problem : ProblemInput T) (c : Settings T) (limit : T) :
    Option (Except SetupError (Workspace T) × List (Event T)) := do
  match ← (Setup.validate problem c).run with
  | .error e => return (.error e, [])
  | .ok (n, m) =>
    let normalized ← Setup.normalize problem n m limit
    match ← Solver.ofProgram normalized.1 c with
    | .error e => return (.error (.linearSolver e), normalized.2)
    | .ok solver =>
      return (.ok { prepared := some { n, m, solver }, target := .stdout }, normalized.2 ++ [.setup n m solver.engine.name])

def change (w : Workspace T) (f : {n m : Nat} → Solver T n m → ExceptT UpdateError Option (Solver T n m)) :
    Option (Workspace T × Except UpdateError Unit) :=
  match w.prepared with
  | none => some (w, .error .released)
  | some p => do
    match ← (f p.solver).run with
    | .error e => return (w, .error e)
    | .ok solver => return ({ w with prepared := some { p with solver } }, .ok ())

def warmStart (w : Workspace T) (x y : Option (Array T)) : Option (Workspace T × Except UpdateError Unit) :=
  match w.prepared with
  | none => some (w, .error .released)
  | some p => do
    let out ← Solver.warmStart p.solver x y
    return ({ w with prepared := some { p with solver := out.1 } }, out.2)

def revise (w : Workspace T) : Revision T → Option (Workspace T × Except UpdateError Unit)
  | .start x y => warmStart w x y
  | .cost q => change w fun S => Solver.updateCost S q
  | .bounds lower upper => change w fun S => Solver.updateBounds S lower upper
  | .settings c => change w fun S => ExceptT.mk (some (S.updateSettings c))

/-- The solver that the workspace holds, if it holds one, can be used. -/
def Usable (w : Workspace T) : Prop := ∀ p ∈ w.prepared, Solver.Usable p.solver

section Setup

variable [Elimination.Rule] {problem : ProblemInput T} {c : Settings T} {limit : T}
variable (hpermuted : ∀ n m, problem.validate c = .ok (n, m) → NewtonEngine.Permuted (problem.normalize n m limit).1.Q
  (problem.normalize n m limit).1.A c.factorizationMethod)

include hpermuted

theorem setup_eq : setup problem c limit = some (AugLag.Workspace.setup problem c limit) := by
  rw [setup, AugLag.Workspace.setup, Setup.validate_eq]
  cases hvalid : problem.validate c with
  | error e => rfl
  | ok dims =>
      obtain ⟨n, m⟩ := dims
      have hP := ProblemInput.valid_of_validate hvalid
      obtain ⟨hsolver, -⟩ := Solver.ofProgram_eq (Setup.squareData_normalize hP limit) (hpermuted n m hvalid)
      simp only [Option.bind_eq_bind, Option.bind_some, Setup.normalize_eq hP, hsolver]
      cases AugLag.Solver.ofProgram (problem.normalize n m limit).1 c with
      | error e => rfl
      | ok S => rfl

/-- A workspace that is set up can be used. -/
theorem usable_setup {w : Workspace T} (h : (AugLag.Workspace.setup problem c limit).1 = .ok w) : Usable w := by
  rintro ⟨n, m, S⟩ hw
  obtain ⟨hvalid, hS⟩ := AugLag.Workspace.setup_spec h hw
  have hP := ProblemInput.valid_of_validate hvalid
  exact (Solver.ofProgram_eq (Setup.squareData_normalize hP limit) (hpermuted n m hvalid)).2 S hS

/-- Only validation refuses a problem. -/
theorem setup_cases [PlainZeros T] : (∃ w, (AugLag.Workspace.setup problem c limit).1 = .ok w) ∨
    ∃ e, problem.validate c = .error e ∧ (AugLag.Workspace.setup problem c limit).1 = .error e := by
  cases hvalid : problem.validate c with
  | error e =>
      refine .inr ⟨e, rfl, ?_⟩
      rw [AugLag.Workspace.setup, hvalid]
  | ok dims =>
      obtain ⟨n, m⟩ := dims
      have hP := ProblemInput.valid_of_validate hvalid
      obtain ⟨S, hS⟩ := Solver.exists_ofProgram (Setup.squareData_normalize hP limit) (hpermuted n m hvalid)
      obtain ⟨w, log, hsetup, -⟩ := AugLag.Workspace.exists_setup hvalid hS
      exact .inl ⟨w, congrArg Prod.fst hsetup⟩

end Setup

omit [Scalar T] in
theorem change_eq (w : Workspace T) {f : {n m : Nat} → Solver T n m → ExceptT UpdateError Option (Solver T n m)}
    {g : {n m : Nat} → Solver T n m → Except UpdateError (Solver T n m)}
    (h : ∀ {n m : Nat} (S : Solver T n m), (f S).run = some (g S)) : change w f = some (w.change g) := by
  unfold change AugLag.Workspace.change
  cases w.prepared with
  | none => rfl
  | some p =>
      simp only [h]
      cases g p.solver with
      | error e => rfl
      | ok S => rfl

theorem revise_eq (w : Workspace T) (u : Revision T) : revise w u = some (w.revise u) := by
  cases u with
  | start x y =>
      unfold revise warmStart AugLag.Workspace.revise AugLag.Workspace.warmStart
      cases w.prepared with
      | none => rfl
      | some p =>
          simp only [Solver.warmStart_eq]
          rfl
  | cost q => exact change_eq w fun S => Solver.updateCost_eq S q
  | bounds lower upper => exact change_eq w fun S => Solver.updateBounds_eq S lower upper
  | settings c => exact change_eq w (g := fun S => S.updateSettings c) fun S => rfl

theorem Usable.warmStart {w : Workspace T} (h : Usable w) (x y : Option (Array T)) : Usable (w.warmStart x y).1 := by
  unfold AugLag.Workspace.warmStart
  split
  · exact h
  · next p hw =>
      intro p' hp'
      cases hp'
      exact (h p hw).warmStart x y

theorem Usable.revise {w : Workspace T} (h : Usable w) (u : Revision T) : Usable (w.revise u).1 := by
  cases u with
  | start x y => exact h.warmStart x y
  | cost q => exact AugLag.Workspace.change_keeps h fun hS heq => hS.updateCost heq
  | bounds lower upper => exact AugLag.Workspace.change_keeps h fun hS heq => hS.updateBounds heq
  | settings c => exact AugLag.Workspace.change_keeps h fun hS heq => hS.updateSettings heq

end Changes

section Solves

variable [MachineScalar T] {n m : Nat}

/-- The text before the table of progress. It tells how many entries the matrices have. -/
def configuration (P : ScaledProgram T n m) (c : Settings T) (engine : String) : Option String := do
  return Report.line Report.rule ++ Report.line Report.banner ++ Report.line Report.rule ++ Report.line "" ++
    Report.problemText n m (← P.Q.nnz?) (← P.A.nnz?) ++ Report.line "" ++
    Report.settingsText c engine ++ Report.line ""

/-- All notices of a run in their order. -/
def notices (S : Solver T n m) (o : Outcome T n m) : Option (List (Notice T)) :=
  if S.settings.verbose then do
    return .text (← configuration S.program S.settings S.engine.name) :: .text Report.header ::
      (o.signals.map Signal.notice ++ [.text (Report.footer o.info)])
  else some (o.signals.map Signal.notice)

/-- Solves the problem and writes the results over older ones. -/
def solveInto (w : Workspace T) (clock : Nat → Float) (old : Results T) :
    Option (Except ReleasedError (Solution T)) :=
  match w.prepared with
  | none => some (.error .released)
  | some p => do
    let out ← Solver.run p.solver fun updates => p.solver.settings.timeLimit < clock updates
    let delivery := Delivery.ofNotices w.target (← notices p.solver out.2)
    return .ok
      { workspace := { prepared := some { p with solver := out.1 }, target := delivery.target }
        results := ← Solver.writeResults out.2 p.solver.program old
        delivery }

def call (w : Workspace T) : Call T → Option (Workspace T × Answer T)
  | .solve clock old => do
    let outcome ← solveInto w clock old
    return (w.afterSolve outcome, .solution outcome)
  | .revise u => do
    let out ← revise w u
    return (out.1, .revision out.2)
  | .release => some (w.release.1, .release w.release.2)

/-- Makes calls one after the other. -/
def callAll (w : Workspace T) : List (Call T) → Option (Workspace T × List (Answer T))
  | [] => some (w, [])
  | c :: cs => do
    let out ← call w c
    let rest ← callAll out.1 cs
    return (rest.1, out.2 :: rest.2)

theorem notices_eq {S : Solver T n m} (h : Solver.Usable S) (o : Outcome T n m) :
    notices S o = some (S.notices o) := by
  have hcost := nnz_eq h.data.cost.toLayout
  have hconstraints := nnz_eq h.data.constraints.toLayout
  unfold notices AugLag.Solver.notices
  cases S.settings.verbose with
  | true =>
      simp only [configuration, hcost, hconstraints, if_true]
      rfl
  | false => simp

theorem Usable.solveInto {w : Workspace T} (h : Usable w) (clock : Nat → Float) (old : Results T) :
    solveInto w clock old = some (w.solveInto clock old) ∧ Usable (w.afterSolve (w.solveInto clock old)) := by
  unfold Workspace.solveInto AugLag.Workspace.solveInto
  cases hw : w.prepared with
  | none =>
      refine ⟨rfl, ?_⟩
      exact h
  | some p =>
      have hS := h p hw
      obtain ⟨hrun, hnext⟩ := hS.run fun updates => p.solver.settings.timeLimit < clock updates
      constructor
      · simp only [hrun, Option.bind_eq_bind, Option.bind_some, notices_eq hS, Solver.writeResults_eq]
        rfl
      · intro p' hp'
        cases hp'
        exact hnext

/-- No call panics, and after it the workspace can be used as before. -/
theorem Usable.call {w : Workspace T} (h : Usable w) (c : Call T) : call w c = some (w.call c) ∧ Usable (w.call c).1 := by
  cases c with
  | solve clock old =>
      obtain ⟨hsolve, hnext⟩ := h.solveInto clock old
      refine ⟨?_, hnext⟩
      rw [Workspace.call, hsolve]
      rfl
  | revise u =>
      refine ⟨?_, h.revise u⟩
      rw [Workspace.call, revise_eq]
      rfl
  | release => exact ⟨rfl, fun p hp => by cases hp⟩

/-- No sequence of calls panics. -/
theorem Usable.callAll {w : Workspace T} (h : Usable w) (cs : List (Call T)) : callAll w cs = some (w.callAll cs) := by
  induction cs generalizing w with
  | nil => rfl
  | cons c cs ih =>
      obtain ⟨hcall, hnext⟩ := h.call c
      rw [Workspace.callAll, hcall]
      simp only [Option.bind_eq_bind, Option.bind_some, ih hnext]
      rfl

end Solves

end Checked.Workspace

/-! ## Safety -/

namespace Workspace

/-- Where the pattern that is factored is put in order by a permutation, neither setup nor any sequence of calls of a
workspace that it returns panics. Only validation refuses a problem, and never for a Newton system. -/
theorem never_panics [Elimination.Rule] [MachineScalar T] {problem : ProblemInput T} {c : Settings T} {limit : T}
    (hpermuted : ∀ n m, problem.validate c = .ok (n, m) →
      NewtonEngine.Permuted (problem.normalize n m limit).1.Q (problem.normalize n m limit).1.A c.factorizationMethod) :
    Checked.Workspace.setup problem c limit = some (setup problem c limit) ∧
      (PlainZeros T → (∃ w, (setup problem c limit).1 = .ok w) ∨
        ∃ e, problem.validate c = .error e ∧ (setup problem c limit).1 = .error e ∧
          ∀ cause, e ≠ .linearSolver cause) ∧
        ∀ w, (setup problem c limit).1 = .ok w → ∀ calls : List (Call T),
          Checked.Workspace.callAll w calls = some (w.callAll calls) := by
  refine ⟨Checked.Workspace.setup_eq hpermuted, fun _ => ?_, fun w hw calls => ?_⟩
  · rcases Checked.Workspace.setup_cases hpermuted with hready | ⟨e, hinvalid, hrefused⟩
    · exact .inl hready
    · refine .inr ⟨e, hinvalid, hrefused, ?_⟩
      rintro cause rfl
      exact ProblemInput.validate_ne_linearSolver problem c cause hinvalid
  · exact (Checked.Workspace.usable_setup hpermuted hw).callAll calls

/-- Calls of the sample, before and after its release, some of which are refused. -/
theorem never_panics_lopsided :
    Checked.Workspace.callAll (Sample.opened Sample.lopsided)
        [.solve (fun _ => 0) (Results.blank 5 3), .revise (.start (some #[1, 0]) (some #[])),
          .revise (.bounds (some #[6, 6]) none), .release, .solve (fun _ => 0) (Results.blank 2 2)] =
      some ((Sample.opened Sample.lopsided).callAll
        [.solve (fun _ => 0) (Results.blank 5 3), .revise (.start (some #[1, 0]) (some #[])),
          .revise (.bounds (some #[6, 6]) none), .release, .solve (fun _ => 0) (Results.blank 2 2)]) := by
  have hvalid : Sample.lopsided.validate Sample.settings = .ok (2, 2) := by decide +kernel
  have hpermuted : NewtonEngine.Permuted (Sample.lopsided.normalize 2 2 10).1.Q (Sample.lopsided.normalize 2 2 10).1.A
      Sample.settings.factorizationMethod := by
    decide +kernel
  refine (never_panics fun n m h => ?_).2.2 _ Sample.setup_lopsided _
  obtain ⟨rfl, rfl⟩ := Prod.mk.inj (Except.ok.inj (hvalid.symm.trans h))
  exact hpermuted

end Workspace
end AugLag
