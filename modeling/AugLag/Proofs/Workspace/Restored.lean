import AugLag.Proofs.Workspace.Dumped
import AugLag.Proofs.Workspace.Proper

/-!
# Restored workspaces

A workspace that is written and read again has the same problem in its own units and the same settings.
-/

namespace AugLag

open Json

variable {n m : Nat}

/-- No bound that counts as finite is the largest number or the least one. -/
structure ScaledProgram.AvoidsExtremes {T : Type} [Scalar T] (S : ScaledProgram T n m) : Prop where
  lower : ∀ i, S.lowerFinite.get i = true →
    S.unscaled.bmin.get i ≠ Scalar.maxValue ∧ S.unscaled.bmin.get i ≠ -Scalar.maxValue
  upper : ∀ i, S.upperFinite.get i = true →
    S.unscaled.bmax.get i ≠ Scalar.maxValue ∧ S.unscaled.bmax.get i ≠ -Scalar.maxValue

instance {T : Type} [Scalar T] [DecidableEq T] (S : ScaledProgram T n m) : Decidable S.AvoidsExtremes :=
  decidable_of_iff (_ ∧ _) ⟨fun h => ⟨h.1, h.2⟩, fun h => ⟨h.lower, h.upper⟩⟩

section Solvers

variable {K : Type} [ExactScalar K] {top : K} {S : Solver (Extended K top) n m}
variable {L : QuadraticProgram (Extended K top) n m}

theorem ScaledProgram.Scales.spares (h : S.program.Scales L) (hL : L.Proper) (htop : 0 < top)
    (hbounds : S.program.AvoidsExtremes) : L.Spares := by
  have heq := h.unscaled_eq hL
  constructor
  · intro i
    refine Dump.spared_of_lower htop hL.limit_pos (hL.lower i).1 fun hlt => ?_
    have hflag : S.program.lowerFinite.get i = true := (h.lowerFinite_eq i).trans (decide_eq_true hlt)
    exact heq ▸ hbounds.lower i hflag
  · intro i
    refine Dump.spared_of_upper htop hL.limit_pos (hL.upper i).2 fun hlt => ?_
    have hflag : S.program.upperFinite.get i = true := (h.upperFinite_eq i).trans (decide_eq_true hlt)
    exact heq ▸ hbounds.upper i hflag

/-- The scaled program that was set up before can be set up again. -/
theorem Solver.Maintained.exists_ofProgram [Elimination.Rule] (h : S.Maintained) (hL : L.Proper)
    (hscales : S.program.Scales L) {c : Settings (Extended K top)} (hc : c.validate = .ok ())
    (hmethod : c.factorizationMethod = S.settings.factorizationMethod) :
    ∃ S', Solver.ofProgram L c = .ok S' ∧ S'.program.Scales L ∧ S'.settings = c := by
  have hscales' := ScaledProgram.scales_equilibrate hL hc
  obtain ⟨engine, hengine, -⟩ := h.origin
  -- the matrices have the places of the old ones, and the engine depends on nothing else
  rw [NewtonEngine.ofProblem_of_samePattern hscales.cost_pattern hscales.constraints_pattern,
    ← NewtonEngine.ofProblem_of_samePattern hscales'.cost_pattern hscales'.constraints_pattern, ← hmethod] at hengine
  exact ⟨_, map_eq_ok.mpr ⟨engine, hengine, rfl⟩, hscales', rfl⟩

end Solvers

/-! ## A sample -/

namespace Sample

/-- Rational numbers are written as multiples of a small power of ten. -/
instance : Numeral (Extended ℚ 1000000) where
  write
    | .finite x => (if x < 0 then ['-'] else []) ++ writeNat (x * 10 ^ 8).num.natAbs ++ ['e', '-', '8']
    | _ => ['n', 'u', 'l', 'l']
  ofLiteral? l := some (.finite ((if l.negative then -1 else 1) * (l.digits * 10 ^ l.exponent)))

/-- Two rows, each of them without a bound on one side. -/
def halfOpen : ProblemInput (Extended ℚ 1000000) :=
  { Q := some (.dense 2 2 #[.finite 4, .finite 1, .finite 1, .finite 9]), q := some #[.finite (-2), .finite 1]
    A := some (.dense 2 2 #[.finite 1, .finite 0, .finite 2, .finite 16])
    bmin := some #[.infinite true, .finite (-20)], bmax := some #[.finite 3, .infinite false] }

def timeless : Settings (Extended ℚ 1000000) := { Settings.default with factorizationMethod := .kkt }

/-- No finite bound counts as absent. -/
def openedHalfOpen : Workspace (Extended ℚ 1000000) :=
  match (Workspace.setup halfOpen timeless Scalar.infinity).1 with
  | .ok w => w
  | .error _ => { prepared := none, target := .stdout }

/-- The cost was replaced, and the upper bounds. -/
def revisedHalfOpen : Workspace (Extended ℚ 1000000) :=
  ((openedHalfOpen.updateCost #[.finite 1, .finite (-1)]).1.updateBounds none (some #[.infinite false, .finite 4])).1

theorem setup_halfOpen : (Workspace.setup halfOpen timeless Scalar.infinity).1 = .ok openedHalfOpen := by
  have hok : (Workspace.setup halfOpen timeless Scalar.infinity).1.toBool = true := by decide +kernel
  unfold openedHalfOpen
  split
  · assumption
  · next heq =>
      rw [heq] at hok
      cases hok

theorem reachable_revisedHalfOpen : revisedHalfOpen.Reachable :=
  .updateBounds _ _ (.updateCost _ (.setup setup_halfOpen))

theorem exists_solver_revisedHalfOpen :
    ∃ S : Solver (Extended ℚ 1000000) 2 2, revisedHalfOpen.prepared = some ⟨2, 2, S⟩ ∧ S.settings = timeless := by
  have haccepted : openedHalfOpen.dims = some (2, 2) ∧
      (openedHalfOpen.updateCost #[.finite 1, .finite (-1)]).2 = .ok () ∧
        ((openedHalfOpen.updateCost #[.finite 1, .finite (-1)]).1.updateBounds none
          (some #[.infinite false, .finite 4])).2 = .ok () := by
    decide +kernel
  obtain ⟨hdims, hcost, hbounds⟩ := haccepted
  obtain ⟨S, hw, -, hS⟩ := Workspace.setup_eq setup_halfOpen hdims
  obtain ⟨engine, -, rfl⟩ := map_eq_ok.mp hS
  obtain ⟨S', hS', heq⟩ := Workspace.change_eq hw hcost
  obtain ⟨q, -, rfl⟩ := map_eq_ok.mp hS'
  have hw' := congrArg Workspace.prepared heq
  obtain ⟨S'', hS'', heq'⟩ := Workspace.change_eq hw' hbounds
  obtain ⟨lower, upper, -, rfl⟩ := Solver.exists_of_updateBounds hS''
  exact ⟨_, congrArg Workspace.prepared heq', rfl⟩

end Sample

/-! ## Workspaces -/

namespace Workspace.Reachable

section Formats

variable {K : Type} [ExactMachine K] {top : K} {w : Workspace (Extended K top)} {S : Solver (Extended K top) n m}

/-- A workspace that is written can be read under the same limit, in every format that gives its dump back. It has the
same problem then, in its own units, and the same settings, except that a time limit of the largest number becomes
infinite. -/
theorem restored [Elimination.Rule] (format : DumpFormat (Extended K top)) (h : w.Reachable)
    (hw : w.prepared = some ⟨n, m, S⟩) (htop : 0 < top) (hlimit : 0 < S.program.limit)
    (hbounds : S.program.AvoidsExtremes) (hback : (Dump.ofSolver S).GivenBackBy format) :
    ∃ text w' S' log, w.writeAs format = .ok text ∧ Workspace.readAs format text S.program.limit = (.ok w', log) ∧
      w'.prepared = some ⟨n, m, S'⟩ ∧ S'.program.unscaled = S.program.unscaled ∧
        S'.program.lowerFinite = S.program.lowerFinite ∧ S'.program.upperFinite = S.program.upperFinite ∧
          S'.settings = { S.settings with timeLimit := Dump.timeOfFinite S.settings.timeLimit } := by
  obtain ⟨L, hL, hscales⟩ := h.scalesProper _ hw hlimit
  have hS : S.Maintained := h.maintained _ hw
  have hpos := Settings.timeLimit_pos hS.settings
  have heq : S.program.unscaled = L := hscales.unscaled_eq hL
  have hdump : Dump.ofSolver S = Dump.ofProgram L S.settings := by
    rw [← heq]
    rfl
  -- everything that is written is finite, and is read back for that reason
  have hfinite : (Dump.ofSolver S).AllFinite := by
    refine ⟨fun x hx => ?_, (Dump.timeToFinite_spec hpos).2⟩
    rw [hdump] at hx
    exact hL.isFinite_of_mem_numbers hS.settings x hx
  have hsettings : (Dump.ofSolver S).readSettings =
      { S.settings with timeLimit := Dump.timeOfFinite S.settings.timeLimit } := by
    rw [← Dump.timeOfFinite_timeToFinite]
    rfl
  have hc : (Dump.ofSolver S).readSettings.validate = .ok () := by
    rw [hsettings]
    exact Settings.validate_withTimeLimit hS.settings (Dump.timeOfFinite_pos hpos)
  have hspares := hscales.spares hL htop hbounds
  have hvalid := hL.validate_problem (c := S.settings) htop hspares hc
  have hnormal := hL.normalize_problem (c := S.settings) htop hspares
  rw [← hdump] at hvalid hnormal
  obtain ⟨S', hS', hscales', hsettings'⟩ := hS.exists_ofProgram hL hscales hc (by rw [hsettings])
  rw [← hnormal, ← hscales.limit_eq] at hS'
  obtain ⟨w', log, hsetup, hw'⟩ := Workspace.exists_setup hvalid hS'
  refine ⟨format.write (Dump.ofSolver S), w', S', log, ?_, ?_, hw', ?_, ?_, ?_, ?_⟩
  · rw [Workspace.writeAs, Workspace.dump, hw]
    rfl
  · rw [Workspace.readAs, hback hfinite, Workspace.ofDump, hsetup]
    rfl
  · rw [hscales'.unscaled_eq hL, heq]
  · exact Vec.ext_get fun i => (hscales'.lowerFinite_eq i).trans (hscales.lowerFinite_eq i).symm
  · exact Vec.ext_get fun i => (hscales'.upperFinite_eq i).trans (hscales.upperFinite_eq i).symm
  · rw [hsettings', hsettings]

variable [Numeral (Extended K top)]

/-- A workspace that is written as JSON can be read under the same limit, if every finite number is read back as it was
written. It has the same problem then and the same settings, except that a time limit of the largest number becomes
infinite. -/
theorem read_written [Elimination.Rule] (h : w.Reachable) (hw : w.prepared = some ⟨n, m, S⟩) (htop : 0 < top)
    (hlimit : 0 < S.program.limit) (hbounds : S.program.AvoidsExtremes) (hfits : (Dump.ofSolver S).Fits)
    (hnumbers : ∀ x ∈ (Dump.ofSolver S).numbers, Scalar.isFinite x = true → ReadsBack x)
    (htime : Scalar.isFinite (Dump.ofSolver S).settings.timeLimit = true →
      ReadsBack (Dump.ofSolver S).settings.timeLimit) :
    ∃ text w' S' log, w.write = .ok text ∧ Workspace.readBytes text.toUTF8 S.program.limit = (.ok w', log) ∧
      w'.prepared = some ⟨n, m, S'⟩ ∧ S'.program.unscaled = S.program.unscaled ∧
        S'.program.lowerFinite = S.program.lowerFinite ∧ S'.program.upperFinite = S.program.upperFinite ∧
          S'.settings = { S.settings with timeLimit := Dump.timeOfFinite S.settings.timeLimit } := by
  have hc := (h.maintained _ hw).settings
  have hpos := (Dump.timeToFinite_spec (Settings.timeLimit_pos hc)).1
  have hback : (Dump.ofSolver S).GivenBackBy Dump.json :=
    Dump.givenBackBy_json hfits (Settings.validate_withTimeLimit hc hpos) hnumbers htime
  obtain ⟨text, w', S', log, hwrite, hread, hrest⟩ := h.restored Dump.json hw htop hlimit hbounds hback
  refine ⟨text, w', S', log, hwrite, ?_, hrest⟩
  rw [Workspace.readBytes, readBytes_toUTF8]
  exact hread

end Formats

/-- Infinite bounds on both sides come back, and so does the infinite time limit. -/
theorem read_written_halfOpen :
    ∃ text w' S', Sample.revisedHalfOpen.write = .ok text ∧
      (Workspace.readBytes text.toUTF8 (Scalar.infinity : Extended ℚ 1000000)).1 = .ok w' ∧
        w'.prepared = some ⟨2, 2, S'⟩ ∧
        S'.program.unscaled.q = #v[.finite 1, .finite (-1)] ∧
          S'.program.unscaled.bmin = #v[.infinite true, .finite (-20)] ∧
            S'.program.unscaled.bmax = #v[.infinite false, .finite 4] ∧ S'.settings.timeLimit = Scalar.infinity := by
  obtain ⟨S, hw, hsettings⟩ := Sample.exists_solver_revisedHalfOpen
  -- what has to be known of the solver is evaluated at once
  have hfacts : ∀ p ∈ Sample.revisedHalfOpen.prepared, p.solver.program.limit = Scalar.infinity ∧
      p.solver.program.AvoidsExtremes ∧ p.solver.program.unscaled.Q.FitsWords ∧
        p.solver.program.unscaled.A.FitsWords ∧ (∀ x ∈ (Dump.ofSolver p.solver).numbers, ReadsBack x) ∧
          p.solver.program.unscaled.q.toArray = #[.finite 1, .finite (-1)] ∧
            p.solver.program.unscaled.bmin.toArray = #[.infinite true, .finite (-20)] ∧
              p.solver.program.unscaled.bmax.toArray = #[.infinite false, .finite 4] := by
    decide +kernel
  obtain ⟨hlimit, hextremes, hcost, hconstraints, hnumbers, hq, hlower, hupper⟩ := hfacts _ hw
  have hfits : (Dump.ofSolver S).Fits := by
    refine ⟨hcost, hconstraints, ?_⟩
    show ∀ s, SettingKind.Fits _ ({ S.settings with timeLimit := Dump.timeToFinite S.settings.timeLimit }.get s)
    rw [hsettings]
    intro s
    cases s <;> decide
  have htime : ReadsBack (Dump.ofSolver S).settings.timeLimit := by
    show ReadsBack (Dump.timeToFinite S.settings.timeLimit)
    rw [hsettings]
    decide +kernel
  obtain ⟨text, w', S', log, hwrite, hread, hw', hsame, -, -, hsettings'⟩ :=
    read_written Sample.reachable_revisedHalfOpen hw (by norm_num) (by rw [hlimit]; decide) hextremes hfits
      (fun x hx _ => hnumbers x hx) fun _ => htime
  refine ⟨text, w', S', hwrite, ?_, hw', ?_, ?_, ?_, ?_⟩
  · rw [← hlimit, hread]
  · rw [hsame]
    exact Vector.toArray_inj.mp hq
  · rw [hsame]
    exact Vector.toArray_inj.mp hlower
  · rw [hsame]
    exact Vector.toArray_inj.mp hupper
  · rw [hsettings', hsettings]
    rfl

end Workspace.Reachable
end AugLag
