import AugLag.Proofs.Solver.Convex
import AugLag.Proofs.Solver.Optimality

/-!
# Absent bounds

A bound that is absent is marked as such, and the limit stands in its place. The line search, the tests for
infeasibility and the dual objective go by the mark: whatever stands there, they do not read it. The projection of
`A x + y / σ` goes by the value: beyond the limit an absent bound pushes as a present one does.
-/

namespace AugLag

/-! ## What goes by the mark -/

section Marks

variable {T : Type} [Scalar T] {n m : Nat}

namespace ScaledProgram

/-- The program with other numbers in the place of its absent bounds. -/
def withAbsent (S : ScaledProgram T n m) (lower upper : Vector T m) : ScaledProgram T n m :=
  { S with
    bmin := Vector.ofFn fun i => if S.lowerFinite.get i then S.bmin.get i else lower.get i
    bmax := Vector.ofFn fun i => if S.upperFinite.get i then S.bmax.get i else upper.get i }

/-- What does not read absent bounds has the same outcome for both programs. -/
structure SamePresent (S S' : ScaledProgram T n m) : Prop where
  search : ∀ (s : NewtonState T n m) (p : Point T n m) (d : Vector T n) (Ad : Vector T m) (Qd : Vector T n)
    (c : Settings T), (s.lineSearch S' p d Ad Qd).search? c = (s.lineSearch S p d Ad Qd).search? c
  primal : ∀ (dy : Vector T m) (eps : T), S'.isPrimalInfeasible dy eps = S.isPrimalInfeasible dy eps
  dual : ∀ (dx Qdx : Vector T n) (Adx : Vector T m) (eps : T),
    S'.isDualInfeasible dx Qdx Adx eps = S.isDualInfeasible dx Qdx Adx eps
  objective : ∀ r : Run T n m, Solver.dualObjective S' r = Solver.dualObjective S r

variable (S : ScaledProgram T n m) (lower upper : Vector T m)

omit [Scalar T] in
theorem get_withAbsent_lower {i : Fin m} (h : S.lowerFinite.get i = true) :
    (S.withAbsent lower upper).bmin.get i = S.bmin.get i := by
  simp [withAbsent, h]

omit [Scalar T] in
theorem get_withAbsent_upper {i : Fin m} (h : S.upperFinite.get i = true) :
    (S.withAbsent lower upper).bmax.get i = S.bmax.get i := by
  simp [withAbsent, h]

theorem support_withAbsent (dy : Vector T m) : (S.withAbsent lower upper).support dy = S.support dy := by
  unfold support
  congr 1
  funext acc i
  show (if 0 < dy.get i then (if S.upperFinite.get i then _ else acc) else if dy.get i < 0 then
    (if S.lowerFinite.get i then _ else acc) else acc) = _
  split_ifs with hpos hupper hneg hlower
  · rw [get_withAbsent_upper S lower upper hupper]
  · rfl
  · rw [get_withAbsent_lower S lower upper hlower]
  · rfl
  · rfl

theorem isPrimalInfeasible_withAbsent (dy : Vector T m) (eps : T) :
    (S.withAbsent lower upper).isPrimalInfeasible dy eps = S.isPrimalInfeasible dy eps := by
  unfold isPrimalInfeasible
  rw [support_withAbsent]
  rfl

theorem dualObjective_withAbsent (r : Run T n m) :
    Solver.dualObjective (S.withAbsent lower upper) r = Solver.dualObjective S r := by
  unfold Solver.dualObjective
  simp only
  congr 2
  funext acc i
  show (if 0 < r.evaluation.multiplier.get i && S.upperFinite.get i then _
    else if r.evaluation.multiplier.get i < 0 && S.lowerFinite.get i then _ else acc) = _
  split_ifs with hupper hlower
  · rw [Bool.and_eq_true] at hupper
    rw [get_withAbsent_upper S lower upper hupper.2]
  · rw [Bool.and_eq_true] at hlower
    rw [get_withAbsent_lower S lower upper hlower.2]
  · rfl

end ScaledProgram

theorem LineSearch.search?_congr {L L' : LineSearch T m} (hpieces : L'.pieces = L.pieces) (heta : L'.eta = L.eta)
    (hbeta : L'.beta = L.beta) (c : Settings T) : L'.search? c = L.search? c := by
  have hslope : L'.initialSlope = L.initialSlope := by simp only [initialSlope, hpieces, heta, hbeta]
  have htrial : L'.firstTrial = L.firstTrial := by simp only [firstTrial, hslope, breakpoints, hpieces]
  have hback (slope : T) (tries : Nat) (τ : T) : L'.backtrack c slope tries τ = L.backtrack c slope tries τ := by
    induction tries generalizing τ with
    | zero => rfl
    | succ tries ih =>
        have hdecrease : L'.decrease τ = L.decrease τ := by simp only [decrease, hpieces, heta, hbeta]
        unfold backtrack sufficient
        rw [hdecrease, ih]
  simp only [search?, hslope, htrial, hback]

theorem NewtonState.search?_withAbsent (S : ScaledProgram T n m) (lower upper : Vector T m) (s : NewtonState T n m)
    (p : Point T n m) (d : Vector T n) (Ad : Vector T m) (Qd : Vector T n) (c : Settings T) :
    (s.lineSearch (S.withAbsent lower upper) p d Ad Qd).search? c = (s.lineSearch S p d Ad Qd).search? c := by
  have hpieces : (s.lineSearch (S.withAbsent lower upper) p d Ad Qd).pieces = (s.lineSearch S p d Ad Qd).pieces := by
    unfold LineSearch.pieces
    refine List.flatMap_congr fun i _ => congrArg₂ (· ++ ·) ?_ ?_
    · show (if S.lowerFinite.get i then _ else _) = if S.lowerFinite.get i then _ else _
      split
      · next h => simp only [LineSearch.lowerPiece, lineSearch, S.get_withAbsent_lower lower upper h]
      · rfl
    · show (if S.upperFinite.get i then _ else _) = if S.upperFinite.get i then _ else _
      split
      · next h => simp only [LineSearch.upperPiece, lineSearch, S.get_withAbsent_upper lower upper h]
      · rfl
  exact LineSearch.search?_congr hpieces rfl rfl c

theorem ScaledProgram.samePresent_withAbsent (S : ScaledProgram T n m) (lower upper : Vector T m) :
    S.SamePresent (S.withAbsent lower upper) where
  search := NewtonState.search?_withAbsent S lower upper
  primal := S.isPrimalInfeasible_withAbsent lower upper
  dual _ _ _ _ := rfl
  objective := S.dualObjective_withAbsent lower upper

end Marks

/-! ## What goes by the value -/

variable {K : Type} [ExactScalar K] {n m : Nat} {S : ScaledProgram K n m}

namespace Scalar

theorem lt_clamp_iff {x lo hi : K} : x < clamp x lo hi ↔ x < lo := by
  refine ⟨fun h => ?_, fun h => ?_⟩
  · rw [clamp_eq_of_lt_clamp h] at h
    exact h
  · rw [clamp, if_pos h]
    exact h

theorem clamp_lt_iff {x lo hi : K} : clamp x lo hi < x ↔ ¬x < lo ∧ hi < x := by
  refine ⟨fun h => ⟨fun hlo => h.asymm (lt_clamp_iff.mpr hlo), ?_⟩, fun h => ?_⟩
  · rw [clamp_eq_of_clamp_lt h] at h
    exact h
  · rw [clamp, if_neg h.1, if_pos h.2]
    exact h.2

end Scalar

namespace ScaledProgram

/-- The limit stands in the place of every bound that is marked as absent. -/
def MarksAbsent (S : ScaledProgram K n m) : Prop :=
  ∀ i, (S.lowerFinite.get i = false → S.bmin.get i = -S.limit) ∧ (S.upperFinite.get i = false → S.bmax.get i = S.limit)

/-- The value `w` lies outside of a bound of row `i` that is present. -/
def OutsidePresent (S : ScaledProgram K n m) (w : K) (i : Fin m) : Prop :=
  S.lowerFinite.get i = true ∧ w < S.bmin.get i ∨ S.upperFinite.get i = true ∧ S.bmax.get i < w

/-- The projection of `w` onto the bounds of row `i` that are present. -/
def presentPart (S : ScaledProgram K n m) (w : K) (i : Fin m) : K :=
  if S.lowerFinite.get i = true ∧ w < S.bmin.get i then S.bmin.get i
  else if S.upperFinite.get i = true ∧ S.bmax.get i < w then S.bmax.get i
  else w

/-- Row `i` has no lower bound, but `w` is taken for a value below it. -/
def BelowAbsent (S : ScaledProgram K n m) (w : K) (i : Fin m) : Prop := S.lowerFinite.get i = false ∧ w < -S.limit

/-- Row `i` has no upper bound, but `w` is taken for a value above it. It is not if it lies below the lower bound. -/
def AboveAbsent (S : ScaledProgram K n m) (w : K) (i : Fin m) : Prop :=
  S.upperFinite.get i = false ∧ S.limit < w ∧ ¬(S.lowerFinite.get i = true ∧ w < S.bmin.get i)

instance (S : ScaledProgram K n m) (w : K) (i : Fin m) : Decidable (S.OutsidePresent w i) :=
  inferInstanceAs (Decidable (_ ∨ _))

theorem IsScaling.marksAbsent {P : PosedProblem K n m} {limit : K} (h : S.IsScaling P limit) : S.MarksAbsent := by
  refine fun i => ⟨fun habsent => ?_, fun habsent => ?_⟩
  · rw [h.lowerFinite_eq, decide_eq_false_iff_not] at habsent
    rw [h.lower_eq, if_neg habsent, h.limit_eq]
  · rw [h.upperFinite_eq, decide_eq_false_iff_not] at habsent
    rw [h.upper_eq, if_neg habsent, h.limit_eq]

variable {w : K} {i : Fin m}

theorem MarksAbsent.lt_lower_iff (h : S.MarksAbsent) :
    w < S.bmin.get i ↔ S.BelowAbsent w i ∨ S.lowerFinite.get i = true ∧ w < S.bmin.get i := by
  unfold BelowAbsent
  cases hlower : S.lowerFinite.get i with
  | true => simp
  | false => simp [(h i).1 hlower]

theorem MarksAbsent.upper_lt_iff (h : S.MarksAbsent) (hlimit : 0 < S.limit) :
    ¬w < S.bmin.get i ∧ S.bmax.get i < w ↔ S.AboveAbsent w i ∨
      S.upperFinite.get i = true ∧ ¬w < S.bmin.get i ∧ S.bmax.get i < w := by
  unfold AboveAbsent
  cases hupper : S.upperFinite.get i with
  | true => simp
  | false =>
      cases hlower : S.lowerFinite.get i with
      | true => simp [(h i).2 hupper, and_comm]
      | false =>
          -- beyond the positive limit a value is not below the negative one
          have himplied : S.limit < w → ¬w < -S.limit := fun hw => by linarith
          simp only [(h i).1 hlower, (h i).2 hupper]
          tauto

/-- A value is projected onto the present bounds alone unless it is taken for one beyond an absent bound. -/
theorem MarksAbsent.clamp_eq_iff (h : S.MarksAbsent) (hlimit : 0 < S.limit) :
    Scalar.clamp w (S.bmin.get i) (S.bmax.get i) = S.presentPart w i ↔ ¬S.BelowAbsent w i ∧ ¬S.AboveAbsent w i := by
  unfold Scalar.clamp presentPart
  by_cases hlow : w < S.bmin.get i
  · rw [if_pos hlow]
    rcases h.lt_lower_iff.mp hlow with hbelow | hpresent
    · -- the present part is at most `w`, and so it is not the negative limit
      refine iff_of_false ?_ fun hnot => hnot.1 hbelow
      rw [if_neg fun hpresent => Bool.false_ne_true (hbelow.1.symm.trans hpresent.1), (h i).1 hbelow.1]
      split_ifs with hout
      · exact (hout.2.trans hbelow.2).ne'
      · exact hbelow.2.ne'
    · rw [if_pos hpresent]
      exact iff_of_true rfl ⟨fun hbelow => Bool.false_ne_true (hbelow.1.symm.trans hpresent.1),
        fun habove => habove.2.2 hpresent⟩
  · have hnotOutside : ¬(S.lowerFinite.get i = true ∧ w < S.bmin.get i) := fun hpresent => hlow hpresent.2
    rw [if_neg hlow, if_neg hnotOutside]
    have hnotBelow : ¬S.BelowAbsent w i := fun hbelow => hlow (h.lt_lower_iff.mpr (.inl hbelow))
    by_cases hup : S.bmax.get i < w
    · rw [if_pos hup]
      rcases (h.upper_lt_iff hlimit).mp ⟨hlow, hup⟩ with habove | hpresent
      · rw [if_neg fun hpresent => Bool.false_ne_true (habove.1.symm.trans hpresent.1), (h i).2 habove.1]
        exact iff_of_false habove.2.1.ne fun hnot => hnot.2 habove
      · rw [if_pos ⟨hpresent.1, hup⟩]
        exact iff_of_true rfl ⟨hnotBelow, fun habove => Bool.false_ne_true (habove.1.symm.trans hpresent.1)⟩
    · rw [if_neg hup, if_neg fun hpresent => hup hpresent.2]
      refine iff_of_true rfl ⟨hnotBelow, fun habove => hup ?_⟩
      exact ((h.upper_lt_iff hlimit).mpr (.inl habove)).2

end ScaledProgram

namespace Evaluation

variable {p : Point K n m} {sigma : Vector K m} {rho : K} {i : Fin m}

/-- Row `i` of an evaluation in which `w` was projected is what the present bounds alone make of it. -/
structure GoesByPresent (e : Evaluation K n m) (S : ScaledProgram K n m) (sigma w : Fin m → K) (i : Fin m) : Prop where
  z : e.z.get i = S.presentPart (w i) i
  active : e.active.get i = decide (S.OutsidePresent (w i) i)
  multiplier : e.multiplier.get i = sigma i * (w i - S.presentPart (w i) i)

/-- Row `i` of an evaluation is that of a value beyond an absent bound: it is active, and pushed back to the limit. -/
structure PushedBack (e : Evaluation K n m) (S : ScaledProgram K n m) (i : Fin m) : Prop where
  active : e.active.get i = true
  z : e.multiplier.get i < 0 ∧ e.z.get i = -S.limit ∨ 0 < e.multiplier.get i ∧ e.z.get i = S.limit

theorem multiplier_neg_iff (hsigma : ∀ i, 0 < sigma.get i) :
    (ofPoint S p sigma rho).multiplier.get i < 0 ↔ (shifted p sigma).get i < S.bmin.get i := by
  have hneg {v : K} : sigma.get i * v < 0 ↔ v < 0 := smul_neg_iff_of_pos_left (hsigma i)
  rw [multiplier_eq hsigma, get_z, hneg, sub_neg, Scalar.lt_clamp_iff]

theorem multiplier_pos_iff (hsigma : ∀ i, 0 < sigma.get i) :
    0 < (ofPoint S p sigma rho).multiplier.get i ↔
      ¬(shifted p sigma).get i < S.bmin.get i ∧ S.bmax.get i < (shifted p sigma).get i := by
  rw [multiplier_eq hsigma, get_z, mul_pos_iff_of_pos_left (hsigma i), sub_pos, Scalar.clamp_lt_iff]

theorem multiplier_pos_iff_aboveAbsent (h : S.MarksAbsent) (hlimit : 0 < S.limit) (hsigma : ∀ i, 0 < sigma.get i)
    (habsent : S.upperFinite.get i = false) :
    0 < (ofPoint S p sigma rho).multiplier.get i ↔ S.AboveAbsent ((shifted p sigma).get i) i := by
  rw [multiplier_pos_iff hsigma, h.upper_lt_iff hlimit, habsent]
  simp

theorem multiplier_neg_iff_belowAbsent (h : S.MarksAbsent) (hsigma : ∀ i, 0 < sigma.get i)
    (habsent : S.lowerFinite.get i = false) :
    (ofPoint S p sigma rho).multiplier.get i < 0 ↔ S.BelowAbsent ((shifted p sigma).get i) i := by
  rw [multiplier_neg_iff hsigma, h.lt_lower_iff, habsent]
  simp

theorem active_iff (h : S.MarksAbsent) (hlimit : 0 < S.limit) :
    (ofPoint S p sigma rho).active.get i = true ↔ S.OutsidePresent ((shifted p sigma).get i) i ∨
      S.BelowAbsent ((shifted p sigma).get i) i ∨ S.AboveAbsent ((shifted p sigma).get i) i := by
  have hactive : (ofPoint S p sigma rho).active.get i = true ↔
      (shifted p sigma).get i < S.bmin.get i ∨ S.bmax.get i < (shifted p sigma).get i := by
    rw [ofPoint, Vec.get_ofFn, Bool.or_eq_true, decide_eq_true_eq, decide_eq_true_eq]
  rw [hactive]
  constructor
  · intro hout
    by_cases hlow : (shifted p sigma).get i < S.bmin.get i
    · rcases h.lt_lower_iff.mp hlow with hbelow | hpresent
      · exact .inr (.inl hbelow)
      · exact .inl (.inl hpresent)
    · rcases (h.upper_lt_iff hlimit).mp ⟨hlow, hout.resolve_left hlow⟩ with habove | hpresent
      · exact .inr (.inr habove)
      · exact .inl (.inr ⟨hpresent.1, hpresent.2.2⟩)
  · rintro ((hlow | hup) | hbelow | habove)
    · exact .inl hlow.2
    · exact .inr hup.2
    · exact .inl (h.lt_lower_iff.mpr (.inl hbelow))
    · exact .inr ((h.upper_lt_iff hlimit).mpr (.inl habove)).2

/-- A row goes by the present bounds unless its value is taken for one beyond an absent bound. -/
theorem goesByPresent_iff (h : S.MarksAbsent) (hlimit : 0 < S.limit) (hsigma : ∀ i, 0 < sigma.get i) (i : Fin m) :
    (ofPoint S p sigma rho).GoesByPresent S sigma.get (shifted p sigma).get i ↔
      ¬S.BelowAbsent ((shifted p sigma).get i) i ∧ ¬S.AboveAbsent ((shifted p sigma).get i) i := by
  rw [← h.clamp_eq_iff hlimit]
  constructor
  · intro hpresent
    rw [← get_z]
    exact hpresent.z
  · intro hclamp
    obtain ⟨hbelow, habove⟩ := (h.clamp_eq_iff hlimit).mp hclamp
    refine { z := (get_z i).trans hclamp, active := ?_, multiplier := ?_ }
    · rw [Bool.eq_iff_iff, active_iff h hlimit, decide_eq_true_eq]
      exact ⟨fun hout => hout.resolve_right fun hbeyond => hbeyond.elim hbelow habove, .inl⟩
    · rw [multiplier_eq hsigma, get_z, hclamp]

theorem pushedBack_of_beyond (h : S.MarksAbsent) (hlimit : 0 < S.limit) (hsigma : ∀ i, 0 < sigma.get i)
    (hbeyond : S.BelowAbsent ((shifted p sigma).get i) i ∨ S.AboveAbsent ((shifted p sigma).get i) i) :
    (ofPoint S p sigma rho).PushedBack S i := by
  refine { active := (active_iff h hlimit).mpr (.inr hbeyond), z := ?_ }
  rcases hbeyond with hbelow | habove
  · have hneg : (ofPoint S p sigma rho).multiplier.get i < 0 :=
      (multiplier_neg_iff_belowAbsent h hsigma hbelow.1).mpr hbelow
    exact .inl ⟨hneg, (z_of_multiplier_neg hsigma hneg).trans ((h i).1 hbelow.1)⟩
  · have hpos : 0 < (ofPoint S p sigma rho).multiplier.get i :=
      (multiplier_pos_iff_aboveAbsent h hlimit hsigma habove.1).mpr habove
    exact .inr ⟨hpos, (z_of_multiplier_pos hsigma hpos).trans ((h i).2 habove.1)⟩

end Evaluation

/-! ## Runs -/

namespace Run

variable {r start : Run K n m} {c : Settings K} {expired : Nat → Bool} {P : PosedProblem K n m} {limit : K}

/-- Wherever a pass of a solve begins, the products are up to date and the penalties positive. -/
theorem Begins.coherent (h : Begins S c expired start r) (hQ : S.Q.Upper) (hn : S.Q.cols = n)
    (hc : c.validate = .ok ()) (hstart : start.Coherent S) (hinfo : start.info = Info.blank) :
    r.Coherent S ∧ r.WithinLimits c := by
  have hlimits {r : Run K n m} (hr : r.info = Info.blank) : r.WithinLimits c := by
    rw [WithinLimits, hr]
    exact ⟨Nat.zero_le _, Settings.maxOuterIter_pos hc⟩
  induction h with
  | unfactored _ => exact ⟨hstart, hlimits hinfo⟩
  | @factored newton log _ hinitial =>
      have hsigma := NewtonState.sigma_factorInitial (P := S) (c := c) (start.evaluate S).newton
        (start.evaluate S).evaluation.active
      rw [hinitial] at hsigma
      exact ⟨⟨hstart.carries, fun i => hsigma ▸ hstart.positive i⟩, hlimits hinfo⟩
  | next _ hnone ih =>
      obtain ⟨hcoherent, -, hcontinues⟩ := pass_spec hQ hn hc ih.1 ih.2 expired
      exact ⟨hcoherent, (hcontinues hnone).1⟩

/-- The values `A x + y / σ` of the rows. -/
def shifted (r : Run K n m) (i : Fin m) : K := (Evaluation.shifted r.point r.newton.penalty.sigma).get i

theorem Coherent.measure_row (hr : r.Coherent S) (h : S.IsScaling P limit) (hlimit : 0 < limit) (i : Fin m) :
    ((r.measure S).evaluation.GoesByPresent S r.newton.penalty.sigma.get r.shifted i ↔
        ¬S.BelowAbsent (r.shifted i) i ∧ ¬S.AboveAbsent (r.shifted i) i) ∧
      (S.BelowAbsent (r.shifted i) i ∨ S.AboveAbsent (r.shifted i) i → (r.measure S).evaluation.PushedBack S i) := by
  have hlimit' : 0 < S.limit := by rwa [h.limit_eq]
  exact ⟨Evaluation.goesByPresent_iff h.marksAbsent hlimit' hr.positive i,
    Evaluation.pushedBack_of_beyond h.marksAbsent hlimit' hr.positive⟩

/-- The evaluation of the run is one in which `w` was projected onto the bounds. -/
def Projects (r : Run K n m) (S : ScaledProgram K n m) (w : Fin m → K) : Prop :=
  ∃ (y sigma : Vector K m) (center : Vector K n) (rho : K), (∀ i, 0 < sigma.get i) ∧
    r.evaluation = Evaluation.ofPoint S { r.point with y, center } sigma rho ∧
      w = (Evaluation.shifted { r.point with y, center } sigma).get

theorem Measured.exists_projects (h : r.Measured S) : ∃ w, r.Projects S w := by
  obtain ⟨y, sigma, center, rho, hsigma, heval, -⟩ := h
  exact ⟨_, y, sigma, center, rho, hsigma, heval, rfl⟩

/-- A reported multiplier pushes against an absent bound if and only if its row was taken for one beyond that bound. -/
theorem Projects.reportedDual_signs {w : Fin m → K} (hr : r.Projects S w) (h : S.IsScaling P limit) (hlimit : 0 < limit)
    (i : Fin m) :
    (¬P.HasUpper limit i → (0 < r.reportedDual S i ↔ S.AboveAbsent (w i) i)) ∧
      (¬P.HasLower limit i → (r.reportedDual S i < 0 ↔ S.BelowAbsent (w i) i)) := by
  obtain ⟨y, sigma, center, rho, hsigma, heval, rfl⟩ := hr
  have hfactor := dual_factor_pos h i
  have hlimit' : 0 < S.limit := by rwa [h.limit_eq]
  rw [reportedDual, heval, mul_assoc, mul_pos_iff_of_pos_right hfactor]
  refine ⟨fun habsent => ?_, fun habsent => ?_⟩
  · refine Evaluation.multiplier_pos_iff_aboveAbsent h.marksAbsent hlimit' hsigma ?_
    rw [h.upperFinite_eq, decide_eq_false habsent]
  · have hneg {v : K} : v * (S.scaling.e.get i * S.scaling.c⁻¹) < 0 ↔ v < 0 := by
      rw [mul_comm]
      exact smul_neg_iff_of_pos_left hfactor
    rw [hneg]
    refine Evaluation.multiplier_neg_iff_belowAbsent h.marksAbsent hsigma ?_
    rw [h.lowerFinite_eq, decide_eq_false habsent]

/-- On a row without bounds the reported multiplier vanishes as long as the row stays within the limit. -/
theorem Projects.reportedDual_eq_zero_iff {w : Fin m → K} (hr : r.Projects S w) (h : S.IsScaling P limit)
    (hlimit : 0 < limit) {i : Fin m} (hlower : ¬P.HasLower limit i) (hupper : ¬P.HasUpper limit i) :
    r.reportedDual S i = 0 ↔ |w i| ≤ limit := by
  obtain ⟨hpos, hneg⟩ := hr.reportedDual_signs h hlimit i
  have hupper' : S.upperFinite.get i = false := by rw [h.upperFinite_eq, decide_eq_false hupper]
  have hlower' : S.lowerFinite.get i = false := by rw [h.lowerFinite_eq, decide_eq_false hlower]
  have habove : S.AboveAbsent (w i) i ↔ limit < w i := by
    simp [ScaledProgram.AboveAbsent, hupper', hlower', h.limit_eq]
  have hbelow : S.BelowAbsent (w i) i ↔ w i < -limit := by
    simp [ScaledProgram.BelowAbsent, hlower', h.limit_eq]
  rw [le_antisymm_iff, abs_le, and_comm, ← not_lt, ← not_lt, hpos hupper, hneg hlower, habove, hbelow, not_lt, not_lt]

end Run
end AugLag
