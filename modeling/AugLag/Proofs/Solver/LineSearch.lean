import Mathlib
import AugLag.Proofs.Insertion
import AugLag.Proofs.Solver.Spectrum
import AugLag.Solver.LineSearch

/-!
# The line search

Along a direction the augmented Lagrangian is a parabola with one piece for each bound that is present. The slope of
a piece is zero on one side of its breakpoint and a line on the other, so that crossing the breakpoint bends the slope.
The sweep keeps the line that the slope follows up to the next breakpoint, which leads it to the first zero.
-/

namespace AugLag

variable {K : Type} [ExactScalar K] {m : Nat}

namespace LineSearch

/-! ## One piece -/

namespace Piece

/-- The derivative of the value of a piece. -/
def slope (p : Piece K) (τ : K) : K := p.delta * max 0 (p.delta * τ - p.alpha)

/-- What the breakpoint of a piece adds to the slope behind it. -/
def bend (p : Piece K) (τ : K) : K :=
  (if 0 < p.delta then 1 else -1) * p.delta ^ 2 * max 0 (τ - p.breakpoint)

/-- The line that the slope of a piece follows immediately after zero. -/
def start (p : Piece K) (τ : K) : K := if p.startsActive then p.delta * (p.delta * τ - p.alpha) else 0

theorem value_eq (p : Piece K) (τ : K) : p.value τ = max 0 (p.delta * τ - p.alpha) ^ 2 / 2 := by
  rw [value, Scalar.max_eq_max, Scalar.half_eq]
  ring

/-- A square of a positive part lies above each of its tangents, by no more than a parabola. -/
theorem sq_posPart_bounds (u v : K) :
    max 0 u * (v - u) ≤ max 0 v ^ 2 / 2 - max 0 u ^ 2 / 2 ∧
      max 0 v ^ 2 / 2 - max 0 u ^ 2 / 2 ≤ max 0 u * (v - u) + (v - u) ^ 2 / 2 := by
  rcases le_total u 0 with hu | hu <;> rcases le_total v 0 with hv | hv <;>
    simp only [max_eq_left, max_eq_right, hu, hv]
  · exact ⟨by simp, by nlinarith [sq_nonneg (v - u)]⟩
  · exact ⟨by nlinarith [sq_nonneg v], by nlinarith⟩
  · exact ⟨by nlinarith, by nlinarith [sq_nonneg v]⟩
  · exact ⟨by nlinarith [sq_nonneg (v - u)], by nlinarith⟩

theorem slope_mul_le (p : Piece K) (s t : K) : p.slope s * (t - s) ≤ p.value t - p.value s := by
  have hline := (sq_posPart_bounds (p.delta * s - p.alpha) (p.delta * t - p.alpha)).1
  rw [value_eq, value_eq, slope]
  linarith

theorem value_sub_le (p : Piece K) (s t : K) :
    p.value t - p.value s ≤ p.slope s * (t - s) + p.delta ^ 2 / 2 * (t - s) ^ 2 := by
  have hparabola := (sq_posPart_bounds (p.delta * s - p.alpha) (p.delta * t - p.alpha)).2
  rw [value_eq, value_eq, slope]
  linarith

theorem bend_of_le {p : Piece K} {τ : K} (h : τ ≤ p.breakpoint) : p.bend τ = 0 := by
  rw [bend, max_eq_left (sub_nonpos.mpr h), mul_zero]

theorem line_eq (p : Piece K) (hδ : p.delta ≠ 0) (τ : K) :
    p.delta * τ - p.alpha = p.delta * (τ - p.breakpoint) := by
  rw [breakpoint, mul_sub, mul_div_cancel₀ _ hδ]

/-- A rising piece counts from its breakpoint on. -/
theorem max_line_of_pos {p : Piece K} (hδ : 0 < p.delta) (τ : K) :
    max 0 (p.delta * τ - p.alpha) = p.delta * max 0 (τ - p.breakpoint) := by
  rw [line_eq p hδ.ne', mul_max_of_nonneg _ _ hδ.le, mul_zero]

/-- A falling piece counts up to its breakpoint. -/
theorem max_line_of_neg {p : Piece K} (hδ : p.delta < 0) (τ : K) :
    max 0 (p.delta * τ - p.alpha) = p.delta * (τ - p.breakpoint) - p.delta * max 0 (τ - p.breakpoint) := by
  rw [line_eq p hδ.ne]
  rcases le_total τ p.breakpoint with h | h
  · rw [max_eq_left (sub_nonpos.mpr h), max_eq_right (mul_nonneg_of_nonpos_of_nonpos hδ.le (sub_nonpos.mpr h))]
    ring
  · rw [max_eq_right (sub_nonneg.mpr h), max_eq_left (mul_nonpos_of_nonpos_of_nonneg hδ.le (sub_nonneg.mpr h))]
    ring

/-- A piece with a breakpoint beyond zero bends there. Any other piece keeps to the line that it starts on. -/
theorem slope_eq (p : Piece K) {τ : K} (hτ : 0 ≤ τ) :
    p.slope τ = p.start τ + if p.delta ≠ 0 ∧ 0 < p.breakpoint then p.bend τ else 0 := by
  rcases lt_trichotomy p.delta 0 with hδ | hδ | hδ
  · by_cases hα : p.alpha < 0
    · have hpos : 0 < p.breakpoint := div_pos_of_neg_of_neg hα hδ
      have hactive : p.startsActive = true := by simp [startsActive, hα]
      rw [slope, start, if_pos hactive, if_pos ⟨hδ.ne, hpos⟩, max_line_of_neg hδ, bend, if_neg hδ.asymm,
        line_eq p hδ.ne]
      ring
    · have hpos : ¬0 < p.breakpoint := (div_nonpos_of_nonneg_of_nonpos (not_lt.mp hα) hδ.le).not_gt
      have hidle : ¬p.startsActive = true := by simp [startsActive, not_lt.mp hα, hδ.le]
      rw [slope, start, if_neg hidle, if_neg fun h => hpos h.2, add_zero, max_eq_left, mul_zero]
      linarith [mul_nonpos_of_nonpos_of_nonneg hδ.le hτ, not_lt.mp hα]
  · simp [slope, start, hδ]
  · by_cases hα : 0 < p.alpha
    · have hpos : 0 < p.breakpoint := div_pos hα hδ
      have hidle : ¬p.startsActive = true := by simp [startsActive, hα.le, hα.ne']
      rw [slope, start, if_neg hidle, if_pos ⟨hδ.ne', hpos⟩, max_line_of_pos hδ, bend, if_pos hδ]
      ring
    · have hpos : ¬0 < p.breakpoint := (div_nonpos_of_nonpos_of_nonneg (not_lt.mp hα) hδ.le).not_gt
      have hactive : p.startsActive = true := by
        rcases (not_lt.mp hα).lt_or_eq with h | h <;> simp [startsActive, hδ, h]
      rw [slope, start, if_pos hactive, if_neg fun h => hpos h.2, add_zero, max_eq_right]
      linarith [mul_nonneg hδ.le hτ, not_lt.mp hα]

end Piece

/-! ## The slope of all pieces -/

/-- The derivative of the decrease. -/
def slopeAt (S : LineSearch K m) (τ : K) : K := S.eta * τ + S.beta + (S.pieces.map fun p => p.slope τ).sum

def Slope.at (s : Slope K) (τ : K) : K := s.a * τ + s.b

/-- The slope, as it follows a line until the pieces bend it at their breakpoints. -/
def Slope.bent (s : Slope K) (l : List (K × Piece K)) (τ : K) : K := s.at τ + (l.map fun q => q.2.bend τ).sum

theorem Slope.add_at (s : Slope K) (p : Piece K) (τ : K) :
    (s.add p).at τ = s.at τ + p.delta * (p.delta * τ - p.alpha) := by
  simp only [Slope.add, Slope.at]
  ring

/-- The line behind a breakpoint meets the line in front of it there. -/
theorem Slope.cross_at (s : Slope K) {p : Piece K} (hδ : p.delta ≠ 0) {τ : K} (h : p.breakpoint ≤ τ) :
    (s.cross p).at τ = s.at τ + p.bend τ := by
  rw [Piece.bend, max_eq_right (sub_nonneg.mpr h)]
  have hline := p.line_eq hδ τ
  unfold Slope.cross
  split
  · rw [add_at, hline]
    ring
  · simp only [Slope.remove, Slope.at]
    linear_combination -p.delta * hline

theorem initialSlope_at (S : LineSearch K m) (τ : K) :
    S.initialSlope.at τ = S.eta * τ + S.beta + (S.pieces.map fun p => p.start τ).sum := by
  have hfold : ∀ (l : List (Piece K)) (s : Slope K),
      (l.foldl (fun s p => if p.startsActive then s.add p else s) s).at τ =
        s.at τ + (l.map fun p => p.start τ).sum := by
    intro l
    induction l with
    | nil => intro s; simp
    | cons p l ih =>
        intro s
        rw [List.foldl_cons, ih, List.map_cons, List.sum_cons, ← add_assoc, Piece.start]
        split
        · rw [Slope.add_at]
        · rw [add_zero]
  exact hfold S.pieces _

/-- The entries of the list of breakpoints. -/
theorem mem_breakpoints {S : LineSearch K m} {q : K × Piece K} (hq : q ∈ S.breakpoints) :
    q.1 = q.2.breakpoint ∧ q.2.delta ≠ 0 ∧ 0 < q.2.breakpoint := by
  obtain ⟨p, hp, rfl⟩ := List.mem_map.mp ((perm_insertionSort _ _).mem_iff.mp hq)
  simpa using (List.mem_filter.mp hp).2

theorem pairwise_breakpoints (S : LineSearch K m) : S.breakpoints.Pairwise fun p q => p.1 ≤ q.1 := by
  refine (pairwise_insertionSort (fun p q h => ?_) (fun p q r hpq hqr => ?_) _).imp fun h => ?_
  · exact decide_eq_false (of_decide_eq_true h).asymm
  · exact decide_eq_false ((not_lt.mp (of_decide_eq_false hqr)).trans (not_lt.mp (of_decide_eq_false hpq))).not_gt
  · exact not_lt.mp (of_decide_eq_false h)

theorem slopeAt_eq_bent (S : LineSearch K m) {τ : K} (hτ : 0 ≤ τ) :
    S.slopeAt τ = S.initialSlope.bent S.breakpoints τ := by
  have hsum : ∀ l : List (Piece K), (l.map fun p => p.slope τ).sum = (l.map fun p => p.start τ).sum +
      ((l.filter fun p => !(p.delta == 0) && 0 < p.breakpoint).map fun p => p.bend τ).sum := by
    intro l
    induction l with
    | nil => simp
    | cons p l ih =>
        rw [List.map_cons, List.sum_cons, ih, p.slope_eq hτ, List.map_cons, List.sum_cons, List.filter_cons]
        by_cases hp : p.delta ≠ 0 ∧ 0 < p.breakpoint
        · rw [if_pos hp, if_pos (by simpa using hp), List.map_cons, List.sum_cons]
          ring
        · rw [if_neg hp, if_neg (by simpa using hp)]
          ring
  have hperm := (perm_insertionSort (fun p q : K × Piece K => decide (p.1 < q.1))
    ((S.pieces.filter fun p => !(p.delta == 0) && 0 < p.breakpoint).map fun p => (p.breakpoint, p))).map
      fun q => q.2.bend τ
  rw [slopeAt, hsum, Slope.bent, initialSlope_at, breakpoints, hperm.sum_eq, List.map_map, ← add_assoc]
  rfl

theorem sum_bend_eq_zero {l : List (K × Piece K)} {τ : K} (h : ∀ q ∈ l, τ ≤ q.2.breakpoint) :
    (l.map fun q => q.2.bend τ).sum = 0 := by
  refine List.sum_eq_zero fun v hv => ?_
  obtain ⟨q, hq, rfl⟩ := List.mem_map.mp hv
  exact Piece.bend_of_le (h q hq)

/-- Behind zero the slope begins at the constant of its first line. -/
theorem slopeAt_zero (S : LineSearch K m) : S.slopeAt 0 = S.initialSlope.b := by
  rw [S.slopeAt_eq_bent le_rfl, Slope.bent, sum_bend_eq_zero fun q hq => (mem_breakpoints hq).2.2.le, Slope.at]
  ring

/-! ## The sweep -/

/-- A line that rises from a negative value has its zero further on. -/
theorem Slope.root_spec {s : Slope K} (ha : 0 < s.a) {t₀ : K} (hfall : s.a * t₀ + s.b < 0) :
    t₀ < -s.b / s.a ∧ s.at (-s.b / s.a) = 0 := by
  refine ⟨(lt_div_iff₀ ha).mpr (by linarith), ?_⟩
  rw [Slope.at, mul_div_cancel₀ _ ha.ne']
  ring

/-- A slope that is negative at `t₀` is followed from there. Either it rises to zero, and the sweep ends at a zero
beyond `t₀`; or it stays negative behind the last breakpoint, and the step has unit length. -/
theorem sweep_spec {l : List (K × Piece K)} (hbreak : ∀ q ∈ l, q.1 = q.2.breakpoint ∧ q.2.delta ≠ 0)
    (hsorted : l.Pairwise fun p q => p.1 ≤ q.1) {s : Slope K} {t₀ : K} (hfrom : ∀ q ∈ l, t₀ ≤ q.1)
    (hfall : s.at t₀ < 0) :
    (t₀ < sweep s l ∧ s.bent l (sweep s l) = 0) ∨
      (sweep s l = 1 ∧ ∃ t₁, t₀ ≤ t₁ ∧ ∀ τ, t₁ ≤ τ → s.bent l τ < 0) := by
  unfold Slope.at at hfall
  induction l generalizing s t₀ with
  | nil =>
      simp only [sweep, Slope.bent, List.map_nil, List.sum_nil, add_zero]
      by_cases ha : 0 < s.a
      · rw [if_pos ha]
        exact .inl (Slope.root_spec ha hfall)
      · rw [if_neg ha]
        refine .inr ⟨rfl, t₀, le_rfl, fun τ hτ => ?_⟩
        unfold Slope.at
        nlinarith
  | cons q l ih =>
      obtain ⟨t, p⟩ := q
      obtain ⟨htp, hδ⟩ := hbreak _ List.mem_cons_self
      obtain ⟨hnext, hsorted⟩ := List.pairwise_cons.mp hsorted
      have ht : t₀ ≤ t := hfrom _ List.mem_cons_self
      have hrest : ∀ q ∈ l, q.1 = q.2.breakpoint ∧ q.2.delta ≠ 0 := fun q hq => hbreak q (List.mem_cons_of_mem _ hq)
      by_cases hrise : 0 ≤ s.a * t + s.b
      · -- the line rises from a negative value to one that is not, so its zero lies in front of all breakpoints
        have hstep : 0 < s.a * (t - t₀) := by linarith
        have ha : 0 < s.a := pos_of_mul_pos_left hstep (sub_nonneg.mpr ht)
        have hle : -s.b / s.a ≤ t := (div_le_iff₀ ha).mpr (by linarith)
        rw [sweep, if_pos hrise, if_pos ha, Slope.bent, sum_bend_eq_zero, add_zero]
        · exact .inl (Slope.root_spec ha hfall)
        · intro q hq
          rcases List.mem_cons.mp hq with rfl | hq
          · exact htp ▸ hle
          · exact (hrest q hq).1 ▸ hle.trans (hnext q hq)
      · have hcross : ∀ τ, t ≤ τ → (s.cross p).bent l τ = s.bent ((t, p) :: l) τ := by
          intro τ hτ
          rw [Slope.bent, Slope.bent, s.cross_at hδ (htp ▸ hτ), List.map_cons, List.sum_cons, add_assoc]
        have hfall' : (s.cross p).a * t + (s.cross p).b < 0 := by
          have hmeet := s.cross_at hδ htp.ge
          rw [Piece.bend_of_le htp.le, add_zero] at hmeet
          exact hmeet.trans_lt (not_le.mp hrise)
        rw [sweep, if_neg hrise]
        rcases ih hrest hsorted hnext hfall' with ⟨hlt, hzero⟩ | ⟨hone, t₁, ht₁, hneg⟩
        · exact .inl ⟨ht.trans_lt hlt, (hcross _ hlt.le).symm.trans hzero⟩
        · exact .inr ⟨hone, t₁, ht.trans ht₁, fun τ hτ => (hcross τ (ht₁.trans hτ)).symm.trans_lt (hneg τ hτ)⟩

/-- Where the slope is negative immediately after zero, the first trial is a zero of the slope, or there is none and
the slope stays negative far out. -/
theorem firstTrial_spec (S : LineSearch K m) (hfall : S.slopeAt 0 < 0) :
    (0 < S.firstTrial ∧ S.slopeAt S.firstTrial = 0) ∨
      (S.firstTrial = 1 ∧ ∃ t₁, 0 ≤ t₁ ∧ ∀ τ, t₁ ≤ τ → S.slopeAt τ < 0) := by
  have hstart : S.initialSlope.at 0 < 0 := by
    rw [slopeAt_zero] at hfall
    simpa [Slope.at] using hfall
  rcases sweep_spec (fun q hq => ⟨(mem_breakpoints hq).1, (mem_breakpoints hq).2.1⟩) S.pairwise_breakpoints
      (fun q hq => ((mem_breakpoints hq).1 ▸ (mem_breakpoints hq).2.2.le : 0 ≤ q.1)) hstart with
    ⟨hpos, hzero⟩ | ⟨hone, t₁, ht₁, hneg⟩
  · exact .inl ⟨hpos, (S.slopeAt_eq_bent hpos.le).trans hzero⟩
  · exact .inr ⟨hone, t₁, ht₁, fun τ hτ => (S.slopeAt_eq_bent (ht₁.trans hτ)).trans_lt (hneg τ hτ)⟩

theorem firstTrial_pos (S : LineSearch K m) (hfall : S.slopeAt 0 < 0) : 0 < S.firstTrial := by
  rcases S.firstTrial_spec hfall with ⟨hpos, -⟩ | ⟨hone, -⟩
  · exact hpos
  · exact hone ▸ one_pos

/-! ## The decrease -/

theorem decrease_eq (S : LineSearch K m) (τ : K) :
    S.decrease τ = S.eta / 2 * τ ^ 2 + S.beta * τ + (S.pieces.map fun p => p.value τ - p.value 0).sum := by
  rw [decrease, SparseMatrix.foldl_add_eq_sum, Scalar.half_eq]
  ring

theorem decrease_sub (S : LineSearch K m) (s t : K) :
    S.decrease t - S.decrease s =
      S.eta / 2 * (t ^ 2 - s ^ 2) + S.beta * (t - s) + (S.pieces.map fun p => p.value t - p.value s).sum := by
  have hsum : ∀ l : List (Piece K), (l.map fun p => p.value t - p.value 0).sum =
      (l.map fun p => p.value t - p.value s).sum + (l.map fun p => p.value s - p.value 0).sum := by
    intro l
    rw [← List.sum_map_add]
    simp only [sub_add_sub_cancel]
  rw [decrease_eq, decrease_eq, hsum]
  ring

theorem decrease_zero (S : LineSearch K m) : S.decrease 0 = 0 := by
  simp [decrease_eq]

/-- How fast the slope grows at most. -/
def steepness (S : LineSearch K m) : K := S.eta + (S.pieces.map fun p => p.delta ^ 2).sum

/-- Apart from the parabola the decrease lies above its tangents, by no more than another parabola. -/
theorem decrease_bounds (S : LineSearch K m) (s t : K) :
    S.slopeAt s * (t - s) + S.eta / 2 * (t - s) ^ 2 ≤ S.decrease t - S.decrease s ∧
      S.decrease t - S.decrease s ≤ S.slopeAt s * (t - s) + S.steepness / 2 * (t - s) ^ 2 := by
  have hbelow : (S.pieces.map fun p => p.slope s).sum * (t - s) ≤ (S.pieces.map fun p => p.value t - p.value s).sum := by
    rw [← List.sum_map_mul_right]
    exact List.sum_le_sum fun p _ => p.slope_mul_le s t
  have habove : (S.pieces.map fun p => p.value t - p.value s).sum ≤
      (S.pieces.map fun p => p.slope s).sum * (t - s) + (S.pieces.map fun p => p.delta ^ 2).sum * ((t - s) ^ 2 / 2) := by
    rw [← List.sum_map_mul_right, ← List.sum_map_mul_right, ← List.sum_map_add]
    refine List.sum_le_sum fun p _ => (p.value_sub_le s t).trans_eq ?_
    ring
  rw [decrease_sub, slopeAt, steepness]
  constructor <;> linarith

/-- Where the parabola is not curved down, no tangent is ever crossed. -/
theorem tangent_le (S : LineSearch K m) (heta : 0 ≤ S.eta) (s t : K) :
    S.slopeAt s * (t - s) ≤ S.decrease t - S.decrease s := by
  have hbelow := (S.decrease_bounds s t).1
  have hsq : 0 ≤ S.eta / 2 * (t - s) ^ 2 := mul_nonneg (div_nonneg heta zero_le_two) (sq_nonneg _)
  linarith

/-! ## Backtracking -/

/-- The step that backtracking finds is the first of the shrinking steps that decreases sufficiently. -/
theorem backtrack_eq_some {S : LineSearch K m} {c : Settings K} {slope τ : K} {tries : Nat} {τ₀ : K}
    (h : S.backtrack c slope tries τ₀ = some τ) :
    ∃ k < tries, τ = τ₀ * c.linesearchBacktrackStep ^ k ∧ S.sufficient c slope τ = true ∧
      ∀ j < k, S.sufficient c slope (τ₀ * c.linesearchBacktrackStep ^ j) = false := by
  induction tries generalizing τ₀ with
  | zero => exact nomatch h
  | succ tries ih =>
      rw [backtrack] at h
      by_cases hfirst : S.sufficient c slope τ₀ = true
      · rw [if_pos hfirst, Option.some.injEq] at h
        subst h
        exact ⟨0, tries.succ_pos, by rw [pow_zero, mul_one], hfirst, fun j hj => absurd hj j.not_lt_zero⟩
      · rw [if_neg hfirst] at h
        obtain ⟨k, hk, hτ, hsufficient, hbefore⟩ := ih h
        refine ⟨k + 1, Nat.succ_lt_succ hk, by rw [hτ, pow_succ']; ring, hsufficient, fun j hj => ?_⟩
        cases j with
        | zero => simpa using hfirst
        | succ j =>
            have hj' := hbefore j (Nat.lt_of_succ_lt_succ hj)
            rwa [mul_assoc, ← pow_succ'] at hj'

/-- A step that the search takes is zero where the slope does not fall. Otherwise it is positive and decreases
sufficiently. -/
theorem search?_eq_some {S : LineSearch K m} {c : Settings K} (hstep : 0 < c.linesearchBacktrackStep) {τ : K}
    (h : S.search? c = some τ) :
    (τ = 0 ∧ 0 ≤ S.slopeAt 0) ∨
      (0 < τ ∧ S.slopeAt 0 < 0 ∧ S.decrease τ ≤ c.linesearchArmijo * τ * S.slopeAt 0) := by
  rw [search?, ← slopeAt_zero] at h
  by_cases hfall : S.slopeAt 0 < 0
  · rw [if_pos hfall] at h
    obtain ⟨k, -, hτ, hsufficient, -⟩ := backtrack_eq_some h
    exact .inr ⟨hτ ▸ mul_pos (S.firstTrial_pos hfall) (pow_pos hstep k), hfall, of_decide_eq_true hsufficient⟩
  · rw [if_neg hfall, Option.some.injEq] at h
    exact .inl ⟨h.symm, not_lt.mp hfall⟩

/-! ## Rows -/

section Rows

variable (S : LineSearch K m)

/-- Where row `i` is on the line, shifted by its multiplier. -/
def target (τ : K) (i : Fin m) : K := S.Ax.get i + τ * S.Ad.get i + S.y.get i / S.sigma.get i

/-- How far row `i` lies below its lower bound. -/
def below (τ : K) (i : Fin m) : K := if S.lowerFinite.get i then max 0 (S.bmin.get i - S.target τ i) else 0

/-- How far row `i` lies above its upper bound. -/
def above (τ : K) (i : Fin m) : K := if S.upperFinite.get i then max 0 (S.target τ i - S.bmax.get i) else 0

omit S in
/-- A bound that is absent or met is not violated. -/
theorem violation_eq_zero {present : Bool} {u : K} (h : present = true → u ≤ 0) :
    (if present then max 0 u else 0) = 0 := by
  split
  next hpresent => exact max_eq_left (h hpresent)
  next => rfl

/-- A line search with weights that are positive, where no row has two bounds that exclude each other. -/
structure Proper : Prop where
  sigma_pos : ∀ i, 0 < S.sigma.get i
  bmin_le_bmax : ∀ i, S.lowerFinite.get i = true → S.upperFinite.get i = true → S.bmin.get i ≤ S.bmax.get i

variable {S}

theorem sum_map_pieces (f : Piece K → K) : (S.pieces.map f).sum =
    ∑ i, ((if S.lowerFinite.get i then f (S.lowerPiece i) else 0) +
      if S.upperFinite.get i then f (S.upperPiece i) else 0) := by
  have hflat : ∀ l : List (Fin m), ((l.flatMap fun i =>
      (if S.lowerFinite.get i then [S.lowerPiece i] else []) ++
        if S.upperFinite.get i then [S.upperPiece i] else []).map f).sum =
      (l.map fun i => (if S.lowerFinite.get i then f (S.lowerPiece i) else 0) +
        if S.upperFinite.get i then f (S.upperPiece i) else 0).sum := by
    intro l
    induction l with
    | nil => rfl
    | cons i l ih =>
        rw [List.flatMap_cons, List.map_append, List.sum_append, ih, List.map_cons, List.sum_cons]
        congr 1
        split <;> split <;> simp
  rw [pieces, hflat, SparseMatrix.sum_map_finRange]

/-- Only one of the bounds of a row is violated. -/
theorem Proper.below_mul_above (h : S.Proper) (τ : K) (i : Fin m) : S.below τ i * S.above τ i = 0 := by
  unfold below above
  split
  next hl =>
    split
    next hu =>
      rcases le_total (S.bmin.get i) (S.target τ i) with hle | hle
      · rw [max_eq_left (sub_nonpos.mpr hle), zero_mul]
      · rw [max_eq_left (sub_nonpos.mpr (hle.trans (h.bmin_le_bmax i hl hu))), mul_zero]
    next => exact mul_zero _
  next => exact zero_mul _

theorem lowerPiece_line (hroots : ExactRoots K) {i : Fin m} (hσ : 0 < S.sigma.get i) (τ : K) :
    (S.lowerPiece i).delta * τ - (S.lowerPiece i).alpha =
      Scalar.sqrt (S.sigma.get i) * (S.bmin.get i - S.target τ i) := by
  have hroot := hroots _ hσ.le
  have hne := (Scalar.sqrt_pos hσ).ne'
  rw [lowerPiece, target]
  simp only
  generalize Scalar.sqrt (S.sigma.get i) = root at *
  rw [← hroot]
  field_simp
  ring

theorem upperPiece_line (hroots : ExactRoots K) {i : Fin m} (hσ : 0 < S.sigma.get i) (τ : K) :
    (S.upperPiece i).delta * τ - (S.upperPiece i).alpha =
      Scalar.sqrt (S.sigma.get i) * (S.target τ i - S.bmax.get i) := by
  have hroot := hroots _ hσ.le
  have hne := (Scalar.sqrt_pos hσ).ne'
  rw [upperPiece, target]
  simp only
  generalize Scalar.sqrt (S.sigma.get i) = root at *
  rw [← hroot]
  field_simp
  ring

theorem half_sq_max {root σ : K} (hpos : 0 < root) (hroot : root * root = σ) (u : K) :
    max 0 (root * u) ^ 2 / 2 = σ / 2 * max 0 u ^ 2 := by
  rw [← mul_zero root, ← mul_max_of_nonneg _ _ hpos.le, mul_zero, mul_pow, sq root, hroot]
  ring

/-- With exact square roots the pieces are the squared violations of the bounds. -/
theorem Proper.decrease_eq_sum (h : S.Proper) (hroots : ExactRoots K) (τ : K) :
    S.decrease τ = S.eta / 2 * τ ^ 2 + S.beta * τ +
      ∑ i, S.sigma.get i / 2 * ((S.below τ i + S.above τ i) ^ 2 - (S.below 0 i + S.above 0 i) ^ 2) := by
  rw [decrease_eq, sum_map_pieces]
  refine congrArg _ (Finset.sum_congr rfl fun i _ => ?_)
  have hσ := h.sigma_pos i
  have hpos := Scalar.sqrt_pos hσ
  have hroot := hroots _ hσ.le
  have hsq : ∀ t, (S.below t i + S.above t i) ^ 2 = S.below t i ^ 2 + S.above t i ^ 2 := fun t => by
    linear_combination 2 * h.below_mul_above t i
  have hlower : ∀ t, (S.lowerPiece i).value t = S.sigma.get i / 2 * max 0 (S.bmin.get i - S.target t i) ^ 2 :=
    fun t => by rw [Piece.value_eq, lowerPiece_line hroots hσ, half_sq_max hpos hroot]
  have hupper : ∀ t, (S.upperPiece i).value t = S.sigma.get i / 2 * max 0 (S.target t i - S.bmax.get i) ^ 2 :=
    fun t => by rw [Piece.value_eq, upperPiece_line hroots hσ, half_sq_max hpos hroot]
  rw [hsq, hsq, hlower, hlower, hupper, hupper]
  unfold below above
  split <;> split <;> ring

/-- At zero a root that a piece carries in both of its numbers cancels. -/
theorem slope_zero_eq {p : Piece K} {root a u : K} (hpos : 0 < root) (hdelta : p.delta = a * root)
    (halpha : p.alpha = -(u / root)) : p.slope 0 = a * max 0 u := by
  have hcancel : root * max 0 (u / root) = max 0 u := by
    rw [mul_max_of_nonneg _ _ hpos.le, mul_zero, mul_div_cancel₀ _ hpos.ne']
  rw [Piece.slope, halpha, mul_zero, zero_sub, neg_neg, hdelta, mul_assoc, hcancel]

/-- The slope at zero needs no exact square roots. -/
theorem slopeAt_zero_eq_sum (hσ : ∀ i, 0 < S.sigma.get i) :
    S.slopeAt 0 = S.beta + ∑ i, S.Ad.get i * (S.sigma.get i * (S.above 0 i - S.below 0 i)) := by
  rw [slopeAt, mul_zero, zero_add, sum_map_pieces]
  refine congrArg _ (Finset.sum_congr rfl fun i _ => ?_)
  have hpos := Scalar.sqrt_pos (hσ i)
  have htarget : S.sigma.get i * S.target 0 i = S.sigma.get i * S.Ax.get i + S.y.get i := by
    rw [target, zero_mul, add_zero, mul_add, mul_div_cancel₀ _ (hσ i).ne']
  have hlower : (S.lowerPiece i).slope 0 =
      -S.Ad.get i * max 0 (S.sigma.get i * (S.bmin.get i - S.target 0 i)) := by
    refine slope_zero_eq hpos ?_ ?_
    · rw [lowerPiece]
      ring
    · rw [mul_sub, htarget, lowerPiece]
      ring
  have hupper : (S.upperPiece i).slope 0 =
      S.Ad.get i * max 0 (S.sigma.get i * (S.target 0 i - S.bmax.get i)) := by
    refine slope_zero_eq hpos ?_ ?_
    · rw [upperPiece]
      ring
    · rw [mul_sub, htarget, upperPiece]
      ring
  have hscale (u : K) : max 0 (S.sigma.get i * u) = S.sigma.get i * max 0 u := by
    rw [mul_max_of_nonneg _ _ (hσ i).le, mul_zero]
  rw [hlower, hupper, hscale, hscale]
  unfold below above
  split <;> split <;> ring

end Rows

/-! ## Distances -/

/-- The interval between two bounds, of which either may be absent. -/
def interval (lower upper : Bool) (lo hi : ℝ) : Set ℝ := {z | (lower = true → lo ≤ z) ∧ (upper = true → z ≤ hi)}

theorem infDist_eq_of_nearest {s : Set ℝ} {y z : ℝ} (hy : y ∈ s) (h : ∀ x ∈ s, |z - y| ≤ |z - x|) :
    Metric.infDist z s = |z - y| :=
  le_antisymm (Metric.infDist_le_dist_of_mem hy) ((Metric.le_infDist ⟨y, hy⟩).mpr @h)

/-- The distance to the interval is the violation of the bounds. -/
theorem infDist_interval {lower upper : Bool} {lo hi : ℝ} (h : lower = true → upper = true → lo ≤ hi) (z : ℝ) :
    Metric.infDist z (interval lower upper lo hi) =
      (if lower then max 0 (lo - z) else 0) + if upper then max 0 (z - hi) else 0 := by
  have hlower (hlo : lower = true → lo ≤ z) : (if lower then max 0 (lo - z) else 0) = 0 :=
    violation_eq_zero fun hl => sub_nonpos.mpr (hlo hl)
  have hupper (hhi : upper = true → z ≤ hi) : (if upper then max 0 (z - hi) else 0) = 0 :=
    violation_eq_zero fun hu => sub_nonpos.mpr (hhi hu)
  by_cases hlo : lower = true → lo ≤ z
  · by_cases hhi : upper = true → z ≤ hi
    · have hz : z ∈ interval lower upper lo hi := ⟨hlo, hhi⟩
      rw [hlower hlo, hupper hhi, add_zero, Metric.infDist_zero_of_mem hz]
    · obtain ⟨hu, hz⟩ := Classical.not_imp.mp hhi
      have hz' : 0 ≤ z - hi := by linarith
      rw [hlower hlo, if_pos hu, zero_add, max_eq_right hz', infDist_eq_of_nearest (y := hi), abs_of_nonneg hz']
      · exact ⟨fun hl => h hl hu, fun _ => le_rfl⟩
      · intro x hx
        rw [abs_of_nonneg hz']
        exact le_abs.mpr (.inl (sub_le_sub_left (hx.2 hu) z))
  · obtain ⟨hl, hz⟩ := Classical.not_imp.mp hlo
    have hz' : 0 ≤ lo - z := by linarith
    rw [if_pos hl, max_eq_right hz', hupper fun hu => (not_le.mp hz).le.trans (h hl hu), add_zero,
      infDist_eq_of_nearest (y := lo), abs_sub_comm, abs_of_nonneg hz']
    · exact ⟨fun _ => le_rfl, fun hu => h hl hu⟩
    · intro x hx
      rw [abs_sub_comm, abs_of_nonneg hz', abs_sub_comm]
      exact le_abs.mpr (.inl (sub_le_sub_right (hx.1 hl) z))

/-- The augmented Lagrangian along a direction, up to a constant. -/
noncomputable def psi (S : LineSearch ℝ m) (τ : ℝ) : ℝ :=
  0.5 * S.eta * τ ^ 2 + S.beta * τ + ∑ i, 0.5 * S.sigma.get i *
    Metric.infDist (S.Ax.get i + τ * S.Ad.get i + S.y.get i / S.sigma.get i)
      (interval (S.lowerFinite.get i) (S.upperFinite.get i) (S.bmin.get i) (S.bmax.get i)) ^ 2

variable {S : LineSearch ℝ m}

theorem Proper.psi_sub (h : S.Proper) (τ : ℝ) : S.psi τ - S.psi 0 = S.decrease τ := by
  have hdist : ∀ t i, Metric.infDist (S.Ax.get i + t * S.Ad.get i + S.y.get i / S.sigma.get i)
      (interval (S.lowerFinite.get i) (S.upperFinite.get i) (S.bmin.get i) (S.bmax.get i)) =
      S.below t i + S.above t i := fun t i => infDist_interval (h.bmin_le_bmax i) _
  rw [h.decrease_eq_sum fun a ha => Real.mul_self_sqrt ha, psi, psi]
  simp only [Scalar.half_mul, hdist, mul_sub, Finset.sum_sub_distrib]
  ring

/-- The slope is the derivative. -/
theorem Proper.hasDerivAt_psi (h : S.Proper) (s : ℝ) : HasDerivAt S.psi (S.slopeAt s) s := by
  rw [hasDerivAt_iff_isLittleO]
  refine (Asymptotics.IsBigO.of_bound ((|S.eta| + |S.steepness|) / 2) (.of_forall fun t => ?_)).trans_isLittleO
    (Asymptotics.isLittleO_pow_sub_sub s one_lt_two)
  obtain ⟨hbelow, habove⟩ := S.decrease_bounds s t
  have hsub : S.psi t - S.psi s = S.decrease t - S.decrease s := by
    rw [← h.psi_sub t, ← h.psi_sub s]
    ring
  rw [hsub, smul_eq_mul, mul_comm (t - s), Real.norm_eq_abs, Real.norm_eq_abs, Real.norm_eq_abs, abs_pow, abs_abs,
    sq_abs, abs_le]
  have hsq := sq_nonneg (t - s)
  have heta := mul_le_mul_of_nonneg_right (neg_abs_le S.eta) hsq
  have hsteep := mul_le_mul_of_nonneg_right (le_abs_self S.steepness) hsq
  have heta' := mul_nonneg (abs_nonneg S.eta) hsq
  have hsteep' := mul_nonneg (abs_nonneg S.steepness) hsq
  constructor <;> linarith

theorem Proper.derivWithin_psi (h : S.Proper) : derivWithin S.psi (Set.Ici 0) 0 = S.slopeAt 0 :=
  (h.hasDerivAt_psi 0).hasDerivWithinAt.derivWithin (uniqueDiffOn_Ici 0 0 Set.self_mem_Ici)

theorem Proper.isMinOn_psi (h : S.Proper) (heta : 0 ≤ S.eta) {τ : ℝ} (hzero : S.slopeAt τ = 0) :
    IsMinOn S.psi (Set.Ici 0) τ := by
  refine isMinOn_iff.mpr fun t _ => ?_
  have htangent := S.tangent_le heta τ t
  have hτ := h.psi_sub τ
  have ht := h.psi_sub t
  rw [hzero, zero_mul] at htangent
  linarith

/-- Where the slope is negative far out, there is no minimum. -/
theorem Proper.not_isMinOn_psi (h : S.Proper) (heta : 0 ≤ S.eta) {t₁ : ℝ} (hneg : ∀ τ, t₁ ≤ τ → S.slopeAt τ < 0)
    {τ₀ : ℝ} (hτ₀ : 0 ≤ τ₀) : ¬IsMinOn S.psi (Set.Ici 0) τ₀ := by
  intro hmin
  have hbeyond : τ₀ < max t₁ τ₀ + 1 := (le_max_right t₁ τ₀).trans_lt (lt_add_one _)
  have hfall := hneg (max t₁ τ₀ + 1) ((le_max_left t₁ τ₀).trans (lt_add_one _).le)
  have htangent := S.tangent_le heta (max t₁ τ₀ + 1) τ₀
  have hle : S.psi τ₀ ≤ S.psi (max t₁ τ₀ + 1) := isMinOn_iff.mp hmin _ (Set.mem_Ici.mpr (hτ₀.trans hbeyond.le))
  have hfar := h.psi_sub (max t₁ τ₀ + 1)
  have hnear := h.psi_sub τ₀
  have hpos := mul_pos_of_neg_of_neg hfall (sub_neg.mpr hbeyond)
  linarith

/-- The first trial minimizes `ψ` over the steps that are not negative, if `ψ` falls at zero and has a minimum; it is
then taken, provided that it decreases `ψ` sufficiently. Without a minimum the trial has unit length. -/
theorem firstTrial_minimizes (heta : 0 ≤ S.eta) (h : S.Proper) (hfall : derivWithin S.psi (Set.Ici 0) 0 < 0) :
    ((∃ τ₀ ∈ Set.Ici (0 : ℝ), IsMinOn S.psi (Set.Ici 0) τ₀) →
      0 < S.firstTrial ∧ IsMinOn S.psi (Set.Ici 0) S.firstTrial ∧
        ∀ c : Settings ℝ, 1 ≤ c.linesearchMaxBacktrack →
          S.psi S.firstTrial - S.psi 0 ≤
            c.linesearchArmijo * S.firstTrial * derivWithin S.psi (Set.Ici 0) 0 →
          S.search? c = some S.firstTrial) ∧
      ((¬∃ τ₀ ∈ Set.Ici (0 : ℝ), IsMinOn S.psi (Set.Ici 0) τ₀) → S.firstTrial = 1) := by
  have hslope := h.derivWithin_psi
  rw [hslope] at hfall ⊢
  constructor
  · rintro ⟨τ₀, hτ₀, hmin⟩
    rcases S.firstTrial_spec hfall with ⟨hpos, hzero⟩ | ⟨-, t₁, -, hneg⟩
    · refine ⟨hpos, h.isMinOn_psi heta hzero, fun c hc hsufficient => ?_⟩
      rw [h.psi_sub] at hsufficient
      obtain ⟨tries, htries⟩ := Nat.exists_eq_add_of_le' hc
      rw [slopeAt_zero] at hfall hsufficient
      have hfirst : S.sufficient c S.initialSlope.b S.firstTrial = true := decide_eq_true hsufficient
      rw [search?, if_pos hfall, htries, backtrack, if_pos hfirst]
    · exact absurd hmin (h.not_isMinOn_psi heta hneg hτ₀)
  · intro hnone
    rcases S.firstTrial_spec hfall with ⟨hpos, hzero⟩ | ⟨hone, -⟩
    · exact absurd ⟨_, Set.mem_Ici.mpr hpos.le, h.isMinOn_psi heta hzero⟩ hnone
    · exact hone

/-- A line that falls, which a row that meets its upper bound at one lifts. -/
def Sample.hinged : LineSearch ℝ 1 where
  eta := 0
  beta := -1
  Ax := #v[0]
  Ad := #v[1]
  y := #v[0]
  sigma := #v[1]
  bmin := #v[0]
  bmax := #v[1]
  lowerFinite := #v[false]
  upperFinite := #v[true]

theorem Sample.proper_hinged : Sample.hinged.Proper where
  sigma_pos i := by fin_cases i; exact one_pos
  bmin_le_bmax i := by fin_cases i; exact fun _ _ => zero_le_one

theorem Sample.pieces_hinged : Sample.hinged.pieces = [⟨1, 1⟩] := by
  have hroot : Scalar.sqrt (1 : ℝ) = 1 := Real.sqrt_one
  have hupper : Sample.hinged.upperPiece 0 = ⟨1, 1⟩ := by
    simp only [upperPiece, hinged, Vector.get]
    simp [hroot]
  have hpieces : Sample.hinged.pieces = [Sample.hinged.upperPiece 0] := rfl
  rw [hpieces, hupper]

theorem Sample.initialSlope_hinged : Sample.hinged.initialSlope = ⟨0, -1⟩ := by
  rw [initialSlope, pieces_hinged]
  simp [Piece.startsActive, hinged]

theorem Sample.firstTrial_hinged : Sample.hinged.firstTrial = 2 := by
  rw [firstTrial, initialSlope_hinged, breakpoints, pieces_hinged]
  norm_num [Piece.breakpoint, insertionSort, insertBackwards, sweep, Slope.cross, Slope.add]

/-- The search finds the bottom behind the bound. -/
theorem firstTrial_minimizes_hinged :
    (0 ≤ Sample.hinged.eta ∧ Sample.hinged.Proper ∧ derivWithin Sample.hinged.psi (Set.Ici 0) 0 < 0) ∧
      IsMinOn Sample.hinged.psi (Set.Ici 0) 2 := by
  have heta : (0 : ℝ) ≤ Sample.hinged.eta := le_rfl
  have hfall : derivWithin Sample.hinged.psi (Set.Ici 0) 0 < 0 := by
    rw [Sample.proper_hinged.derivWithin_psi, slopeAt_zero, Sample.initialSlope_hinged]
    norm_num
  obtain ⟨hattained, hunit⟩ := firstTrial_minimizes heta Sample.proper_hinged hfall
  refine ⟨⟨heta, Sample.proper_hinged, hfall⟩, ?_⟩
  rw [Sample.firstTrial_hinged] at hattained hunit
  by_cases hmin : ∃ τ₀ ∈ Set.Ici (0 : ℝ), IsMinOn Sample.hinged.psi (Set.Ici 0) τ₀
  · exact (hattained hmin).2.1
  · exact absurd (hunit hmin) (by norm_num)

end LineSearch
end AugLag
