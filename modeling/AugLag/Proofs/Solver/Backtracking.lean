import Mathlib
import AugLag.Proofs.Solver.LineSearch

/-!
# The limit on backtracking

The limit counts the trials of the search, with the exact step among them. A limit of one allows the exact step alone,
and a limit of zero allows no step at all.
-/

namespace AugLag

variable {K : Type} [ExactScalar K] {m : Nat}

namespace LineSearch

variable {S : LineSearch K m} {c : Settings K}

/-! ## The trials -/

/-- The step after `k` reductions. -/
def trial (S : LineSearch K m) (c : Settings K) (k : Nat) : K := S.firstTrial * c.linesearchBacktrackStep ^ k

/-- Of all trials, number `k` is the first that decreases sufficiently. -/
structure FirstSufficient (S : LineSearch K m) (c : Settings K) (k : Nat) : Prop where
  sufficient : S.sufficient c S.initialSlope.b (S.trial c k) = true
  before : ∀ j < k, S.sufficient c S.initialSlope.b (S.trial c j) = false

theorem FirstSufficient.eq {j k : Nat} (hj : S.FirstSufficient c j) (hk : S.FirstSufficient c k) : j = k := by
  rcases lt_trichotomy j k with hlt | heq | hlt
  · exact absurd hj.sufficient (by simp [hk.before j hlt])
  · exact heq
  · exact absurd hk.sufficient (by simp [hj.before k hlt])

theorem trial_pos (hstep : 0 < c.linesearchBacktrackStep) (hfall : S.slopeAt 0 < 0) (k : Nat) : 0 < S.trial c k :=
  mul_pos (S.firstTrial_pos hfall) (pow_pos hstep k)

/-- Where backtracking finds nothing, no trial decreases sufficiently. -/
theorem insufficient_of_backtrack {slope τ₀ : K} {tries : Nat} (h : S.backtrack c slope tries τ₀ = none) :
    ∀ k < tries, S.sufficient c slope (τ₀ * c.linesearchBacktrackStep ^ k) = false := by
  induction tries generalizing τ₀ with
  | zero => exact nofun
  | succ tries ih =>
      rw [backtrack] at h
      split at h
      · cases h
      · next hfirst =>
          intro k hk
          cases k with
          | zero => simpa using hfirst
          | succ k =>
              have hk' := ih h k (Nat.lt_of_succ_lt_succ hk)
              rwa [mul_assoc, ← pow_succ'] at hk'

/-- A search that falls tries the first steps up to its limit. -/
theorem search?_cases (hfall : S.slopeAt 0 < 0) (c : Settings K) :
    (∃ k < c.linesearchMaxBacktrack, S.FirstSufficient c k ∧ S.search? c = some (S.trial c k)) ∨
      S.search? c = none ∧
        ∀ k < c.linesearchMaxBacktrack, S.sufficient c S.initialSlope.b (S.trial c k) = false := by
  rw [slopeAt_zero] at hfall
  unfold search?
  simp only [if_pos hfall]
  cases hsearch : S.backtrack c S.initialSlope.b c.linesearchMaxBacktrack S.firstTrial with
  | some τ =>
      left
      obtain ⟨k, hk, hτ, hsufficient, hbefore⟩ := backtrack_eq_some hsearch
      subst hτ
      exact ⟨k, hk, ⟨hsufficient, hbefore⟩, rfl⟩
  | none =>
      right
      exact ⟨rfl, insufficient_of_backtrack hsearch⟩

/-- The search takes the first of the trials that decreases sufficiently, provided its number is below the limit. -/
theorem search?_eq_some_iff (hfall : S.slopeAt 0 < 0) {τ : K} :
    S.search? c = some τ ↔ ∃ k < c.linesearchMaxBacktrack, S.FirstSufficient c k ∧ τ = S.trial c k := by
  rcases S.search?_cases hfall c with ⟨k, hk, hfirst, hsome⟩ | ⟨hnone, hall⟩
  · rw [hsome, Option.some.injEq]
    constructor
    · rintro rfl
      exact ⟨k, hk, hfirst, rfl⟩
    · rintro ⟨j, -, hj, rfl⟩
      rw [hfirst.eq hj]
  · rw [hnone]
    constructor
    · exact nofun
    · rintro ⟨k, hk, hfirst, -⟩
      exact absurd hfirst.sufficient (by simp [hall k hk])

theorem search?_eq_none_iff (hfall : S.slopeAt 0 < 0) :
    S.search? c = none ↔
      ∀ k < c.linesearchMaxBacktrack, S.sufficient c S.initialSlope.b (S.trial c k) = false := by
  rcases S.search?_cases hfall c with ⟨k, hk, hfirst, hsome⟩ | ⟨hnone, hall⟩
  · rw [hsome]
    constructor
    · exact nofun
    · intro hall
      exact absurd hfirst.sufficient (by simp [hall k hk])
  · rw [hnone]
    exact ⟨fun _ => hall, fun _ => rfl⟩

/-- The step that is taken is zero exactly where nothing is found. -/
theorem getD_search?_eq_zero_iff (hstep : 0 < c.linesearchBacktrackStep) (hfall : S.slopeAt 0 < 0) :
    (S.search? c).getD 0 = 0 ↔ S.search? c = none := by
  cases hsearch : S.search? c with
  | none => simp
  | some τ =>
      obtain ⟨k, -, -, rfl⟩ := (search?_eq_some_iff hfall).mp hsearch
      simpa using (trial_pos hstep hfall k).ne'

/-! ## A single parabola -/

/-- No piece counts on the way to the full step. -/
def Idle (S : LineSearch K m) : Prop := ∀ p ∈ S.pieces, 0 ≤ p.alpha ∧ p.delta ≤ p.alpha

/-- Where all bounds are absent there are no pieces. -/
theorem idle_of_absent (hlower : ∀ i, S.lowerFinite.get i = false) (hupper : ∀ i, S.upperFinite.get i = false) :
    S.Idle := by
  have hpieces : S.pieces = [] := by simp [pieces, hlower, hupper]
  intro p hp
  rw [hpieces] at hp
  cases hp

/-- Rows that lie within their bounds at the start and at the full step add no piece that counts. -/
theorem idle_of_inside (hroots : ExactRoots K) (hsigma : ∀ i, 0 < S.sigma.get i)
    (hinside : ∀ i, ∀ τ ∈ ({0, 1} : Set K), S.bmin.get i ≤ S.target τ i ∧ S.target τ i ≤ S.bmax.get i) : S.Idle := by
  have hline {p : Piece K} (h : ∀ τ ∈ ({0, 1} : Set K), p.delta * τ - p.alpha ≤ 0) : 0 ≤ p.alpha ∧ p.delta ≤ p.alpha := by
    have hstart := h 0 (by simp)
    have hend := h 1 (by simp)
    constructor <;> linarith
  intro p hp
  unfold pieces at hp
  obtain ⟨i, -, hp⟩ := List.mem_flatMap.mp hp
  have hroot := (Scalar.sqrt_pos (hsigma i)).le
  rcases List.mem_append.mp hp with hlower | hupper
  · obtain rfl : p = S.lowerPiece i := by
      split at hlower
      · exact List.mem_singleton.mp hlower
      · cases hlower
    refine hline fun τ hτ => ?_
    rw [lowerPiece_line hroots (hsigma i)]
    exact mul_nonpos_of_nonneg_of_nonpos hroot (sub_nonpos.mpr (hinside i τ hτ).1)
  · obtain rfl : p = S.upperPiece i := by
      split at hupper
      · exact List.mem_singleton.mp hupper
      · cases hupper
    refine hline fun τ hτ => ?_
    rw [upperPiece_line hroots (hsigma i)]
    exact mul_nonpos_of_nonneg_of_nonpos hroot (sub_nonpos.mpr (hinside i τ hτ).2)

namespace Idle

variable {τ : K}

theorem line_nonpos (h : S.Idle) {p : Piece K} (hp : p ∈ S.pieces) (h0 : 0 ≤ τ) (h1 : τ ≤ 1) :
    p.delta * τ - p.alpha ≤ 0 := by
  obtain ⟨hstart, hend⟩ := h p hp
  nlinarith

theorem slopeAt_eq (h : S.Idle) (h0 : 0 ≤ τ) (h1 : τ ≤ 1) : S.slopeAt τ = S.eta * τ + S.beta := by
  have hsum : (S.pieces.map fun p => p.slope τ).sum = 0 := by
    refine List.sum_eq_zero fun v hv => ?_
    obtain ⟨p, hp, rfl⟩ := List.mem_map.mp hv
    rw [Piece.slope, max_eq_left (h.line_nonpos hp h0 h1), mul_zero]
  rw [slopeAt, hsum, add_zero]

theorem initialSlope_eq (h : S.Idle) : S.initialSlope.b = S.beta := by
  rw [← slopeAt_zero, h.slopeAt_eq le_rfl zero_le_one, mul_zero, zero_add]

theorem decrease_eq (h : S.Idle) (h0 : 0 ≤ τ) (h1 : τ ≤ 1) : S.decrease τ = S.eta / 2 * τ ^ 2 + S.beta * τ := by
  have hvalue {p : Piece K} (hp : p ∈ S.pieces) {t : K} (h0 : 0 ≤ t) (h1 : t ≤ 1) : p.value t = 0 := by
    rw [Piece.value_eq, max_eq_left (h.line_nonpos hp h0 h1)]
    ring
  have hsum : (S.pieces.map fun p => p.value τ - p.value 0).sum = 0 := by
    refine List.sum_eq_zero fun v hv => ?_
    obtain ⟨p, hp, rfl⟩ := List.mem_map.mp hv
    rw [hvalue hp h0 h1, hvalue hp le_rfl zero_le_one, sub_zero]
  rw [LineSearch.decrease_eq, hsum, add_zero]

/-- A parabola that falls as steeply as it is curved has its minimum at the full step. -/
theorem firstTrial_eq_one (h : S.Idle) (heta : 0 < S.eta) (hbeta : S.beta = -S.eta) : S.firstTrial = 1 := by
  have hfall : S.slopeAt 0 < 0 := by
    rw [h.slopeAt_eq le_rfl zero_le_one, hbeta]
    linarith
  have hend : S.slopeAt 1 = 0 := by
    rw [h.slopeAt_eq zero_le_one le_rfl, hbeta]
    ring
  rcases S.firstTrial_spec hfall with ⟨-, hzero⟩ | ⟨hone, -⟩
  · -- between two zeros of the slope a parabola that is curved up would leave no room
    have hforth := (S.decrease_bounds 1 S.firstTrial).1
    have hback := (S.decrease_bounds S.firstTrial 1).1
    rw [hend] at hforth
    rw [hzero] at hback
    have hsq : S.eta * (S.firstTrial - 1) ^ 2 ≤ 0 := by linarith
    have hsame : (S.firstTrial - 1) ^ 2 = 0 := le_antisymm (nonpos_of_mul_nonpos_right hsq heta) (sq_nonneg _)
    exact sub_eq_zero.mp (pow_eq_zero_iff two_ne_zero |>.mp hsame)
  · exact hone

/-- The full step reaches one half of the decrease that the slope predicts. -/
theorem firstSufficient_zero (h : S.Idle) (heta : 0 < S.eta) (hbeta : S.beta = -S.eta)
    (harmijo : c.linesearchArmijo ≤ 1 / 2) : S.trial c 0 = 1 ∧ S.FirstSufficient c 0 := by
  have hfirst : S.trial c 0 = 1 := by rw [trial, pow_zero, mul_one, h.firstTrial_eq_one heta hbeta]
  refine ⟨hfirst, ?_, nofun⟩
  rw [hfirst, h.initialSlope_eq, hbeta]
  have hreached : S.decrease 1 ≤ c.linesearchArmijo * 1 * -S.eta := by
    rw [h.decrease_eq zero_le_one le_rfl, hbeta]
    nlinarith
  exact decide_eq_true hreached

/-- The full step is taken, unless the limit leaves no trial at all. -/
theorem search?_eq (h : S.Idle) (heta : 0 < S.eta) (hbeta : S.beta = -S.eta) (harmijo : c.linesearchArmijo ≤ 1 / 2) :
    S.search? c = if c.linesearchMaxBacktrack = 0 then none else some 1 := by
  have hfall : S.slopeAt 0 < 0 := by
    rw [slopeAt_zero, h.initialSlope_eq, hbeta]
    exact neg_lt_zero.mpr heta
  obtain ⟨hone, hfirst⟩ := h.firstSufficient_zero heta hbeta harmijo
  split
  · next hlimit =>
      apply (search?_eq_none_iff hfall).mpr
      simp [hlimit]
  · next hlimit =>
      exact (search?_eq_some_iff hfall).mpr ⟨0, Nat.pos_of_ne_zero hlimit, hfirst, hone.symm⟩

end Idle

end LineSearch
end AugLag
