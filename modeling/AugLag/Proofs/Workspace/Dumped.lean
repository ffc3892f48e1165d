import AugLag.Proofs.Problem.Lifted
import AugLag.Proofs.Problem.Valid
import AugLag.Proofs.Json.Dumps

/-!
# Special values in dumps

Infinite bounds and infinite time limits are written as the largest numbers and come back as infinite ones, so that all
numbers of a dump are finite, and the problem that is read is a valid one whose program is the one that was written.
-/

namespace AugLag

open Extended Json

/-! ## Time limits -/

theorem unpack_of_beq_infinity {t : Float} (h : (t == Scalar.infinity) = true) : t.toModel.unpack = .infinity .positive := by
  have hbeq : t.toModel.unpack.beq (.infinity .positive) = true := h
  generalize t.toModel.unpack = u at hbeq
  cases u with
  | infinity s =>
      cases s with
      | positive => rfl
      | negative => exact absurd hbeq (by decide)
  | notANumber => exact absurd hbeq (by decide)
  | zero s => exact absurd hbeq (by cases s <;> decide)
  | finite s m e hm => exact absurd hbeq (by cases s <;> exact Bool.false_ne_true)

theorem eq_infinity_of_beq {t : Float} (h : (t == Scalar.infinity) = true) : t = Scalar.infinity := by
  have hbits := Float.Model.UnpackedFloat.unpack_inj_of_valid t.toModel.valid (Scalar.infinity : Float).toModel.valid
  have hmodel := hbits.mp ((unpack_of_beq_infinity h).trans unpack_infinity.symm)
  obtain ⟨⟨bits, hvalid⟩⟩ := t
  obtain rfl := UInt64.toBitVec_inj.mp hmodel
  rfl

theorem isFinite_of_pos {t : Float} (hpos : 0 < t) (h : ¬(t == Scalar.infinity) = true) : Scalar.isFinite t = true := by
  have hlt : (0 : Float).toModel.unpack.lt t.toModel.unpack = true := of_decide_eq_true (p := (0 : Float).toModel < t.toModel) hpos
  have hne : ¬t.toModel.unpack.beq (.infinity .positive) = true := h
  show t.toModel.unpack.isFinite = true
  generalize t.toModel.unpack = u at hlt hne
  cases u with
  | infinity s =>
      cases s with
      | positive => exact absurd rfl hne
      | negative => exact absurd hlt (by decide)
  | notANumber => exact absurd hlt (by decide)
  | zero s => rfl
  | finite s m e hm => rfl

namespace Dump

/-- Only a time limit of the largest number is not recovered: it becomes infinite. -/
theorem timeOfFinite_timeToFinite (t : Float) : timeOfFinite (timeToFinite t) = timeOfFinite t := by
  unfold timeToFinite
  split
  · next h =>
      rw [eq_infinity_of_beq h]
      decide +kernel
  · rfl

theorem timeToFinite_spec {t : Float} (h : 0 < t) : 0 < timeToFinite t ∧ Scalar.isFinite (timeToFinite t) = true := by
  unfold timeToFinite
  split
  · decide +kernel
  · next hne => exact ⟨h, isFinite_of_pos h hne⟩

theorem timeOfFinite_pos {t : Float} (h : 0 < t) : 0 < timeOfFinite t := by
  unfold timeOfFinite
  split
  · decide +kernel
  · exact h

end Dump

/-! ## Settings -/

section Settings

variable {T : Type} [Scalar T]

namespace Settings

theorem timeLimit_pos {c : Settings T} (h : c.validate = .ok ()) : 0 < c.timeLimit := by
  have hrange : decide (0 < c.timeLimit) = true := contains_of_validate h .timeLimit
  exact of_decide_eq_true hrange

omit [Scalar T] in
theorem get_withTimeLimit (c : Settings T) (t : Float) {s : Setting} (hs : s ≠ .timeLimit) :
    { c with timeLimit := t }.get s = c.get s := by
  cases s with
  | timeLimit => exact absurd rfl hs
  | _ => rfl

/-- Settings stay valid with another positive time limit. -/
theorem validate_withTimeLimit {c : Settings T} (h : c.validate = .ok ()) {t : Float} (ht : 0 < t) :
    { c with timeLimit := t }.validate = .ok () := by
  obtain ⟨hrange, hjoint⟩ := validate_eq_ok.mp h
  refine validate_eq_ok.mpr ⟨fun s => ?_, hjoint⟩
  by_cases hs : s = .timeLimit
  · subst hs
    show decide (0 < t) = true
    exact decide_eq_true ht
  · rw [get_withTimeLimit c t hs]
    exact hrange s

end Settings

/-- The number that a setting is, if it is one of the kind that is calculated with. -/
def SettingKind.number? : (k : SettingKind) → k.Value T → Option T
  | .real, (x : T) => some x
  | _, _ => none

/-- A count fits into its width. -/
def SettingKind.Fits : (k : SettingKind) → k.Value T → Prop
  | .count, (n : Nat) => n < UInt32.size
  | _, _ => True

instance {T : Type} : (k : SettingKind) → (v : k.Value T) → Decidable (k.Fits v)
  | .count, (n : Nat) => inferInstanceAs (Decidable (n < UInt32.size))
  | .real, _ | .time, _ | .flag, _ | .method, _ => inferInstanceAs (Decidable True)

def Settings.numbers (c : Settings T) : List T := Setting.all.filterMap fun s => s.kind.number? (c.get s)

omit [Scalar T] in
theorem SettingKind.readable [Numeral T] {k : SettingKind} {v : k.Value T} (hfits : k.Fits v)
    (hnumber : ∀ x ∈ k.number? v, ReadsBack x) (htime : k ≠ .time) (hmethod : k ≠ .method) : k.Readable v := by
  cases k with
  | count => exact hfits
  | real => exact hnumber v rfl
  | time => exact absurd rfl htime
  | flag => trivial
  | method => exact absurd rfl hmethod

theorem Settings.readable [Numeral T] {c : Settings T} (h : c.validate = .ok ())
    (hfits : ∀ s : Setting, s.kind.Fits (c.get s)) (hnumbers : ∀ x ∈ c.numbers, ReadsBack x)
    (htime : ReadsBack c.timeLimit) (s : Setting) : s.kind.Readable (c.get s) := by
  by_cases hs : s = .timeLimit
  · subst hs
    exact htime
  · by_cases hs' : s = .factorizationMethod
    · subst hs'
      have hknown := contains_of_validate h .factorizationMethod
      show c.factorizationMethod = .auto ∨ c.factorizationMethod = .kkt ∨ c.factorizationMethod = .schur
      simpa [SettingRange.contains, Setting.range, Settings.get, or_assoc] using hknown
    · refine SettingKind.readable (hfits s) (fun x hx => hnumbers x ?_) ?_ ?_
      · exact List.mem_filterMap.mpr ⟨s, s.mem_all, hx⟩
      · intro hkind
        cases s <;> first | exact hs rfl | cases hkind
      · intro hkind
        cases s <;> first | exact hs' rfl | cases hkind

end Settings

/-! ## Dumps -/

namespace Dump

/-- All numbers of a dump that are calculated with. -/
def numbers {T : Type} (d : Dump T) : List T :=
  d.Q.values.toList ++ d.q.toList ++ d.A.values.toList ++ d.bmin.toList ++ d.bmax.toList ++ d.settings.numbers

/-- The counts of a dump fit into their widths. -/
structure Fits {T : Type} (d : Dump T) : Prop where
  cost : d.Q.FitsWords
  constraints : d.A.FitsWords
  settings : ∀ s : Setting, s.kind.Fits (d.settings.get s)

/-- All numbers of a dump are finite, its time limit included. -/
structure AllFinite {T : Type} [Scalar T] (d : Dump T) : Prop where
  numbers : ∀ x ∈ d.numbers, Scalar.isFinite x = true
  time : Scalar.isFinite d.settings.timeLimit = true

theorem readable {T : Type} [Scalar T] [Numeral T] {d : Dump T} (hfits : d.Fits) (hsettings : d.settings.validate = .ok ())
    (hnumbers : ∀ x ∈ d.numbers, ReadsBack x) (htime : ReadsBack d.settings.timeLimit) : d.Readable := by
  simp only [numbers, List.mem_append, Array.mem_toList_iff] at hnumbers
  exact
    { cost := hfits.cost
      costValues := fun x hx => hnumbers x (.inl (.inl (.inl (.inl (.inl hx)))))
      linear := fun x hx => hnumbers x (.inl (.inl (.inl (.inl (.inr hx)))))
      constraints := hfits.constraints
      constraintValues := fun x hx => hnumbers x (.inl (.inl (.inl (.inr hx))))
      lower := fun x hx => hnumbers x (.inl (.inl (.inr hx)))
      upper := fun x hx => hnumbers x (.inl (.inr hx))
      settings := Settings.readable hsettings hfits.settings (fun x hx => hnumbers x (.inr hx)) htime }

/-- What is written in the format is read back, if all its numbers are finite. -/
def GivenBackBy {T : Type} [Scalar T] (d : Dump T) (format : DumpFormat T) : Prop :=
  d.AllFinite → format.read (format.write d) = .ok d

theorem givenBackBy_json {T : Type} [Scalar T] [Numeral T] {d : Dump T} (hfits : d.Fits)
    (hsettings : d.settings.validate = .ok ()) (hnumbers : ∀ x ∈ d.numbers, Scalar.isFinite x = true → ReadsBack x)
    (htime : Scalar.isFinite d.settings.timeLimit = true → ReadsBack d.settings.timeLimit) : d.GivenBackBy json :=
  fun hfinite =>
    read_writeJson (readable hfits hsettings (fun x hx => hnumbers x hx (hfinite.numbers x hx)) (htime hfinite.time))

variable {K : Type} [ExactScalar K] {top : K} {n m : Nat}

/-! ### Special values -/

theorem isFinite_toFinite {x : Extended K top} (h : Scalar.isNaN x = false) : Scalar.isFinite (toFinite x) = true := by
  cases x with
  | finite x => rfl
  | infinite s => cases s <;> rfl
  | undefined => cases h

theorem ofFinite_top : ofFinite (finite top : Extended K top) = infinite false := if_pos (beq_self_eq_true top)

theorem ofFinite_neg_top (htop : 0 < top) : ofFinite (finite (-top) : Extended K top) = infinite true := by
  have hne : ¬(-top == top) = true := fun h => (neg_lt_self htop).ne (beq_iff_eq.mp h)
  exact (if_neg hne).trans (if_pos (beq_self_eq_true (-top)))

/-- What is written of a number and read again, if the number is not one of those that stand for infinite ones. -/
theorem ofFinite_toFinite (htop : 0 < top) {x : Extended K top} (h : x ≠ finite top) (h' : x ≠ finite (-top)) :
    ofFinite (toFinite x) = x := by
  cases x with
  | finite x =>
      have hne : ¬(x == top) = true := fun hx => h (congrArg finite (beq_iff_eq.mp hx))
      have hne' : ¬(x == -top) = true := fun hx => h' (congrArg finite (beq_iff_eq.mp hx))
      exact (if_neg hne).trans (if_neg hne')
  | infinite s =>
      cases s with
      | false => exact ofFinite_top
      | true => exact ofFinite_neg_top htop
  | undefined => rfl

/-- If the number stands for an infinite one, then it is at the limit. -/
def Spared (limit x : Extended K top) : Prop := (x = finite top → x = limit) ∧ (x = finite (-top) → x = -limit)

theorem spared_of_lower (htop : 0 < top) {limit x : Extended K top} (hlimit : 0 < limit) (hle : -limit ≤ x)
    (h : -limit < x → x ≠ finite top ∧ x ≠ finite (-top)) : Spared limit x := by
  by_cases hlt : -limit < x
  · obtain ⟨hmax, hmin⟩ := h hlt
    exact ⟨fun heq => absurd heq hmax, fun heq => absurd heq hmin⟩
  · obtain rfl := eq_of_le_of_not_lt hle hlt
    refine ⟨fun heq => ?_, fun _ => rfl⟩
    cases limit with
    | finite l =>
        have hl : -l = top := finite.inj heq
        exact absurd (lt_finite_finite.mp hlimit) (neg_pos.mp (hl ▸ htop)).not_gt
    | infinite s => cases heq
    | undefined => cases heq

theorem spared_of_upper (htop : 0 < top) {limit x : Extended K top} (hlimit : 0 < limit) (hle : x ≤ limit)
    (h : x < limit → x ≠ finite top ∧ x ≠ finite (-top)) : Spared limit x := by
  by_cases hlt : x < limit
  · obtain ⟨hmax, hmin⟩ := h hlt
    exact ⟨fun heq => absurd heq hmax, fun heq => absurd heq hmin⟩
  · obtain rfl := eq_of_le_of_not_lt hle hlt
    refine ⟨fun _ => rfl, fun heq => ?_⟩
    subst heq
    exact absurd (lt_finite_finite.mp hlimit) (neg_lt_zero.mpr htop).not_gt

/-- Once it is clamped a bound is what it was. -/
theorem clamp_ofFinite_toFinite (htop : 0 < top) {limit x : Extended K top} (hlower : -limit ≤ x) (hupper : x ≤ limit)
    (h : Spared limit x) : Scalar.clamp (ofFinite (toFinite x)) (-limit) limit = x := by
  by_cases hmax : x = finite top
  · have hlimit := h.1 hmax
    subst hlimit hmax
    exact congrArg (Scalar.clamp · _ _) ofFinite_top
  · by_cases hmin : x = finite (-top)
    · have hlimit := h.2 hmin
      subst hmin
      rw [← hlimit]
      exact (congrArg (Scalar.clamp · _ _) (ofFinite_neg_top htop)).trans (if_pos rfl)
    · rw [ofFinite_toFinite htop hmax hmin, Scalar.clamp_of_between hlower hupper]

theorem between_infinite {x : Extended K top} (h : Scalar.isNaN x = false) : infinite true ≤ x ∧ x ≤ infinite false := by
  cases x with
  | finite x => exact ⟨rfl, rfl⟩
  | infinite s => exact ⟨.inl rfl, .inr rfl⟩
  | undefined => cases h

theorem isNaN_ofFinite_toFinite (htop : 0 < top) {x : Extended K top} (h : Scalar.isNaN x = false) :
    Scalar.isNaN (ofFinite (toFinite x)) = false := by
  by_cases hmax : x = finite top
  · rw [hmax]
    exact congrArg Scalar.isNaN ofFinite_top
  · by_cases hmin : x = finite (-top)
    · rw [hmin]
      exact congrArg Scalar.isNaN (ofFinite_neg_top htop)
    · rw [ofFinite_toFinite htop hmax hmin, h]

/-- Bounds that are in order are so when they are read again. -/
theorem ofFinite_toFinite_mono (htop : 0 < top) {limit x y : Extended K top} (hlower : -limit ≤ x) (hxy : x ≤ y)
    (hupper : y ≤ limit) (hx : Spared limit x) (hy : Spared limit y) :
    ofFinite (toFinite x) ≤ ofFinite (toFinite y) := by
  obtain ⟨hxnan, hynan⟩ := SpecialValues.isNaN_of_le hxy
  by_cases hxmin : x = finite (-top)
  · have hleast : ofFinite (toFinite x) = infinite true := by
      rw [hxmin]
      exact ofFinite_neg_top htop
    rw [hleast]
    exact (between_infinite (isNaN_ofFinite_toFinite htop hynan)).1
  · by_cases hymax : y = finite top
    · have hgreatest : ofFinite (toFinite y) = infinite false := by
        rw [hymax]
        exact ofFinite_top
      rw [hgreatest]
      exact (between_infinite (isNaN_ofFinite_toFinite htop hxnan)).2
    · -- at the limit both numbers would be the same
      have hxmax : x ≠ finite top := by
        intro heq
        have hlimit := hx.1 heq
        have hy' : y = limit := eq_of_le_of_not_lt hupper (Scalar.not_lt_of_le (hlimit ▸ hxy))
        exact hymax (hy'.trans (hlimit.symm.trans heq))
      have hymin : y ≠ finite (-top) := by
        intro heq
        have hlimit := hy.2 heq
        have hx' : x = y := eq_of_le_of_not_lt hxy (Scalar.not_lt_of_le (hlimit ▸ hlower))
        exact hxmin (hx'.trans heq)
      rw [ofFinite_toFinite htop hxmax hxmin, ofFinite_toFinite htop hymax hymin]
      exact hxy

/-! ### Dumps of programs -/

/-- The dump of a program in its own units. -/
def ofProgram (L : QuadraticProgram (Extended K top) n m) (c : Settings (Extended K top)) : Dump (Extended K top) where
  Q := L.Q
  q := L.q.toArray
  A := L.A
  bmin := L.bmin.toArray.map toFinite
  bmax := L.bmax.toArray.map toFinite
  settings := { c with timeLimit := timeToFinite c.timeLimit }

end Dump

/-! ## Settings of dumps -/

section Finite

variable {K : Type} [ExactScalar K] {top : K} {c : Settings (Extended K top)}

/-- A legal number is finite, unless every number is legal. -/
theorem SettingRange.isFinite_of_contains {k : SettingKind} {r : SettingRange k} {v : k.Value (Extended K top)}
    (h : r.contains v = true) (hr : r ≠ .any) : ∀ x ∈ k.number? v, Scalar.isFinite x = true := by
  have hzero : Scalar.isFinite (0 : Extended K top) = true := rfl
  have hone : Scalar.isFinite (1 : Extended K top) = true := rfl
  have hle {a b : Extended K top} (hab : a < b) : a ≤ b := (SpecialValues.lt_iff.mp hab).1
  cases r with
  | any => exact absurd rfl hr
  | positiveCount | positiveTime | knownMethod => exact nofun
  | nonnegative | positive | aboveOne =>
      rintro _ ⟨⟩
      exact (Bool.and_eq_true_iff.mp h).2
  | ratio =>
      rintro _ ⟨⟩
      obtain ⟨hpos, hlt⟩ := Bool.and_eq_true_iff.mp h
      exact SpecialValues.isFinite_between hzero hone (hle (of_decide_eq_true hpos)) (of_decide_eq_true hlt)
  | fraction =>
      rintro _ ⟨⟩
      obtain ⟨hpos, hlt⟩ := Bool.and_eq_true_iff.mp h
      exact SpecialValues.isFinite_between hzero hone (hle (of_decide_eq_true hpos)) (hle (of_decide_eq_true hlt))

/-- The numbers of valid settings are finite. -/
theorem Settings.isFinite_of_mem_numbers (h : c.validate = .ok ()) : ∀ x ∈ c.numbers, Scalar.isFinite x = true := by
  intro x hx
  obtain ⟨s, -, hs⟩ := List.mem_filterMap.mp hx
  have hcontains := contains_of_validate h s
  by_cases hr : s.range = .any
  · -- only counts and flags are unrestricted
    have hnone : s.kind.number? (c.get s) = none := by
      cases s <;> first | rfl | cases hr
    rw [hnone] at hs
    cases hs
  · exact SettingRange.isFinite_of_contains hcontains hr x hs

end Finite

/-! ## Programs -/

namespace QuadraticProgram

variable {K : Type} [ExactScalar K] {top : K} {n m : Nat} {L : QuadraticProgram (Extended K top) n m}
variable {c : Settings (Extended K top)}

/-- No bound within the limit stands for an infinite one. -/
structure Spares (L : QuadraticProgram (Extended K top) n m) : Prop where
  lower : ∀ i, Dump.Spared L.limit (L.bmin.get i)
  upper : ∀ i, Dump.Spared L.limit (L.bmax.get i)

/-- All numbers that are written are finite. -/
theorem Proper.isFinite_of_mem_numbers (h : L.Proper) (hc : c.validate = .ok ()) :
    ∀ x ∈ (Dump.ofProgram L c).numbers, Scalar.isFinite x = true := by
  have hbounds {b : Vector (Extended K top) m} (hb : ∀ i, Scalar.isNaN (b.get i) = false) :
      ∀ x ∈ b.toArray.map Dump.toFinite, Scalar.isFinite x = true := by
    intro x hx
    obtain ⟨y, hy, rfl⟩ := Array.mem_map.mp hx
    obtain ⟨i, hi, rfl⟩ := Array.mem_iff_getElem.mp hy
    exact Dump.isFinite_toFinite (hb ⟨i, b.size_toArray ▸ hi⟩)
  have htime := (Dump.timeToFinite_spec (Settings.timeLimit_pos hc)).1
  intro x hx
  simp only [Dump.numbers, List.mem_append, Array.mem_toList_iff] at hx
  rcases hx with ((((hx | hx) | hx) | hx) | hx) | hx
  · exact Array.all_eq_true_iff_forall_mem.mp h.cost x hx
  · obtain ⟨i, hi, rfl⟩ := Array.mem_iff_getElem.mp hx
    exact Vector.all_eq_true.mp h.linear i (L.q.size_toArray ▸ hi)
  · exact Array.all_eq_true_iff_forall_mem.mp h.constraints x hx
  · exact hbounds (fun i => (SpecialValues.isNaN_of_le (h.lower i).1).2) x hx
  · exact hbounds (fun i => (SpecialValues.isNaN_of_le (h.upper i).1).2) x hx
  · exact Settings.isFinite_of_mem_numbers (Settings.validate_withTimeLimit hc htime) x hx

/-- The problem that is read passes every check. -/
theorem Proper.validate_problem (h : L.Proper) (htop : 0 < top) (hs : L.Spares) {c' : Settings (Extended K top)}
    (hc' : c'.validate = .ok ()) : (Dump.ofProgram L c).problem.validate c' = .ok (n, m) := by
  have hcost := SparseMatrix.check_of_wellFormed h.formed.cost h.cost
  have hconstraints := SparseMatrix.check_of_wellFormed h.formed.constraints h.constraints
  have hlinear : L.q.toArray.all Scalar.isFinite = true := h.linear
  refine ProblemInput.validate_eq_ok.mpr ⟨rfl, rfl, ?_, ?_, ?_, hc', h.formed.cost_cols, h.formed.constraint_rows⟩
  · have hn : (Dump.ofProgram L c).problem.variableCount = n := h.formed.cost_cols
    have hm : (Dump.ofProgram L c).problem.constraintCount = m := h.formed.constraint_rows
    simp only [ProblemInput.checkDimensions, seq_eq_ok, ProblemInput.whenPresent_eq_ok, checkDimension_eq_ok, hn, hm]
    refine ⟨?_, ?_, ?_, ?_, ?_⟩
    · rintro _ ⟨⟩
      exact ⟨rfl, h.square.symm, h.formed.cost_cols.symm⟩
    · rintro _ ⟨⟩
      exact L.q.size_toArray.symm
    · rintro _ ⟨⟩
      exact ⟨rfl, h.formed.constraint_cols.symm⟩
    · rintro _ ⟨⟩
      simp [Dump.ofProgram]
    · rintro _ ⟨⟩
      simp [Dump.ofProgram]
  · have hordered : inconsistentBound? ((L.bmin.map Dump.toFinite).map Dump.ofFinite).toArray
        ((L.bmax.map Dump.toFinite).map Dump.ofFinite).toArray = none := by
      refine inconsistentBound?_eq_none.mpr fun i => ?_
      simp only [Vec.get_map]
      exact Dump.ofFinite_toFinite_mono htop (h.lower i).1 (h.ordered i) (h.upper i).2 (hs.lower i) (hs.upper i)
    exact ProblemInput.checkBounds_eq_ok rfl rfl hordered
  · simp only [ProblemInput.checkFormats, seq_eq_ok, ProblemInput.whenPresent_eq_ok, mapError_eq_ok]
    refine ⟨?_, ?_, ?_⟩
    · rintro _ ⟨⟩
      exact hcost
    · rintro _ ⟨⟩
      exact hconstraints
    · rintro _ ⟨⟩
      exact if_pos hlinear

theorem Proper.normalize_problem (h : L.Proper) (htop : 0 < top) (hs : L.Spares) :
    ((Dump.ofProgram L c).problem.normalize n m L.limit).1 = L := by
  have hread {k : Nat} (v : Vector (Extended K top) k) : Vec.read k v.toArray = v :=
    Vec.ext_get fun i => by simp [Vec.read, Vec.get_eq_getElem]
  have hcost : L.Q.upperTriangle = L.Q := SparseMatrix.upperTriangle_of_upper h.formed.cost h.formed.upper
  have hclamp {b : Vector (Extended K top) m} (hlower : ∀ i, -L.limit ≤ b.get i) (hupper : ∀ i, b.get i ≤ L.limit)
      (hb : ∀ i, Dump.Spared L.limit (b.get i)) :
      Vec.clamp (Vec.read m ((b.map Dump.toFinite).map Dump.ofFinite).toArray) (-L.limit) L.limit = b := by
    rw [hread]
    refine Vec.ext_get fun i => ?_
    simp only [Vec.clamp, Vec.get_map]
    exact Dump.clamp_ofFinite_toFinite htop (hlower i) (hupper i) (hb i)
  have hlower := hclamp (fun i => (h.lower i).1) (fun i => (h.lower i).2) hs.lower
  have hupper := hclamp (fun i => (h.upper i).1) (fun i => (h.upper i).2) hs.upper
  obtain ⟨Q, q, A, bmin, bmax, limit⟩ := L
  show QuadraticProgram.mk Q.upperTriangle (Vec.read n q.toArray) A
    (Vec.clamp (Vec.read m ((bmin.map Dump.toFinite).map Dump.ofFinite).toArray) (-limit) limit)
    (Vec.clamp (Vec.read m ((bmax.map Dump.toFinite).map Dump.ofFinite).toArray) (-limit) limit) limit = _
  rw [hcost, hread, hlower, hupper]

end QuadraticProgram
end AugLag
