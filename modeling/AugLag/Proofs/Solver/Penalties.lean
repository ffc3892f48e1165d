import AugLag.Proofs.Machine.Products
import AugLag.Proofs.Solver.Floor
import AugLag.Proofs.Solver.Overflow

/-!
# Penalties under rounding

Penalties grow by factors that are quotients of violations, and such a quotient may overflow or be undefined. All the same
no penalty falls, none exceeds its limit, and the proximal weight stays at its floor or above it, in every arithmetic in
which products grow (`Penalty.guarded_throughout`). An update of the penalties reports the rows that it has changed.
-/

namespace AugLag

variable {T : Type} [Scalar T]

/-! ## Larger and smaller numbers -/

namespace Scalar

variable [SpecialValues T] {a b x : T}

protected theorem le_of_lt (h : a < b) : a ≤ b := (SpecialValues.lt_iff.mp h).1

protected theorem lt_of_lt_of_le (hab : a < b) (hbx : b ≤ x) : a < x :=
  SpecialValues.lt_iff.mpr ⟨SpecialValues.le_trans (Scalar.le_of_lt hab) hbx,
    fun hxa => (SpecialValues.lt_iff.mp hab).2 (SpecialValues.le_trans hbx hxa)⟩

/-- What is compared is no NaN. -/
theorem isNaN_right_of_lt (h : a < b) : isNaN b = false := (SpecialValues.isNaN_of_le (Scalar.le_of_lt h)).2

protected theorem le_max_left (ha : isNaN a = false) : a ≤ max a b :=
  ((max_le_iff ha).mp (le_refl (isNaN_max ha))).1

protected theorem le_max_right (hb : isNaN b = false) : b ≤ max a b := by
  unfold max
  split
  · exact le_refl hb
  · next ha =>
      split
      · exact le_refl hb
      · next hlt => exact le_of_not_lt (Bool.eq_false_of_not_eq_true ha) hb hlt

protected theorem min_le_left (ha : isNaN a = false) : min a b ≤ a := by
  unfold min
  rw [ha, if_neg Bool.false_ne_true]
  split
  · next hlt => exact Scalar.le_of_lt hlt
  · exact le_refl ha

omit [SpecialValues T] in
protected theorem le_min (ha : x ≤ a) (hb : x ≤ b) : x ≤ min a b := by
  unfold min
  split
  · exact hb
  · split
    · exact hb
    · exact ha

end Scalar

variable {n m : Nat} {c : Settings T}

namespace Penalty

/-! ## Penalties of single rows -/

/-- A row is left alone, or it gets another penalty and is added to the rows that changed. -/
theorem growRow_cases (scale : T) (acc : Penalty T m × List Nat) (i : Nat) (v previous : T) :
    growRow c scale acc i v previous = acc ∨
      (grown c scale v (Vec.get acc.1.sigma i) == Vec.get acc.1.sigma i) = false ∧
        growRow c scale acc i v previous =
          ({ acc.1 with sigma := Vec.update acc.1.sigma i fun _ => grown c scale v (Vec.get acc.1.sigma i) },
            acc.2 ++ [i]) := by
  unfold growRow
  simp only
  split
  · next hchange =>
      rw [Bool.and_eq_true, Bool.not_eq_true'] at hchange
      exact .inr ⟨hchange.2, rfl⟩
  · exact .inl rfl

variable [GrowingProducts T]

/-- The share of a row in the largest violation may be undefined. The factor is at least one even so. -/
theorem one_le_factor (hc : c.validate = .ok ()) (x : T) : 1 ≤ Scalar.max 1 x :=
  Scalar.le_max_left
    (SpecialValues.isNaN_of_le (Scalar.le_of_lt (Settings.proximalRegularizationFactor_gt hc))).1

theorem le_grown (hc : c.validate = .ok ()) (scale v : T) {sigma : T} (hpos : 0 < sigma) (hle : sigma ≤ c.maxPenalty) :
    sigma ≤ grown c scale v sigma :=
  Scalar.le_min hle (GrowingProducts.le_mul (one_le_factor hc _) hpos).1

theorem grown_le (hc : c.validate = .ok ()) (scale v sigma : T) : grown c scale v sigma ≤ c.maxPenalty :=
  Scalar.min_le_left (Scalar.isNaN_right_of_lt (Settings.maxPenalty_pos hc))

/-! ## Steps -/

/-- The penalties are positive and within their limit, and the weight is not below its floor. -/
structure Guarded (c : Settings T) (p : Penalty T m) : Prop where
  sigma_pos : ∀ i, 0 < p.sigma.get i
  sigma_le : ∀ i, p.sigma.get i ≤ c.maxPenalty
  floor_pos : 0 < p.rhoFloor
  floor_le : p.rhoFloor ≤ p.rho

/-- No penalty of `p` is above that of `q`, and neither is the floor of the weight. -/
structure Below (p q : Penalty T m) : Prop where
  sigma_le : ∀ i, p.sigma.get i ≤ q.sigma.get i
  floor_le : p.rhoFloor ≤ q.rhoFloor

/-- The changes that penalties go through. Violations beyond the last row belong to none. -/
inductive Step (c : Settings T) : Penalty T m → Penalty T m → Prop
  | grow (p : Penalty T m) (violation previous : Array T) : Step c p (p.grow violation previous c).1
  | lowerProximal (p : Penalty T m) (solved : Bool) : Step c p (p.lowerProximal solved c).1
  | regularize (p : Penalty T m) : Step c p (p.regularize c)
  | commit (p : Penalty T m) : Step c p p.commit

/-- The penalties after any number of changes. -/
abbrev Leads (c : Settings T) : Penalty T m → Penalty T m → Prop := Relation.ReflTransGen (Step c)

variable {p q : Penalty T m} {acc : Penalty T m × List Nat}

theorem Below.trans {r : Penalty T m} (h : p.Below q) (h' : q.Below r) : p.Below r where
  sigma_le i := SpecialValues.le_trans (h.sigma_le i) (h'.sigma_le i)
  floor_le := SpecialValues.le_trans h.floor_le h'.floor_le

namespace Guarded

theorem isNaN_sigma (h : p.Guarded c) (i : Fin m) : Scalar.isNaN (p.sigma.get i) = false :=
  Scalar.isNaN_right_of_lt (h.sigma_pos i)

theorem isNaN_floor (h : p.Guarded c) : Scalar.isNaN p.rhoFloor = false := Scalar.isNaN_right_of_lt h.floor_pos

theorem below_self (h : p.Guarded c) : p.Below p where
  sigma_le i := Scalar.le_refl (h.isNaN_sigma i)
  floor_le := Scalar.le_refl h.isNaN_floor

theorem initial (hc : c.validate = .ok ()) {rhoFloor : T} (hfloor : 0 < rhoFloor) :
    (Penalty.initial m c rhoFloor).Guarded c where
  sigma_pos i := by
    rw [Penalty.initial, Vec.get_fill]
    exact Settings.initialPenalty_pos hc
  sigma_le i := by
    rw [Penalty.initial, Vec.get_fill]
    exact Scalar.le_of_not_lt (Scalar.isNaN_right_of_lt (Settings.maxPenalty_pos hc))
      (Scalar.isNaN_right_of_lt (Settings.initialPenalty_pos hc)) (Settings.not_maxPenalty_lt hc)
  floor_pos := hfloor
  floor_le := by
    have hnan := Scalar.isNaN_right_of_lt hfloor
    unfold Penalty.initial
    simp only
    split
    · exact Scalar.le_max_right hnan
    · exact Scalar.le_refl hnan

theorem growRow (hc : c.validate = .ok ()) (h : acc.1.Guarded c) (scale : T) (i : Nat) (v previous : T) :
    (growRow c scale acc i v previous).1.Guarded c ∧ acc.1.Below (Penalty.growRow c scale acc i v previous).1 := by
  rcases growRow_cases (c := c) scale acc i v previous with heq | ⟨-, heq⟩
  · rw [heq]
    exact ⟨h, h.below_self⟩
  · have hsigma (j : Fin m) :
        let new := (Vec.update acc.1.sigma i fun _ => grown c scale v (Vec.get acc.1.sigma i)).get j
        acc.1.sigma.get j ≤ new ∧ new ≤ c.maxPenalty := by
      simp only [Vec.get_update]
      split
      · next hij =>
          rw [hij, Vec.get_eq_of_lt]
          exact ⟨le_grown hc scale v (h.sigma_pos j) (h.sigma_le j), grown_le hc scale v _⟩
      · exact ⟨Scalar.le_refl (h.isNaN_sigma j), h.sigma_le j⟩
    rw [heq]
    exact ⟨{ h with
        sigma_pos := fun j => Scalar.lt_of_lt_of_le (h.sigma_pos j) (hsigma j).1
        sigma_le := fun j => (hsigma j).2 },
      { h.below_self with sigma_le := fun j => (hsigma j).1 }⟩

theorem grow (hc : c.validate = .ok ()) (h : p.Guarded c) (violation previous : Array T) :
    (p.grow violation previous c).1.Guarded c ∧ p.Below (p.grow violation previous c).1 := by
  unfold Penalty.grow
  generalize rowsWith violation previous = rows
  have hfold (acc : Penalty T m × List Nat) (hacc : acc.1.Guarded c) :
      let result := rows.foldl (fun acc r => Penalty.growRow c (violationScale violation) acc r.1 r.2.1 r.2.2) acc
      result.1.Guarded c ∧ acc.1.Below result.1 := by
    induction rows generalizing acc with
    | nil => exact ⟨hacc, hacc.below_self⟩
    | cons r rows ih =>
        obtain ⟨hrow, hbelow⟩ := hacc.growRow hc (violationScale violation) r.1 r.2.1 r.2.2
        exact ⟨(ih _ hrow).1, hbelow.trans (ih _ hrow).2⟩
  exact hfold (p, []) h

theorem lowerProximal (h : p.Guarded c) (solved : Bool) :
    (p.lowerProximal solved c).1.Guarded c ∧ p.Below (p.lowerProximal solved c).1 := by
  unfold Penalty.lowerProximal
  split
  · exact ⟨h, h.below_self⟩
  · exact ⟨{ h with floor_le := Scalar.le_max_right h.isNaN_floor }, { h.below_self with }⟩

theorem regularize (hc : c.validate = .ok ()) (h : p.Guarded c) :
    (p.regularize c).Guarded c ∧ p.Below (p.regularize c) := by
  have hgrows : p.rho ≤ p.rho * c.proximalRegularizationFactor :=
    (GrowingProducts.le_mul (Scalar.le_of_lt (Settings.proximalRegularizationFactor_gt hc))
      (Scalar.lt_of_lt_of_le h.floor_pos h.floor_le)).2
  refine ⟨{ h with floor_le := ?_ }, { h.below_self with }⟩
  exact SpecialValues.le_trans h.floor_le
    (SpecialValues.le_trans hgrows (Scalar.le_max_left (SpecialValues.isNaN_of_le hgrows).2))

theorem commit (h : p.Guarded c) : p.commit.Guarded c ∧ p.Below p.commit := by
  have hrises : p.rhoFloor ≤ p.commit.rhoFloor := Scalar.le_max_left h.isNaN_floor
  have hrho : Scalar.isNaN p.rho = false := (SpecialValues.isNaN_of_le h.floor_le).2
  refine ⟨{ h with floor_pos := ?_, floor_le := ?_ }, { h.below_self with floor_le := hrises }⟩
  · exact Scalar.lt_of_lt_of_le h.floor_pos hrises
  · exact (Scalar.max_le_iff h.isNaN_floor).mpr ⟨h.floor_le, .inr (Scalar.le_refl hrho)⟩

/-- No change lets a penalty fall or leave its limit, or the weight fall below its floor. -/
theorem step (hc : c.validate = .ok ()) (h : p.Guarded c) (hstep : Step c p q) : q.Guarded c ∧ p.Below q := by
  cases hstep with
  | grow violation previous => exact h.grow hc violation previous
  | lowerProximal solved => exact h.lowerProximal solved
  | regularize => exact h.regularize hc
  | commit => exact h.commit

theorem leads (hc : c.validate = .ok ()) (h : p.Guarded c) (hleads : p.Leads c q) : q.Guarded c ∧ p.Below q := by
  induction hleads with
  | refl => exact ⟨h, h.below_self⟩
  | tail _ hstep ih =>
      obtain ⟨hguarded, hbelow⟩ := ih.1.step hc hstep
      exact ⟨hguarded, ih.2.trans hbelow⟩

end Guarded

/-! ## Rows that changed -/

/-- The rows before `k` whose penalty is no longer that of `p` are listed in increasing order. The rows from there on are
still to come. -/
structure Reports (p : Penalty T m) (k : Nat) (acc : Penalty T m × List Nat) : Prop where
  ascending : acc.2.Pairwise (· < ·)
  lt : ∀ i ∈ acc.2, i < k
  mem_iff : ∀ i : Fin m, i.val ∈ acc.2 ↔ acc.1.sigma.get i ≠ p.sigma.get i
  untouched : ∀ i : Fin m, k ≤ i.val → acc.1.sigma.get i = p.sigma.get i

namespace Reports

variable {k : Nat}

omit [Scalar T] [GrowingProducts T] in
theorem mono {l : Nat} (h : p.Reports k acc) (hkl : k ≤ l) : p.Reports l acc where
  ascending := h.ascending
  lt i hi := (h.lt i hi).trans_le hkl
  mem_iff := h.mem_iff
  untouched i hi := h.untouched i (hkl.trans hi)

omit [Scalar T] [GrowingProducts T] in
theorem start (p : Penalty T m) : p.Reports 0 (p, []) where
  ascending := .nil
  lt := nofun
  mem_iff _ := iff_of_false nofun fun hne => hne rfl
  untouched _ _ := rfl

theorem growRow (hp : p.Guarded c) (h : p.Reports k acc) (scale : T) (i : Fin m) (hki : k ≤ i.val) (v previous : T) :
    p.Reports (i + 1) (Penalty.growRow c scale acc i v previous) := by
  rcases growRow_cases (c := c) scale acc i v previous with heq | ⟨hdiffers, heq⟩
  · rw [heq]
    exact h.mono (hki.trans (Nat.le_succ _))
  · have hne : grown c scale v (Vec.get acc.1.sigma i) ≠ p.sigma.get i := by
      intro hsame
      rw [hsame, Vec.get_eq_of_lt, h.untouched i hki, GrowingProducts.beq_self (hp.isNaN_sigma i)] at hdiffers
      cases hdiffers
    rw [heq]
    exact {
      ascending := List.pairwise_append.mpr ⟨h.ascending, List.pairwise_singleton _ _, fun j hj l hl => by
        rw [List.mem_singleton.mp hl]
        exact (h.lt j hj).trans_le hki⟩
      lt := fun j hj => by
        rcases List.mem_append.mp hj with hold | hnew
        · exact (h.lt j hold).trans_le (hki.trans (Nat.le_succ _))
        · exact List.mem_singleton.mp hnew ▸ Nat.lt_succ_self _
      mem_iff := fun j => by
        rw [List.mem_append, List.mem_singleton, Vec.get_update]
        by_cases hij : i.val = j.val
        · rw [if_pos hij, Fin.ext hij.symm]
          exact iff_of_true (.inr rfl) hne
        · rw [if_neg hij, or_iff_left fun hji => hij hji.symm]
          exact h.mem_iff j
      untouched := fun j hj => by
        rw [Vec.get_update, if_neg (Nat.lt_of_succ_le hj).ne]
        exact h.untouched j (hki.trans (Nat.le_of_succ_le hj)) }

/-- The rows come in increasing order, so that each is changed once at most. -/
theorem foldl_growRow (hp : p.Guarded c) (scale : T) (rows : List (Nat × T × T))
    (hrows : rows.Pairwise fun r r' => r.1 < r'.1) (hm : ∀ r ∈ rows, k ≤ r.1 ∧ r.1 < m) (hk : k ≤ m)
    (h : p.Reports k acc) :
    p.Reports m (rows.foldl (fun acc r => Penalty.growRow c scale acc r.1 r.2.1 r.2.2) acc) := by
  induction rows generalizing k acc with
  | nil => exact h.mono hk
  | cons r rows ih =>
      obtain ⟨hfirst, hrest⟩ := List.pairwise_cons.mp hrows
      obtain ⟨hkr, hrm⟩ := hm r List.mem_cons_self
      refine ih hrest (fun r' hr' => ⟨hfirst r' hr', (hm r' (List.mem_cons_of_mem _ hr')).2⟩) hrm ?_
      exact h.growRow hp scale ⟨r.1, hrm⟩ hkr r.2.1 r.2.2

omit [Scalar T] [GrowingProducts T] in
theorem map_fst_rowsWith (violation previous : Vector T m) :
    (rowsWith violation.toArray previous.toArray).map Prod.fst = List.range m := by
  unfold rowsWith
  rw [List.map_fst_zip (by simp)]
  simp

theorem grow (hp : p.Guarded c) (violation previous : Vector T m) :
    p.Reports m (p.grow violation.toArray previous.toArray c) := by
  have hrows := map_fst_rowsWith violation previous
  refine (start p).foldl_growRow hp _ _ (List.pairwise_map.mp (hrows ▸ List.pairwise_lt_range)) (fun r hr => ?_)
    (Nat.zero_le m)
  exact ⟨Nat.zero_le _, List.mem_range.mp (hrows ▸ List.mem_map_of_mem hr)⟩

end Reports

end Penalty

/-! ## Solves -/

section Solves

variable {P : ScaledProgram T n m} {r r₀ : Run T n m} {D : Penalty T m → Prop}

/-- A solve changes its penalties step by step. -/
theorem interchangeable_leads (p : Penalty T m) : Interchangeable P c c.policy (p.Leads c) Eq :=
  interchangeable_self (fun q h => h.tail (.regularize q)) (fun q h => h.tail (.commit q))
    (fun q violation previous h => h.tail (.grow q violation previous))
    (fun q solved h => h.tail (.lowerProximal q solved))

namespace Run

theorem penalty_entry (hsim : Interchangeable P c c.policy D Eq) (h : D r.newton.penalty)
    (hentry : r.entry P c = some r₀) : D r₀.newton.penalty := by
  unfold entry at hentry
  split at hentry
  · cases hentry
    exact h
  · have hnewton : (r.evaluate P).newton.Alike D Eq (r.evaluate P).newton := (alike_self h).2
    have hinside := (hnewton.factorInitial hsim (r.evaluate P).evaluation.active).1.inside
    simp only at hentry
    split at hentry
    · cases hentry
    · next heq =>
        cases hentry
        rw [heq] at hinside
        exact hinside

theorem penalty_complete (hsim : Interchangeable P c c.policy D Eq) (h : D r.newton.penalty) (expired : Nat → Bool) :
    D (r.complete P c expired).1.newton.penalty :=
  ((alike_self h).complete hsim expired).1.2.inside

end Run

namespace Solver

variable [GrowingProducts T] {S : Solver T n m}

theorem minProximal_le_rhoFloor (hc : S.settings.validate = .ok ()) : S.settings.minProximal ≤ S.rhoFloor := by
  have hmin : Scalar.isNaN S.settings.minProximal = false := Scalar.isNaN_right_of_lt (Settings.minProximal_pos hc)
  unfold rhoFloor
  split
  · split
    · exact Scalar.le_max_left hmin
    · exact Scalar.le_refl hmin
  · exact Scalar.le_refl hmin

/-- However the penalties have changed since the start of a solve, the weight is not below the least one allowed. -/
theorem minProximal_le_rho (hc : S.settings.validate = .ok ()) {p : Penalty T m}
    (h : S.start.newton.penalty.Leads S.settings p) : S.settings.minProximal ≤ p.rho := by
  have hfloor := minProximal_le_rhoFloor hc
  have hstart : S.start.newton.penalty.Guarded S.settings :=
    .initial hc (Scalar.lt_of_lt_of_le (Settings.minProximal_pos hc) hfloor)
  obtain ⟨hguarded, hbelow⟩ := hstart.leads hc h
  exact SpecialValues.le_trans hfloor (SpecialValues.le_trans hbelow.floor_le hguarded.floor_le)

end Solver

end Solves

/-- Under settings that pass validation the penalties stay positive and within their limit, and the weight at its floor or
above it. Neither a penalty nor the floor ever falls. An update of the penalties reports exactly the rows it has changed,
in increasing order. At every iterate of a solve the weight is at least the least one allowed. -/
theorem Penalty.guarded_throughout [GrowingProducts T] (hc : c.validate = .ok ()) :
    (∀ {m : Nat} {rhoFloor : T} {p : Penalty T m}, 0 < rhoFloor → (Penalty.initial m c rhoFloor).Leads c p →
      p.Guarded c ∧ (∀ q, p.Leads c q → p.Below q) ∧
        ∀ (violation previous : Vector T m) {q : Penalty T m} {changed : List Nat},
          p.grow violation.toArray previous.toArray c = (q, changed) →
            changed.Pairwise (· < ·) ∧ (∀ i ∈ changed, i < m) ∧
              ∀ i : Fin m, i.val ∈ changed ↔ q.sigma.get i ≠ p.sigma.get i) ∧
    ∀ {n m : Nat} {S : Solver T n m} (expired : Nat → Bool), S.settings = c →
      (∀ {r₀ r : Run T n m} {k : Nat}, S.start.entry S.program c = some r₀ → Run.Reaches S.program c expired r₀ k r →
        c.minProximal ≤ r.newton.penalty.rho ∧
          c.minProximal ≤ (r.pass S.program c expired).1.newton.penalty.rho) ∧
        c.minProximal ≤ (S.run expired).2.run.newton.penalty.rho := by
  constructor
  · intro m rhoFloor p hfloor hp
    have hguarded := ((Guarded.initial hc hfloor).leads hc hp).1
    refine ⟨hguarded, fun q hq => (hguarded.leads hc hq).2, fun violation previous q changed hgrow => ?_⟩
    have hreports := Reports.grow hguarded violation previous
    rw [hgrow] at hreports
    exact ⟨hreports.ascending, hreports.lt, hreports.mem_iff⟩
  · rintro n m S expired rfl
    have hsim := interchangeable_leads (P := S.program) (c := S.settings) S.start.newton.penalty
    refine ⟨fun hentry hr => ?_, S.minProximal_le_rho hc (Run.penalty_complete hsim .refl expired)⟩
    have hleads := hr.penalty hsim (Run.penalty_entry hsim .refl hentry)
    exact ⟨S.minProximal_le_rho hc hleads, S.minProximal_le_rho hc (Run.penalty_pass hsim hleads expired)⟩

namespace Sample

/-- A concave cost over an interval. -/
def dent : QuadraticProgram Float 1 1 :=
  { Q := { rows := 1, cols := 1, colPtr := #[0, 1], rowIdx := #[0], values := #[-1] }
    q := #v[1]
    A := { rows := 1, cols := 1, colPtr := #[0, 1], rowIdx := #[0], values := #[1] }
    bmin := #v[-1]
    bmax := #v[1]
    limit := 1e20 }

def dentSettings : Settings Float :=
  { Settings.default with nonconvex := true, scalingEnable := false, factorizationMethod := .kkt }

/-- Three equal penalties. -/
def equalPenalties : Penalty Float 3 := Penalty.initial 3 dentSettings 1e-7

def plainViolation : Vector Float 3 := #v[3, 2, 1]

/-- Violations of which one is undefined and one infinite. -/
def undefinedViolation : Vector Float 3 := #v[Scalar.nan, Scalar.infinity, 1]

/-- The penalties after an update that compares with undefined violations, and the rows that it has changed. -/
def grownPenalties : Penalty Float 3 × List Nat :=
  equalPenalties.grow plainViolation.toArray undefinedViolation.toArray dentSettings

/-- The penalties after another update, for undefined violations, and a raised weight that is kept. -/
def keptPenalties : Penalty Float 3 :=
  ((grownPenalties.1.grow undefinedViolation.toArray plainViolation.toArray dentSettings).1.regularize dentSettings).commit

theorem leads_keptPenalties : grownPenalties.1.Leads dentSettings keptPenalties :=
  ((Relation.ReflTransGen.single (.grow _ _ _)).tail (.regularize _)).tail (.commit _)

theorem exists_solver_dent : ∃ S, Solver.ofProgram dent dentSettings = .ok S ∧ S.settings = dentSettings := by
  have hok : (Solver.ofProgram dent dentSettings).isOk = true := by decide +kernel
  cases hS : Solver.ofProgram dent dentSettings with
  | error e =>
      rw [hS] at hok
      cases hok
  | ok S =>
      unfold Solver.ofProgram Solver.fresh at hS
      obtain ⟨engine, -, rfl⟩ := map_eq_ok.mp hS
      exact ⟨_, rfl, rfl⟩

end Sample

/-- Two of three penalties grow, although the violations are compared with undefined ones. -/
theorem Penalty.guarded_throughout_undefined :
    Sample.grownPenalties.2 = [0, 2] ∧ Sample.grownPenalties.1.sigma.get 0 ≠ Sample.equalPenalties.sigma.get 0 ∧
      Sample.grownPenalties.1.sigma.get 1 = Sample.equalPenalties.sigma.get 1 ∧
      Sample.grownPenalties.1.Guarded Sample.dentSettings ∧ Sample.grownPenalties.1.Below Sample.keptPenalties ∧
        ∃ S, Solver.ofProgram Sample.dent Sample.dentSettings = .ok S ∧
          Sample.dentSettings.minProximal ≤ S.start.newton.penalty.rho ∧
            Sample.dentSettings.minProximal ≤ (S.run fun _ => false).2.run.newton.penalty.rho := by
  obtain ⟨hpenalties, hsolves⟩ := guarded_throughout (c := Sample.dentSettings) (by decide +kernel)
  have hfloor : (0 : Float) < 1e-7 := by decide +kernel
  have hchanged : Sample.grownPenalties.2 = [0, 2] := by decide +kernel
  obtain ⟨-, -, hreports⟩ := hpenalties (p := Sample.equalPenalties) hfloor .refl
  obtain ⟨-, -, hiff⟩ :=
    hreports Sample.plainViolation Sample.undefinedViolation (Prod.mk.eta (p := Sample.grownPenalties)).symm
  obtain ⟨hguarded, hbelow, -⟩ := hpenalties (p := Sample.grownPenalties.1) hfloor (.single (.grow _ _ _))
  obtain ⟨S, hS, hsettings⟩ := Sample.exists_solver_dent
  obtain ⟨hiterates, hrun⟩ := hsolves (S := S) (fun _ => false) hsettings
  have hentry : S.start.entry S.program Sample.dentSettings = some S.start := if_pos rfl
  rw [hchanged] at hiff
  refine ⟨hchanged, (hiff 0).mp (by decide), ?_, hguarded, hbelow _ Sample.leads_keptPenalties, S, hS,
    (hiterates hentry .start).1, hrun⟩
  exact not_not.mp fun hne => absurd ((hiff 1).mpr hne) (by decide)

end AugLag
