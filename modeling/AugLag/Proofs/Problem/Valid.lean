import AugLag.Proofs.Checks
import AugLag.Proofs.Newton.Data
import AugLag.Proofs.Settings
import AugLag.Proofs.Sparse.Build
import AugLag.Problem.Input

/-!
# What validation guarantees

A problem that passed every check has parts of the right sizes, bounds in order, and well formed matrices. Nothing here
depends on how the scalars calculate.
-/

namespace AugLag

variable {T : Type} [Scalar T] {n m : Nat}

/-! ## Single checks -/

/-- A matrix that passes its checks is well formed once it is sparse. -/
theorem MatrixInput.wellFormed_toSparse {M : MatrixInput T} {what : ProblemPart} (hlen : M.checkLength what = .ok ())
    (hcheck : M.check = .ok ()) : (M.toSparse what).1.WellFormed ∧ (M.toSparse what).1.size = M.size := by
  cases M with
  | sparse S => exact ⟨SparseMatrix.wellFormed_of_check hcheck, rfl⟩
  | dense rows cols data =>
      have hsize : data.size = rows * cols := by
        by_contra hne
        simp [checkLength, hne] at hlen
      exact ⟨SparseMatrix.wellFormed_ofDense hsize, Prod.ext rfl (SparseMatrix.cols_ofDense rows cols data)⟩

/-- The values of a matrix that passes its checks are finite. -/
theorem MatrixInput.finite_toSparse {M : MatrixInput T} (what : ProblemPart) (hcheck : M.check = .ok ()) :
    (M.toSparse what).1.values.all Scalar.isFinite = true := by
  cases M with
  | sparse S => exact SparseMatrix.finite_of_check hcheck
  | dense rows cols data =>
      have hdata : data.all Scalar.isFinite = true := by
        by_contra hne
        simp [check, hne] at hcheck
      exact SparseMatrix.finite_ofDense hdata

theorem checkDimension_eq_ok {what : ProblemPart} {expected found : Nat} :
    checkDimension what expected found = .ok () ↔ expected = found := by
  unfold checkDimension
  split <;> simp [*]

/-- Bounds that pass the check are in order at every place. -/
theorem le_of_inconsistentBound?_eq_none {bmin bmax : Array T} (h : inconsistentBound? bmin bmax = none) {i : Nat}
    (hmin : i < bmin.size) (hmax : i < bmax.size) : bmin.getD i 0 ≤ bmax.getD i 0 := by
  have hall := List.findIdx?_eq_none_iff.mp h (bmin[i], bmax[i])
    (List.mem_iff_getElem.mpr ⟨i, by simp; omega, by simp⟩)
  simpa [Array.getD_eq_getD_getElem?, hmin, hmax] using hall

theorem inconsistentBound?_eq_none {lower upper : Vector T m} :
    inconsistentBound? lower.toArray upper.toArray = none ↔ ∀ i : Fin m, lower.get i ≤ upper.get i := by
  constructor
  · intro h i
    have hi := le_of_inconsistentBound?_eq_none h (i := i) (by simp) (by simp)
    simpa [Vec.get_eq_getElem, Array.getD_eq_getD_getElem?] using hi
  · intro h
    refine List.findIdx?_eq_none_iff.mpr fun b hb => ?_
    obtain ⟨i, hi, rfl⟩ := List.mem_iff_getElem.mp hb
    have hlt : i < m := by simpa using hi
    simpa [Vec.get_eq_getElem] using h ⟨i, hlt⟩

namespace ProblemInput

variable {P : ProblemInput T} {c : Settings T}

/-- A problem of `n` variables and `m` constraints that passed every check. -/
structure Valid (P : ProblemInput T) (c : Settings T) (n m : Nat) : Prop where
  cost : ∀ Q ∈ P.Q, Q.checkLength .cost = .ok () ∧ Q.check = .ok () ∧ Q.size = (n, n)
  linear : ∀ q ∈ P.q, q.size = n
  constraints : ∀ A ∈ P.A, A.checkLength .constraints = .ok () ∧ A.check = .ok () ∧ A.size = (m, n)
  noConstraints : P.A = none → m = 0
  lower : ∀ b ∈ P.bmin, b.size = m
  upper : ∀ b ∈ P.bmax, b.size = m
  complete : P.A.isSome = P.bmin.isSome ∧ P.A.isSome = P.bmax.isSome
  ordered : ∀ l ∈ P.bmin, ∀ u ∈ P.bmax, inconsistentBound? l u = none
  settings : c.validate = .ok ()

theorem validate_eq_ok :
    P.validate c = .ok (n, m) ↔
      (P.Q.isNone && P.q.isNone && P.A.isNone) = false ∧ P.boundsComplete = true ∧ P.checkDimensions = .ok () ∧
        P.checkBounds = .ok () ∧ P.checkFormats = .ok () ∧ c.validate = .ok () ∧
          P.variableCount = n ∧ P.constraintCount = m := by
  unfold validate
  cases P.Q.isNone && P.q.isNone && P.A.isNone with
  | true => simp [throw, throwThe, MonadExceptOf.throw, bind, Except.bind]
  | false =>
      cases P.boundsComplete with
      | false => simp [throw, throwThe, MonadExceptOf.throw, bind, Except.bind]
      | true =>
          simp only [Bool.not_true, Bool.false_eq_true, if_false, seq_eq_ok, mapError_eq_ok]
          simp [pure, Except.pure]

theorem whenPresent_eq_ok {α : Type} {part : Option α} {check : α → Except SetupError Unit} :
    whenPresent part check = .ok () ↔ ∀ a ∈ part, check a = .ok () := by
  cases part with
  | none => simp [whenPresent]
  | some a => simp [whenPresent]

theorem checkBounds_eq_ok {l u : Array T} (hl : P.bmin = some l) (hu : P.bmax = some u)
    (h : inconsistentBound? l u = none) : P.checkBounds = .ok () := by
  simp only [checkBounds, hl, hu, h]

theorem valid_of_validate (h : P.validate c = .ok (n, m)) : Valid P c n m := by
  obtain ⟨-, hcomplete, hdims, hbounds, hformats, hsettings, rfl, rfl⟩ := validate_eq_ok.mp h
  simp only [checkDimensions, seq_eq_ok, whenPresent_eq_ok, checkDimension_eq_ok] at hdims
  simp only [checkFormats, seq_eq_ok, whenPresent_eq_ok, mapError_eq_ok] at hformats
  simp only [boundsComplete, Bool.and_eq_true, beq_iff_eq] at hcomplete
  obtain ⟨hQ, hq, hA, hlower, hupper⟩ := hdims
  refine { cost := fun Q hmem => ?_, linear := fun q hmem => (hq q hmem).symm,
           constraints := fun A hmem => ?_, noConstraints := fun hnone => ?_,
           lower := fun b hmem => (hlower b hmem).symm, upper := fun b hmem => (hupper b hmem).symm,
           complete := hcomplete, ordered := fun l hl u hu => ?_, settings := hsettings }
  · obtain ⟨hlen, hrows, hcols⟩ := hQ Q hmem
    exact ⟨hlen, hformats.1 Q hmem, Prod.ext hrows.symm hcols.symm⟩
  · obtain ⟨hlen, hcols⟩ := hA A hmem
    refine ⟨hlen, hformats.2.1 A hmem, Prod.ext ?_ hcols.symm⟩
    rw [constraintCount, Option.mem_def.mp hmem]
    rfl
  · rw [constraintCount, hnone]
    rfl
  · rw [Option.mem_def] at hl hu
    unfold checkBounds at hbounds
    rw [hl, hu] at hbounds
    simp only at hbounds
    split at hbounds
    · cases hbounds
    · assumption

theorem finite_of_validate (h : P.validate c = .ok (n, m)) : ∀ q ∈ P.q, q.all Scalar.isFinite = true := by
  obtain ⟨-, -, -, -, hformats, -⟩ := validate_eq_ok.mp h
  simp only [checkFormats, seq_eq_ok, whenPresent_eq_ok] at hformats
  intro q hq
  by_contra hne
  simpa [hne] using hformats.2.2 q hq

/-- The bounds of a valid problem are in order. -/
theorem Valid.read_le (h : Valid P c n m) (i : Fin m) :
    (Vec.read m (P.bmin.getD #[])).get i ≤ (Vec.read m (P.bmax.getD #[])).get i := by
  have hi := i.isLt
  cases hA : P.A with
  | none =>
      have := h.noConstraints hA
      omega
  | some A =>
      obtain ⟨hmin, hmax⟩ := h.complete
      rw [hA, Option.isSome_some] at hmin hmax
      obtain ⟨l, hl⟩ := Option.isSome_iff_exists.mp hmin.symm
      obtain ⟨u, hu⟩ := Option.isSome_iff_exists.mp hmax.symm
      have hls := h.lower l hl
      have hus := h.upper u hu
      rw [hl, hu, Vec.read, Vec.read, Vec.get_ofFn, Vec.get_ofFn]
      exact le_of_inconsistentBound?_eq_none (h.ordered l hl u hu) (by omega) (by omega)

/-! ## The errors of validation -/

section Errors

variable {cause : NewtonError}

theorem whenPresent_ne_error {α : Type} {part : Option α} {check : α → Except SetupError Unit} {e : SetupError}
    (h : ∀ a, check a ≠ .error e) : whenPresent part check ≠ .error e := by
  cases part with
  | none => exact fun heq => by cases heq
  | some a => exact h a

theorem checkDimension_ne_linearSolver (what : ProblemPart) (expected found : Nat) :
    checkDimension what expected found ≠ .error (.linearSolver cause) := by
  unfold checkDimension
  split <;> simp

omit [Scalar T] in
theorem checkLength_ne_linearSolver (M : MatrixInput T) (what : ProblemPart) :
    M.checkLength what ≠ .error (.linearSolver cause) := by
  cases M with
  | sparse M => simp [MatrixInput.checkLength]
  | dense rows cols data =>
      rw [MatrixInput.checkLength]
      split <;> simp

/-- Validation does not look at Newton systems. -/
theorem validate_ne_linearSolver (P : ProblemInput T) (c : Settings T) (cause : NewtonError) :
    P.validate c ≠ .error (.linearSolver cause) := by
  have hdims : P.checkDimensions ≠ .error (.linearSolver cause) := by
    refine bind_ne_error (whenPresent_ne_error fun Q => ?_) fun _ => ?_
    · refine bind_ne_error (checkLength_ne_linearSolver Q _) fun _ => ?_
      exact bind_ne_error (checkDimension_ne_linearSolver _ _ _) fun _ => checkDimension_ne_linearSolver _ _ _
    refine bind_ne_error (whenPresent_ne_error fun q => checkDimension_ne_linearSolver _ _ _) fun _ => ?_
    refine bind_ne_error (whenPresent_ne_error fun A => ?_) fun _ => ?_
    · exact bind_ne_error (checkLength_ne_linearSolver A _) fun _ => checkDimension_ne_linearSolver _ _ _
    refine bind_ne_error (whenPresent_ne_error fun b => checkDimension_ne_linearSolver _ _ _) fun _ => ?_
    exact whenPresent_ne_error fun b => checkDimension_ne_linearSolver _ _ _
  have hbounds : P.checkBounds ≠ .error (.linearSolver cause) := by
    unfold checkBounds
    split
    · split <;> simp
    · simp
  have hformats : P.checkFormats ≠ .error (.linearSolver cause) := by
    refine bind_ne_error (whenPresent_ne_error fun Q => mapError_ne_error (by simp)) fun _ => ?_
    refine bind_ne_error (whenPresent_ne_error fun A => mapError_ne_error (by simp)) fun _ => ?_
    refine whenPresent_ne_error fun q => ?_
    split <;> simp
  unfold validate
  cases P.Q.isNone && P.q.isNone && P.A.isNone with
  | true => simp [throw, throwThe, MonadExceptOf.throw, bind, Except.bind]
  | false =>
      cases P.boundsComplete with
      | false => simp [throw, throwThe, MonadExceptOf.throw, bind, Except.bind]
      | true =>
          refine bind_ne_error hdims fun _ => bind_ne_error hbounds fun _ => bind_ne_error hformats fun _ => ?_
          exact bind_ne_error (mapError_ne_error (by simp)) fun _ => by simp [pure, Except.pure]

end Errors

/-! ## The program of a valid problem -/

/-- The vectors of a normalized program do not depend on how its matrices were given. -/
theorem normalize_vectors (P : ProblemInput T) (n m : Nat) (limit : T) :
    (P.normalize n m limit).1.q = Vec.read n (P.q.getD #[]) ∧
      (P.normalize n m limit).1.bmin = Vec.clamp (Vec.read m (P.bmin.getD #[])) (-limit) limit ∧
        (P.normalize n m limit).1.bmax = Vec.clamp (Vec.read m (P.bmax.getD #[])) (-limit) limit ∧
          (P.normalize n m limit).1.limit = limit := by
  unfold normalize
  split
  split
  exact ⟨rfl, rfl, rfl, rfl⟩

theorem Valid.formed (h : Valid P c n m) (limit : T) :
    NewtonData (P.normalize n m limit).1.Q (P.normalize n m limit).1.A n m := by
  have hcost : (P.normalize n m limit).1.Q.WellFormed ∧ (P.normalize n m limit).1.Q.Upper ∧
      (P.normalize n m limit).1.Q.cols = n := by
    cases hQ : P.Q with
    | none =>
        simp only [normalize, hQ]
        exact ⟨SparseMatrix.wellFormed_zeros n n, SparseMatrix.upper_zeros n n, rfl⟩
    | some Q =>
        obtain ⟨hlen, hcheck, hsize⟩ := h.cost Q hQ
        obtain ⟨hformed, heq⟩ := MatrixInput.wellFormed_toSparse hlen hcheck
        simp only [normalize, hQ]
        refine ⟨SparseMatrix.wellFormed_upperTriangle hformed, SparseMatrix.upper_upperTriangle hformed, ?_⟩
        exact (SparseMatrix.cols_upperTriangle _).trans (congrArg Prod.snd (heq.trans hsize))
  have hconstraints : (P.normalize n m limit).1.A.WellFormed ∧ (P.normalize n m limit).1.A.rows = m ∧
      (P.normalize n m limit).1.A.cols = n := by
    cases hA : P.A with
    | none =>
        obtain rfl := h.noConstraints hA
        simp only [normalize, hA]
        exact ⟨SparseMatrix.wellFormed_zeros 0 n, rfl, rfl⟩
    | some A =>
        obtain ⟨hlen, hcheck, hsize⟩ := h.constraints A hA
        obtain ⟨hformed, heq⟩ := MatrixInput.wellFormed_toSparse hlen hcheck
        simp only [normalize, hA]
        exact ⟨hformed, congrArg Prod.fst (heq.trans hsize), congrArg Prod.snd (heq.trans hsize)⟩
  exact
    { cost := hcost.1
      upper := hcost.2.1
      cost_cols := hcost.2.2
      constraints := hconstraints.1
      constraint_cols := hconstraints.2.2
      constraint_rows := hconstraints.2.1 }

theorem Valid.cost_rows (h : Valid P c n m) (limit : T) : (P.normalize n m limit).1.Q.rows = n := by
  cases hQ : P.Q with
  | none =>
      simp only [normalize, hQ]
      rfl
  | some Q =>
      obtain ⟨hlen, hcheck, hsize⟩ := h.cost Q hQ
      have heq := (MatrixInput.wellFormed_toSparse hlen hcheck).2
      simp only [normalize, hQ]
      exact congrArg Prod.fst (heq.trans hsize)

/-- The matrices of a valid problem are finite. -/
theorem Valid.finite (h : Valid P c n m) (limit : T) :
    (P.normalize n m limit).1.Q.values.all Scalar.isFinite = true ∧
      (P.normalize n m limit).1.A.values.all Scalar.isFinite = true := by
  have hzeros (rows cols : Nat) : (SparseMatrix.zeros rows cols : SparseMatrix T).values.all Scalar.isFinite = true := by
    simp [SparseMatrix.zeros, SparseMatrix.allocate]
  refine ⟨?_, ?_⟩
  · cases hQ : P.Q with
    | none =>
        simp only [normalize, hQ]
        exact hzeros n n
    | some Q =>
        obtain ⟨hlen, hcheck, -⟩ := h.cost Q hQ
        simp only [normalize, hQ]
        exact SparseMatrix.finite_upperTriangle (MatrixInput.wellFormed_toSparse hlen hcheck).1
          (MatrixInput.finite_toSparse _ hcheck)
  · cases hA : P.A with
    | none =>
        simp only [normalize, hA]
        exact hzeros 0 n
    | some A =>
        obtain ⟨-, hcheck, -⟩ := h.constraints A hA
        simp only [normalize, hA]
        exact MatrixInput.finite_toSparse _ hcheck

end ProblemInput
end AugLag
