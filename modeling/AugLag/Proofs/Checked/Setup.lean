import AugLag.Proofs.Checked.Iteration
import AugLag.Proofs.Problem.Valid
import AugLag.Workspace.Basic

/-!
# The checked setup

Validation looks at nothing that an input may lack, and what it lets pass meets the assertions of everything that follows.
The arrays of an input may be anything. Nothing here depends on how the scalars calculate.
-/

namespace AugLag.Checked.Setup

open SparseMatrix

variable {T : Type} [Scalar T] {n m : Nat} {P : ProblemInput T} {c : Settings T} {limit : T}

/-! ## Validation -/

def checkMatrix : MatrixInput T → Option (Except SparseFormatError Unit)
  | .sparse M => check M
  | .dense _ _ data => some (if data.all Scalar.isFinite then .ok () else .error .nonFiniteValue)

/-- A matrix is checked if it is present. -/
def checkFormat (M : Option (MatrixInput T)) : ExceptT SetupError Option Unit := ExceptT.mk <|
  match M with
  | some M => (checkMatrix M).map (·.mapError .badFormat)
  | none => some (.ok ())

def checkFormats (P : ProblemInput T) : ExceptT SetupError Option Unit := do
  checkFormat P.Q
  checkFormat P.A
  ExceptT.mk (some (ProblemInput.whenPresent P.q fun q =>
    if q.all Scalar.isFinite then .ok () else .error (.badFormat .nonFiniteValue)))

/-- The numbers of variables and constraints of a valid problem. -/
def validate (P : ProblemInput T) (c : Settings T) : ExceptT SetupError Option (Nat × Nat) := do
  if P.Q.isNone && P.q.isNone && P.A.isNone then throw .noVariables
  if !P.boundsComplete then throw .boundsMismatch
  ExceptT.mk (some P.checkDimensions)
  ExceptT.mk (some P.checkBounds)
  checkFormats P
  ExceptT.mk (some (c.validate.mapError .badSettings))
  return (P.variableCount, P.constraintCount)

theorem checkFormat_eq (M : Option (MatrixInput T)) :
    (checkFormat M).run = some (ProblemInput.whenPresent M fun M => M.check.mapError .badFormat) := by
  cases M with
  | none => rfl
  | some M =>
      cases M with
      | sparse M => exact congrArg (Option.map _) (check_eq M)
      | dense rows cols data => rfl

/-- A check that ends without a panic, followed by another one. -/
theorem run_bind {α β ε : Type} {x : ExceptT ε Option α} {e : Except ε α} {f : α → ExceptT ε Option β}
    {g : α → Except ε β} (hx : x.run = some e) (hf : ∀ a, (f a).run = some (g a)) : (x >>= f).run = some (e >>= g) := by
  rw [ExceptT.run_bind, hx]
  cases e with
  | error e => rfl
  | ok a => exact hf a

theorem checkFormats_eq (P : ProblemInput T) : (checkFormats P).run = some P.checkFormats :=
  run_bind (checkFormat_eq P.Q) fun _ => run_bind (checkFormat_eq P.A) fun _ => rfl

theorem validate_eq (P : ProblemInput T) (c : Settings T) : (validate P c).run = some (P.validate c) := by
  unfold validate ProblemInput.validate
  cases P.Q.isNone && P.q.isNone && P.A.isNone with
  | true => rfl
  | false =>
      cases P.boundsComplete with
      | false => rfl
      | true =>
          exact run_bind rfl fun _ => run_bind rfl fun _ => run_bind (checkFormats_eq P) fun _ => run_bind rfl fun _ => rfl

/-! ## The program of a valid problem -/

/-- The upper triangle of a matrix, which must be square. -/
def upperTriangle (M : SparseMatrix T) : Option (SparseMatrix T) := do
  let U ← M.upperTriangle?
  ofArrays? M.rows M.cols U.colPtr U.rowIdx U.values

def toSparse (what : ProblemPart) : MatrixInput T → Option (SparseMatrix T × List (Event T))
  | .sparse M => some (M, [])
  | .dense rows cols data => do
    let M ← ofDense? rows cols data
    return (← ofArrays? rows cols M.colPtr M.rowIdx M.values, [.denseConverted what.name rows cols])

/-- The upper triangle of the cost. -/
def cost (Q : Option (MatrixInput T)) (n : Nat) : Option (SparseMatrix T × List (Event T)) :=
  match Q with
  | some Q => do
    let M ← toSparse .cost Q
    return (← upperTriangle M.1, M.2)
  | none => some (zeros n n, [])

def constraints (A : Option (MatrixInput T)) (n : Nat) : Option (SparseMatrix T × List (Event T)) :=
  match A with
  | some A => toSparse .constraints A
  | none => some (zeros 0 n, [])

/-- An array is asserted to have the expected length. One that is missing stands for zeros. -/
def linearCost (q : Option (Array T)) (n : Nat) : Option (Vector T n) :=
  match q with
  | some q => Vec.ofArray? n q
  | none => some (Vec.zeros n)

/-- The bounds are asserted to have the expected length, also if they are missing. -/
def bound (b : Option (Array T)) (m : Nat) (limit : T) : Option (Vector T m) := do
  return Vec.clamp (← Vec.ofArray? m (b.getD #[])) (-limit) limit

def normalize (P : ProblemInput T) (n m : Nat) (limit : T) : Option (QuadraticProgram T n m × List (Event T)) := do
  let Q ← cost P.Q n
  let A ← constraints P.A n
  return ({ Q := Q.1, q := ← linearCost P.q n, A := A.1, bmin := ← bound P.bmin m limit, bmax := ← bound P.bmax m limit, limit },
    Q.2 ++ A.2)

theorem upperTriangle_eq {M : SparseMatrix T} (h : WellFormed M) (hsquare : M.rows = M.cols) :
    upperTriangle M = some M.upperTriangle := by
  have hcolumns : ((List.range M.cols).all fun j =>
      M.rowsReadable j && M.first j + M.upperCount j ≤ M.values.size) = true := by
    rw [List.all_eq_true]
    intro j hj
    rw [List.mem_range] at hj
    have hreadable := columnReadable_eq h.toLayout hj
    simp only [columnReadable, Bool.and_eq_true] at hreadable
    have hcount := (h.upperCount_spec hj).1
    have hle := h.first_le_stop j hj
    have hstop := h.stop_le_size hj
    simp only [hreadable.1, Bool.true_and, decide_eq_true_eq]
    omega
  have hsq : M.isSquare = true := beq_iff_eq.mpr hsquare
  rw [upperTriangle, upperTriangle?, hsq, hcolumns]
  exact (wellFormed_upperTriangle h).ofArrays?_eq rfl (cols_upperTriangle M)

theorem toSparse_eq {M : MatrixInput T} {what : ProblemPart} (hlen : M.checkLength what = .ok ()) :
    toSparse what M = some (M.toSparse what) := by
  cases M with
  | sparse M => rfl
  | dense rows cols data =>
      rw [MatrixInput.checkLength] at hlen
      split at hlen
      · next hsize =>
          have hlayout := (wellFormed_ofDense hsize).toLayout
          rw [toSparse, ofDense?_eq hsize]
          exact congrArg (fun x => x >>= fun M => some (M, _)) (hlayout.ofArrays?_eq rfl (cols_ofDense rows cols data))
      · cases hlen

section Parts

variable (h : P.Valid c n m)

include h

theorem cost_eq : cost P.Q n = some (match P.Q with
    | some Q => ((Q.toSparse .cost).1.upperTriangle, (Q.toSparse .cost).2)
    | none => (zeros n n, [])) := by
  cases hQ : P.Q with
  | none => rfl
  | some Q =>
      obtain ⟨hlen, hcheck, hsize⟩ := h.cost Q hQ
      obtain ⟨hformed, heq⟩ := MatrixInput.wellFormed_toSparse hlen hcheck
      have hsquare : (Q.toSparse .cost).1.size = (n, n) := heq.trans hsize
      rw [cost, toSparse_eq hlen]
      simp only [Option.bind_eq_bind, Option.bind_some,
        upperTriangle_eq hformed ((congrArg Prod.fst hsquare).trans (congrArg Prod.snd hsquare).symm)]
      rfl

theorem constraints_eq : constraints P.A n = some (match P.A with
    | some A => A.toSparse .constraints
    | none => (zeros 0 n, [])) := by
  cases hA : P.A with
  | none => rfl
  | some A => exact toSparse_eq (h.constraints A hA).1

theorem linearCost_eq : linearCost P.q n = some (Vec.read n (P.q.getD #[])) := by
  cases hq : P.q with
  | none =>
      refine congrArg some (Vec.ext_get fun i => ?_)
      simp [Vec.read, Vec.zeros]
  | some q => exact ofArray?_eq_read (h.linear q hq)

theorem bound_eq {b : Option (Array T)} (hsize : ∀ a ∈ b, a.size = m) (hpresent : P.A.isSome = b.isSome) :
    bound b m limit = some (Vec.clamp (Vec.read m (b.getD #[])) (-limit) limit) := by
  have hlength : (b.getD #[]).size = m := by
    cases b with
    | none => exact (h.noConstraints (Option.isNone_iff_eq_none.mp (by simpa using hpresent))).symm
    | some a => exact hsize a rfl
  rw [bound, ofArray?_eq_read hlength]
  rfl

/-- The assertions that follow validation hold. -/
theorem normalize_eq : normalize P n m limit = some (P.normalize n m limit) := by
  rw [normalize, cost_eq h, constraints_eq h, linearCost_eq h, bound_eq h h.lower h.complete.1,
    bound_eq h h.upper h.complete.2]
  unfold ProblemInput.normalize
  cases P.Q with
  | none =>
      cases P.A with
      | none => rfl
      | some A => rfl
  | some Q =>
      cases P.A with
      | none => rfl
      | some A => rfl

/-- The matrices of the program are those of a quadratic program. -/
theorem squareData_normalize (limit : T) :
    SquareData (P.normalize n m limit).1.Q (P.normalize n m limit).1.A n m where
  toNewtonData := h.formed limit
  cost_rows := h.cost_rows limit

end Parts

end AugLag.Checked.Setup
