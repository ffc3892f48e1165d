import AugLag.Proofs.Exact.Scalar
import AugLag.Proofs.Machine.Special

/-!
# Zeros and ones

What an arithmetic must say about zeros for a matrix of zeros and signed ones to be factored exactly: zeros of either sign
stay zeros, and nothing is lost when one is subtracted from a one. Machine numbers of both widths and exact ones say so
(`PlainZeros`).
-/

namespace AugLag

section Laws

variable {T : Type} [Scalar T]

/-- A zero of either sign. -/
def Vanishes (a : T) : Prop := (a == 0) = true

/-- One or minus one. -/
def SignedOne (u : T) : Prop := u = 1 ∨ u = -1

instance (a : T) : Decidable (Vanishes a) := inferInstanceAs (Decidable (_ = true))

end Laws

/-- Zeros stay zeros, and a signed one stays what it is when a zero is subtracted. -/
class PlainZeros (T : Type) [Scalar T] : Prop where
  zero : Vanishes (0 : T)
  add {a b : T} : Vanishes a → Vanishes b → Vanishes (a + b)
  sub {a b : T} : Vanishes a → Vanishes b → Vanishes (a - b)
  mul {a b : T} : Vanishes a → Vanishes b → Vanishes (a * b)
  mul_recip {a u : T} : Vanishes a → SignedOne u → Vanishes (a * Scalar.recip u)
  sub_of_signedOne {u a : T} : SignedOne u → Vanishes a → u - a = u
  beq_zero {u : T} : SignedOne u → (u == 0) = false
  isFinite {u : T} : SignedOne u → Scalar.isFinite u = true

/-! ## Machine numbers -/

open Float.Model in
theorem exists_zero_of_beq {u : UnpackedFloat} (h : u.beq (.zero .positive) = true) : ∃ s, u = .zero s := by
  cases u with
  | zero s => exact ⟨s, rfl⟩
  | notANumber => exact absurd h (by decide)
  | infinity s => exact absurd h (by cases s <;> decide)
  | finite s m e hm => exact absurd h (by cases s <;> exact Bool.false_ne_true)

theorem Vanishes.eq_float {a : Float} (h : Vanishes a) : a = 0 ∨ a = Float.ofBits 0x8000000000000000 := by
  have hinj (b : Float) := (Float.Model.UnpackedFloat.unpack_inj_of_valid a.toModel.valid b.toModel.valid).mp
  obtain ⟨⟨bits, hvalid⟩⟩ := a
  obtain ⟨s, hs⟩ := exists_zero_of_beq h
  cases s with
  | positive =>
      obtain rfl := UInt64.toBitVec_inj.mp (hinj 0 hs)
      exact .inl rfl
  | negative =>
      obtain rfl := UInt64.toBitVec_inj.mp (hinj (Float.ofBits 0x8000000000000000) hs)
      exact .inr rfl

theorem Vanishes.eq_float32 {a : Float32} (h : Vanishes a) : a = 0 ∨ a = Float32.ofBits 0x80000000 := by
  have hinj (b : Float32) := (Float.Model.UnpackedFloat.unpack_inj_of_valid a.toModel.valid b.toModel.valid).mp
  obtain ⟨⟨bits, hvalid⟩⟩ := a
  obtain ⟨s, hs⟩ := exists_zero_of_beq h
  cases s with
  | positive =>
      obtain rfl := UInt32.toBitVec_inj.mp (hinj 0 hs)
      exact .inl rfl
  | negative =>
      obtain rfl := UInt32.toBitVec_inj.mp (hinj (Float32.ofBits 0x80000000) hs)
      exact .inr rfl

theorem vanishes_float_iff {a : Float} : Vanishes a ↔ a = 0 ∨ a = -0 := by
  refine ⟨fun h => h.eq_float.imp_right fun heq => heq.trans (by decide +kernel), ?_⟩
  rintro (rfl | rfl) <;> decide +kernel

theorem vanishes_float32_iff {a : Float32} : Vanishes a ↔ a = 0 ∨ a = -0 := by
  refine ⟨fun h => h.eq_float32.imp_right fun heq => heq.trans (by decide +kernel), ?_⟩
  rintro (rfl | rfl) <;> decide +kernel

/-- Where the zeros can be listed the laws are a matter of evaluation. -/
theorem plainZeros_of_zeros {T : Type} [Scalar T] {zeros : List T} (h : ∀ {a : T}, Vanishes a → a ∈ zeros)
    (hzero : Vanishes (0 : T))
    (hpairs : ∀ a ∈ zeros, ∀ b ∈ zeros, Vanishes (a + b) ∧ Vanishes (a - b) ∧ Vanishes (a * b))
    (hones : ∀ u ∈ [(1 : T), -1], (u == 0) = false ∧ Scalar.isFinite u = true ∧
      ∀ a ∈ zeros, Vanishes (a * Scalar.recip u) ∧ u - a = u) : PlainZeros T := by
  have hmem {u : T} (hu : SignedOne u) : u ∈ [(1 : T), -1] := by
    rcases hu with rfl | rfl
    · exact List.mem_cons_self
    · exact List.mem_cons_of_mem _ List.mem_cons_self
  exact
    { zero := hzero
      add := fun ha hb => (hpairs _ (h ha) _ (h hb)).1
      sub := fun ha hb => (hpairs _ (h ha) _ (h hb)).2.1
      mul := fun ha hb => (hpairs _ (h ha) _ (h hb)).2.2
      mul_recip := fun ha hu => ((hones _ (hmem hu)).2.2 _ (h ha)).1
      sub_of_signedOne := fun hu ha => ((hones _ (hmem hu)).2.2 _ (h ha)).2
      beq_zero := fun hu => (hones _ (hmem hu)).1
      isFinite := fun hu => (hones _ (hmem hu)).2.1 }

instance : PlainZeros Float :=
  plainZeros_of_zeros (fun ha => List.mem_pair.mpr ha.eq_float) (by decide +kernel) (by decide +kernel)
    (by decide +kernel)

instance : PlainZeros Float32 :=
  plainZeros_of_zeros (fun ha => List.mem_pair.mpr ha.eq_float32) (by decide +kernel) (by decide +kernel)
    (by decide +kernel)

/-! ## Exact numbers -/

instance {K : Type} [ExactScalar K] : PlainZeros K where
  zero := beq_self_eq_true 0
  add ha hb := by
    rw [Vanishes, eq_of_beq ha, eq_of_beq hb]
    simp
  sub ha hb := by
    rw [Vanishes, eq_of_beq ha, eq_of_beq hb]
    simp
  mul ha hb := by
    rw [Vanishes, eq_of_beq ha, eq_of_beq hb]
    simp
  mul_recip ha hu := by
    rw [Vanishes, eq_of_beq ha]
    simp
  sub_of_signedOne hu ha := by rw [eq_of_beq ha, sub_zero]
  beq_zero hu := by rcases hu with rfl | rfl <;> simp
  isFinite hu := Scalar.isFinite_eq_true _

end AugLag
