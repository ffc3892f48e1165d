import Mathlib.Tactic

/-!
# Chains of checks

A chain of steps that may fail succeeds exactly if each of its steps does.
-/

namespace AugLag

variable {ε ε' α β : Type}

theorem bind_eq_ok {x : Except ε α} {f : α → Except ε β} {b : β} :
    (x >>= f) = .ok b ↔ ∃ a, x = .ok a ∧ f a = .ok b := by
  cases x with
  | error e => simp [bind, Except.bind]
  | ok a => simp [bind, Except.bind]

/-- Two checks in a row succeed if both do. -/
theorem seq_eq_ok {x : Except ε Unit} {y : Except ε β} {b : β} :
    (x >>= fun _ => y) = .ok b ↔ x = .ok () ∧ y = .ok b := by
  cases x with
  | error e => simp [bind, Except.bind]
  | ok u => simp [bind, Except.bind]

theorem map_eq_ok {x : Except ε α} {f : α → β} {b : β} : x.map f = .ok b ↔ ∃ a, x = .ok a ∧ f a = b := by
  cases x with
  | error e => simp [Except.map]
  | ok a => simp [Except.map]

theorem mapError_eq_ok {x : Except ε α} {f : ε → ε'} {a : α} : x.mapError f = .ok a ↔ x = .ok a := by
  cases x with
  | error e => simp [Except.mapError]
  | ok b => simp [Except.mapError]

/-- A chain does not fail in a way in which none of its steps fails. -/
theorem bind_ne_error {x : Except ε α} {f : α → Except ε β} {e : ε} (hx : x ≠ .error e) (hf : ∀ a, f a ≠ .error e) :
    (x >>= f) ≠ .error e := by
  cases x with
  | error e' => exact fun heq => hx (congrArg Except.error (Except.error.inj heq))
  | ok a => exact hf a

theorem mapError_ne_error {x : Except ε α} {f : ε → ε'} {e' : ε'} (h : ∀ e, f e ≠ e') : x.mapError f ≠ .error e' := by
  cases x with
  | error e => exact fun heq => h e (Except.error.inj heq)
  | ok a => exact fun heq => by cases heq

theorem eq_ok_of_toBool {x : Except ε Unit} (h : x.toBool = true) : x = .ok () := by
  cases x with
  | error e => cases h
  | ok u => rfl

theorem exists_error_of_toBool {x : Except ε α} (h : x.toBool = false) : ∃ e, x = .error e := by
  cases x with
  | error e => exact ⟨e, rfl⟩
  | ok a => cases h

end AugLag
