/-
What is known behind a test: a computation that went through took the
branch that can.
-/
import Mathlib.Init

namespace Lib

variable {α ε : Type*} {c : Prop} [Decidable c]

theorem of_guard {a b : α} (h : (if c then some a else none) = some b) : c ∧ a = b := by
  obtain ⟨hc, h⟩ := Option.ite_none_right_eq_some.1 h
  exact ⟨hc, Option.some.inj h⟩

variable {x : Except ε α} {e : ε} {a : α}

theorem of_then_error (h : (if c then .error e else x) = .ok a) : ¬ c ∧ x = .ok a := by
  split at h
  · cases h
  · next hc => exact ⟨hc, h⟩

theorem of_else_error (h : (if c then x else .error e) = .ok a) : c ∧ x = .ok a := by
  split at h
  · next hc => exact ⟨hc, h⟩
  · cases h

end Lib
