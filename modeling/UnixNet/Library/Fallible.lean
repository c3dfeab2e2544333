import Mathlib.Logic.Basic
set_option autoImplicit false

/-! Computations that may fail, taken apart by how they have ended. -/

namespace Fallible
variable {ε α β : Type} {x : Except ε α}

theorem bind_ok {g : α → Except ε β} {b : β} (h : x.bind g = .ok b) :
    ∃ a, x = .ok a ∧ g a = .ok b := by
  cases x with
  | error e => cases h
  | ok a => exact ⟨a,rfl,h⟩

theorem bind_error {g : α → Except ε β} {e : ε} (h : x.bind g = .error e) :
    x = .error e ∨ ∃ a, g a = .error e := by
  cases x with
  | error e =>
    cases h
    exact .inl rfl
  | ok a => exact .inr ⟨a,h⟩

theorem map_ok {f : α → β} {b : β} (h : x.map f = .ok b) : ∃ a, x = .ok a ∧ f a = b := by
  cases x with
  | error e => cases h
  | ok a => exact ⟨a,rfl,Except.ok.inj h⟩

end Fallible
