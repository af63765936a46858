/-!
Computations that may fail: what it means for them to succeed, and to fail.
-/

set_option autoImplicit false
set_option relaxedAutoImplicit false

namespace ChomskyNormal

variable {ε α β : Type} {r : Except ε α}

theorem map_eq_ok_iff {f : α → β} {b : β} : r.map f = .ok b ↔ ∃ a, r = .ok a ∧ f a = b := by
  cases r <;> simp [Except.map]

theorem map_eq_error_iff {f : α → β} {e : ε} : r.map f = .error e ↔ r = .error e := by
  cases r <;> simp [Except.map]

theorem bind_eq_ok_iff {f : α → Except ε β} {b : β} :
    r.bind f = .ok b ↔ ∃ a, r = .ok a ∧ f a = .ok b := by
  cases r <;> simp [Except.bind]

theorem bind_eq_error_iff {f : α → Except ε β} {e : ε} :
    r.bind f = .error e ↔ r = .error e ∨ ∃ a, r = .ok a ∧ f a = .error e := by
  cases r <;> simp [Except.bind]

theorem ite_eq_ok_iff {c : Prop} [Decidable c] {a b : α} {e : ε} :
    (if c then Except.ok a else Except.error e) = .ok b ↔ c ∧ a = b := by
  by_cases hc : c
  · simp [hc]
  · simp [hc]

end ChomskyNormal
