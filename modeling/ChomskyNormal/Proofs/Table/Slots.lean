import ChomskyNormal.Table
import Mathlib.Order.Basic
import Mathlib.Tactic.Ring

/-!
Slots of the triangle: each length of stretches takes up the slots right behind those of the shorter
lengths, so that cells appended in order land where they are looked up.
-/

set_option autoImplicit false
set_option relaxedAutoImplicit false

namespace ChomskyNormal.Table

variable {n i span : Nat}

theorem slot_one (hn : 1 ≤ n) (i : Nat) : slot n i 1 = i := by
  obtain ⟨m, rfl⟩ : ∃ m, n = m + 1 := ⟨n - 1, by omega⟩
  simp [slot]

theorem slot_add_one (n i span : Nat) : slot n (i + 1) span = slot n i span + 1 := rfl

theorem slot_row_end (hs : 1 ≤ span) (h : span < n) :
    slot n (n + 1 - span) span = slot n 0 (span + 1) := by
  obtain ⟨k, rfl⟩ : ∃ k, n = span + 1 + k := ⟨n - (span + 1), by omega⟩
  have hk : span + 1 + k - span = k + 1 := by omega
  have hk' : span + 1 + k - (span + 1) = k := by omega
  have hrow : span + 1 + k + 1 - span = k + 2 := by omega
  have hle : (k + 2) * (k + 3) ≤ (span + 1 + k) * (span + 1 + k + 1) :=
    Nat.mul_le_mul (by omega) (by omega)
  have hstep : (k + 2) * (k + 3) = (k + 1) * (k + 2) + 2 * (k + 2) := by ring
  have hsub : (span + 1 + k) * (span + 1 + k + 1) - (k + 1) * (k + 2) =
      (span + 1 + k) * (span + 1 + k + 1) - (k + 2) * (k + 3) + 2 * (k + 2) := by omega
  simp only [slot, hk, hk', hrow]
  rw [hsub, Nat.add_mul_div_left _ _ (by omega)]
  rfl

private theorem slot_zero_le (hs : 1 ≤ span) {span' : Nat} (h : span ≤ span') (hn : span' ≤ n) :
    slot n 0 span ≤ slot n 0 span' := by
  induction span', h using Nat.le_induction with
  | base => exact le_rfl
  | succ span' h ih =>
    have hrow := slot_row_end (by omega : 1 ≤ span') (by omega : span' < n)
    calc
      slot n 0 span ≤ slot n 0 span' := ih (by omega)
      _ ≤ slot n (n + 1 - span') span' := Nat.le_add_right _ _
      _ = slot n 0 (span' + 1) := hrow

theorem slot_lt_of_lt (hs : 1 ≤ span) (hi : i + span ≤ n) {span' : Nat} (h : span < span')
    (hn : span' ≤ n) (j : Nat) : slot n i span < slot n j span' :=
  calc
    slot n i span < slot n (n + 1 - span) span := Nat.add_lt_add_left (by omega) _
    _ = slot n 0 (span + 1) := slot_row_end hs (by omega)
    _ ≤ slot n 0 span' := slot_zero_le (by omega) h hn
    _ ≤ slot n j span' := Nat.le_add_right _ _

theorem slot_lt_of_lt_left {j : Nat} (h : i < j) (span : Nat) : slot n i span < slot n j span :=
  Nat.add_lt_add_left h _

end ChomskyNormal.Table
