import Mathlib.Data.List.Basic

/-!
Lists joined with a separator between any two: what is in them, and what becomes of them when
elements are dropped or replaced by lists.
-/

set_option autoImplicit false
set_option relaxedAutoImplicit false

namespace ChomskyNormal.Joining

variable {α β : Type} {a : α} {sep : List α} {ls : List (List α)}

theorem mem_intercalate {l : List α} (hl : l ∈ ls) (ha : a ∈ l) : a ∈ sep.intercalate ls := by
  induction ls with
  | nil => cases hl
  | cons first ls ih =>
    by_cases hls : ls = []
    · subst hls
      rw [List.intercalate_singleton]
      exact List.mem_singleton.mp hl ▸ ha
    · rw [List.intercalate_cons_of_ne_nil hls]
      rcases List.mem_cons.mp hl with rfl | hl
      · exact List.mem_append_left _ (List.mem_append_left _ ha)
      · exact List.mem_append_right _ (ih hl)

theorem mem_of_mem_intercalate (ha : a ∈ sep.intercalate ls) : a ∈ sep ∨ ∃ l ∈ ls, a ∈ l := by
  induction ls with
  | nil => cases ha
  | cons first ls ih =>
    by_cases hls : ls = []
    · subst hls
      rw [List.intercalate_singleton] at ha
      exact .inr ⟨first, List.mem_cons_self, ha⟩
    · rw [List.intercalate_cons_of_ne_nil hls] at ha
      rcases List.mem_append.mp ha with ha | ha
      · rcases List.mem_append.mp ha with ha | ha
        · exact .inr ⟨first, List.mem_cons_self, ha⟩
        · exact .inl ha
      · rcases ih ha with ha | ⟨l, hl, ha⟩
        · exact .inl ha
        · exact .inr ⟨l, List.mem_cons_of_mem first hl, ha⟩

theorem notMem_of_mem_splitOn [DecidableEq α] {l piece : List α} (h : piece ∈ l.splitOn a) :
    a ∉ piece := by
  induction l generalizing piece with
  | nil =>
    rw [List.splitOn_nil, List.mem_singleton] at h
    simp [h]
  | cons b l ih =>
    rw [List.splitOn_cons_eq_if_modifyHead] at h
    split at h
    · rcases List.mem_cons.mp h with rfl | h
      · simp
      · exact ih h
    · rename_i hb
      cases hsplit : l.splitOn a with
      | nil => exact absurd hsplit (List.splitOn_ne_nil a l)
      | cons first rest =>
        rw [hsplit] at h ih
        rcases List.mem_cons.mp h with rfl | h
        · have hfirst : a ∉ first := ih List.mem_cons_self
          have hne : a ≠ b := fun hab => hb (by simp [hab])
          simp [hfirst, hne]
        · exact ih (List.mem_cons_of_mem first h)

theorem filter_intercalate {keep : α → Bool} (hsep : sep.filter keep = []) :
    (sep.intercalate ls).filter keep = ls.flatMap (List.filter keep) := by
  induction ls with
  | nil => rfl
  | cons l ls ih =>
    by_cases hls : ls = []
    · subst hls
      simp
    · rw [List.intercalate_cons_of_ne_nil hls, List.filter_append, List.filter_append, hsep,
        List.append_nil, ih, List.flatMap_cons]

theorem flatMap_intercalate (f : α → List β) :
    (sep.intercalate ls).flatMap f = (sep.flatMap f).intercalate (ls.map (List.flatMap f)) := by
  induction ls with
  | nil => rfl
  | cons l ls ih =>
    by_cases hls : ls = []
    · subst hls
      simp
    · have hmap : ls.map (List.flatMap f) ≠ [] := by simpa using hls
      rw [List.intercalate_cons_of_ne_nil hls, List.flatMap_append, List.flatMap_append, ih,
        List.map_cons, List.intercalate_cons_of_ne_nil hmap]

theorem intercalate_concat (sep : List α) (ls : List (List α)) (l : List α) :
    sep.intercalate (ls ++ [l]) = ls.flatMap (fun m => m ++ sep) ++ l := by
  induction ls with
  | nil => simp
  | cons m ls ih =>
    have hne : ls ++ [l] ≠ [] := by simp
    rw [List.cons_append, List.intercalate_cons_of_ne_nil hne, ih, List.flatMap_cons,
      List.append_assoc (m ++ sep)]

end ChomskyNormal.Joining
