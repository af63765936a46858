import Mathlib.Data.List.Nodup

/-!
The first occurrences in a list, in their order. Each of them is kept by `List.eraseDups`, which
drops all later ones.
-/

set_option autoImplicit false
set_option relaxedAutoImplicit false

namespace ChomskyNormal.FirstOccurrences

variable {α β : Type} [BEq α] [LawfulBEq α] [BEq β] [LawfulBEq β]

omit [LawfulBEq α] in
private theorem induction_on {motive : List α → Prop} (l : List α) (nil : motive [])
    (cons : ∀ a l, motive (l.filter fun b => !b == a) → motive (a :: l)) : motive l := by
  induction hn : l.length using Nat.strongRecOn generalizing l with
  | ind n ih =>
    cases l with
    | nil => exact nil
    | cons a l =>
      have hlen : (l.filter fun b => !b == a).length ≤ l.length := List.length_filter_le _ l
      rw [List.length_cons] at hn
      exact cons a l (ih _ (by omega) _ rfl)

theorem nodup_eraseDups (l : List α) : l.eraseDups.Nodup := by
  induction l using induction_on with
  | nil => exact List.nodup_nil
  | cons a l ih =>
    rw [List.eraseDups_cons]
    refine List.nodup_cons.mpr ⟨?_, ih⟩
    simp

theorem eraseDups_of_nodup {l : List α} (h : l.Nodup) : l.eraseDups = l := by
  induction l with
  | nil => rfl
  | cons a l ih =>
    obtain ⟨ha, hl⟩ := List.nodup_cons.mp h
    have hrest : (l.filter fun b => !b == a) = l := by
      apply List.filter_eq_self.mpr
      intro b hb
      simpa using fun hba : b = a => ha (hba ▸ hb)
    rw [List.eraseDups_cons, hrest, ih hl]

theorem eraseDups_filter (p : α → Bool) (l : List α) :
    (l.filter p).eraseDups = l.eraseDups.filter p := by
  induction l using induction_on with
  | nil => rfl
  | cons a l ih =>
    rw [List.eraseDups_cons]
    by_cases ha : p a = true
    · rw [List.filter_cons_of_pos ha, List.filter_cons_of_pos ha, List.eraseDups_cons, ← ih,
        List.filter_comm]
    · -- the first element goes, and dropping its copies from the rest changes nothing
      have hcopies : ((l.filter fun b => !b == a).filter p) = l.filter p := by
        rw [List.filter_filter]
        apply List.filter_congr
        intro b _
        by_cases hba : b = a
        · simp [hba, ha]
        · simp [hba]
      rw [List.filter_cons_of_neg ha, List.filter_cons_of_neg ha, ← ih, hcopies]

theorem eraseDups_map {f : α → β} (hf : Function.Injective f) (l : List α) :
    (l.map f).eraseDups = l.eraseDups.map f := by
  induction l using induction_on with
  | nil => rfl
  | cons a l ih =>
    have hrest : ((l.map f).filter fun b => !b == f a) = (l.filter fun b => !b == a).map f := by
      rw [List.filter_map]
      congr 1
      apply List.filter_congr
      intro b _
      simp [hf.eq_iff]
    rw [List.map_cons, List.eraseDups_cons, List.eraseDups_cons, List.map_cons, hrest, ih]

theorem eraseDups_append_cons_of_mem {a : α} {l : List α} (h : a ∈ l) (rest : List α) :
    (l ++ a :: rest).eraseDups = (l ++ rest).eraseDups := by
  have hdrop : (a :: rest).removeAll l = rest.removeAll l := by
    simp [List.removeAll, h]
  rw [List.eraseDups_append, List.eraseDups_append, hdrop]

theorem eraseDups_concat_of_notMem {a : α} {l : List α} (h : a ∉ l) :
    (l ++ [a]).eraseDups = l.eraseDups ++ [a] := by
  have hnew : [a].removeAll l = [a] := by
    simp [List.removeAll, h]
  rw [List.eraseDups_append, hnew, eraseDups_of_nodup (List.nodup_singleton a)]

omit [LawfulBEq α] in
theorem head?_eraseDups (l : List α) : l.eraseDups.head? = l.head? := by
  cases l with
  | nil => rfl
  | cons a l => rw [List.eraseDups_cons, List.head?_cons, List.head?_cons]

private theorem eraseDups_append_congr {l l' m m' : List α} (hl : l.eraseDups = l'.eraseDups)
    (hm : m.eraseDups = m'.eraseDups) : (l ++ m).eraseDups = (l' ++ m').eraseDups := by
  have hmem (a : α) : l.elem a = l'.elem a := by
    rw [Bool.eq_iff_iff, List.elem_iff, List.elem_iff, ← List.mem_eraseDups, hl,
      List.mem_eraseDups]
  rw [List.eraseDups_append, List.eraseDups_append, List.removeAll, List.removeAll,
    eraseDups_filter, eraseDups_filter, hl, hm]
  congr 2
  funext a
  rw [hmem]

omit [BEq β] [LawfulBEq β] in
theorem eraseDups_flatMap_congr {f f' : β → List α} {l : List β}
    (h : ∀ b ∈ l, (f b).eraseDups = (f' b).eraseDups) :
    (l.flatMap f).eraseDups = (l.flatMap f').eraseDups := by
  induction l with
  | nil => rfl
  | cons b l ih =>
    rw [List.flatMap_cons, List.flatMap_cons]
    exact eraseDups_append_congr (h b List.mem_cons_self)
      (ih fun c hc => h c (List.mem_cons_of_mem b hc))

theorem eraseDups_filterMap_eraseDups (f : α → Option β) (l : List α) :
    (l.eraseDups.filterMap f).eraseDups = (l.filterMap f).eraseDups := by
  induction l using induction_on with
  | nil => rfl
  | cons a l ih =>
    rw [List.eraseDups_cons]
    cases ha : f a with
    | none =>
      -- copies of the first element have no value either
      have hcopies : (l.filter fun b => !b == a).filterMap f = l.filterMap f := by
        rw [List.filterMap_filter]
        apply List.filterMap_congr
        intro c _
        by_cases hca : c = a
        · simp [hca, ha]
        · simp [hca]
      rw [List.filterMap_cons_none ha, List.filterMap_cons_none ha, ih, hcopies]
    | some b =>
      -- copies of the first element have its value, all further copies of which are dropped
      have hcopies : ((l.filter fun c => !c == a).filterMap f).filter (fun d => !d == b) =
          (l.filterMap f).filter fun d => !d == b := by
        rw [List.filterMap_filter, List.filter_filterMap, List.filter_filterMap]
        apply List.filterMap_congr
        intro c _
        by_cases hca : c = a
        · simp [hca, ha, Option.filter]
        · simp [hca]
      rw [List.filterMap_cons_some ha, List.filterMap_cons_some ha, List.eraseDups_cons,
        List.eraseDups_cons, eraseDups_filter, ih, ← eraseDups_filter, hcopies]

end ChomskyNormal.FirstOccurrences
