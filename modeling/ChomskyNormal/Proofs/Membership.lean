import ChomskyNormal.Membership
import ChomskyNormal.Proofs.Table.Filling

/-!
Membership. A word can be examined exactly when it is made of declared terminals and there is a
start symbol; each cell of its table then answers by rewriting for its stretch, and the verdict
on the word answers for the start symbol.
-/

set_option autoImplicit false
set_option relaxedAutoImplicit false

namespace ChomskyNormal.Grammar

variable {g : Grammar} {w : Text} {t : Table}

theorem unfit?_eq_none :
    g.unfit? w = none ↔
      (∀ c ∈ w, c ∈ g.terminals) ∧ g.nonterminals ≠ [] ∧ ∃ x, g.start = some x := by
  unfold unfit?
  cases hf : w.find? (fun c => c ∉ g.terminals) with
  | some c =>
    have hc : c ∉ g.terminals := by simpa using List.find?_some hf
    simp only [reduceCtorEq, false_iff]
    exact fun h => hc (h.1 c (List.mem_of_find?_eq_some hf))
  | none =>
    have hall : ∀ c ∈ w, c ∈ g.terminals := by simpa using hf
    by_cases hn : g.nonterminals = []
    · simp [hn]
    · cases hs : g.start with
      | none => simp [hn]
      | some x => simpa [hn] using hall

theorem table_eq_ok : g.table w = .ok t ↔ g.unfit? w = none ∧ t = .ofWord g w := by
  unfold table
  cases g.unfit? w with
  | some reason => simp
  | none => simp [eq_comm]

private theorem exists_table_iff (hg : g.WellFormed) :
    (∃ t, g.table w = .ok t) ↔ (∀ c ∈ w, c ∈ g.terminals) ∧ ∃ x, g.start = some x := by
  simp only [table_eq_ok, unfit?_eq_none]
  constructor
  · intro h
    obtain ⟨t, ⟨hw, -, hs⟩, -⟩ := h
    exact ⟨hw, hs⟩
  · intro h
    obtain ⟨hw, x, hx⟩ := h
    exact ⟨_, ⟨hw, List.ne_nil_of_mem (hg.start_mem x hx), x, hx⟩, rfl⟩

theorem derives_eq_ok {b : Bool} :
    g.derives w = .ok b ↔ ∃ t, g.table w = .ok t ∧ g.accepts t = b := by
  rw [derives, map_eq_ok_iff]

private theorem accepts_ofWord (hg : g.WellFormed) :
    g.accepts (.ofWord g w) = true ↔ ∃ x, g.start = some x ∧ g.Generates x w := by
  simp only [accepts, Option.any_eq_true, Table.accepts_ofWord hg]

theorem derives_eq_true_iff (hg : g.WellFormed) :
    g.derives w = .ok true ↔ ∃ x, g.start = some x ∧ g.Generates x w := by
  rw [derives_eq_ok]
  constructor
  · intro h
    obtain ⟨t, ht, hacc⟩ := h
    obtain ⟨-, rfl⟩ := table_eq_ok.mp ht
    exact (accepts_ofWord hg).mp hacc
  · intro h
    obtain ⟨x, hx, hw⟩ := h
    obtain ⟨t, ht⟩ := (exists_table_iff hg).mpr ⟨hw.mem_terminals hg, x, hx⟩
    obtain ⟨-, rfl⟩ := table_eq_ok.mp ht
    exact ⟨_, ht, (accepts_ofWord hg).mpr ⟨x, hx, hw⟩⟩

private theorem derives_nil (hg : g.WellFormed) {x : Char} (hx : g.start = some x) :
    g.derives [] = .ok false := by
  obtain ⟨t, ht⟩ := (exists_table_iff (w := []) hg).mpr ⟨by simp, x, hx⟩
  refine derives_eq_ok.mpr ⟨t, ht, ?_⟩
  obtain ⟨-, rfl⟩ := table_eq_ok.mp ht
  rw [Bool.eq_false_iff]
  intro hacc
  obtain ⟨y, -, hy⟩ := (accepts_ofWord hg).mp hacc
  exact hy.ne_nil rfl

/-- The table of a word exists exactly when the word is made of declared terminals and a start
symbol is set. A cell then contains a nonterminal exactly when rewriting leads from it to the
stretch of the cell, and the word is derived exactly when rewriting leads to it from the start
symbol, as it never does to the empty word. -/
theorem table_decides_rewriting (hg : g.Reachable) (w : Text) :
    ((∃ t, g.table w = .ok t) ↔ (∀ c ∈ w, c ∈ g.terminals) ∧ ∃ x, g.start = some x) ∧
    (∀ t, g.table w = .ok t → ∀ i j x, i ≤ j → j < w.length →
      (t.contains i j x = true ↔ g.Generates x ((w.drop i).take (j - i + 1)))) ∧
    (g.derives w = .ok true ↔ ∃ x, g.start = some x ∧ g.Generates x w) ∧
    ((∃ x, g.start = some x) → g.derives [] = .ok false) := by
  have hwf := hg.wellFormed
  refine ⟨exists_table_iff hwf, ?_, derives_eq_true_iff hwf, ?_⟩
  · intro t ht i j x hij hj
    obtain ⟨-, rfl⟩ := table_eq_ok.mp ht
    exact Table.contains_ofWord hwf x hij hj
  · intro h
    obtain ⟨x, hx⟩ := h
    exact derives_nil hwf hx

/-- The verdicts of the balanced grammar are facts about rewriting. -/
theorem balanced_rewriting :
    balanced.Reachable ∧ balanced.Generates 'S' ['a', 'a', 'b', 'b'] ∧
      ¬ balanced.Generates 'S' ['a', 'b', 'b'] ∧ balanced.Generates 'T' ['a', 'b', 'b'] := by
  have hr := balanced_reachable
  have hstart : balanced.start = some 'S' := by decide
  obtain ⟨-, -, hyes, -⟩ := table_decides_rewriting hr ['a', 'a', 'b', 'b']
  obtain ⟨-, hcell, hno, -⟩ := table_decides_rewriting hr ['a', 'b', 'b']
  obtain ⟨x, hx, hgen⟩ := hyes.mp (by decide +kernel)
  obtain rfl := Option.some.inj (hstart.symm.trans hx)
  refine ⟨hr, hgen, ?_, ?_⟩
  · intro h
    have hfalse : balanced.derives ['a', 'b', 'b'] = .ok false := by decide +kernel
    cases hfalse.symm.trans (hno.mpr ⟨'S', hstart, h⟩)
  · have hok : balanced.table ['a', 'b', 'b'] = .ok (.ofWord balanced ['a', 'b', 'b']) := by
      decide +kernel
    exact (hcell _ hok 0 2 'T' (by decide) (by decide)).mp (by decide +kernel)

end ChomskyNormal.Grammar
