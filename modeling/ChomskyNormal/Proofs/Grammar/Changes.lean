import ChomskyNormal.Grammar.Call
import ChomskyNormal.Proofs.Outcomes
import Mathlib.Data.List.Basic

/-!
What each change does to the views of a grammar: its nonterminals, the productions of each of them,
its terminals and its start symbol. Each call is accepted under one condition and has one outcome.
-/

set_option autoImplicit false
set_option relaxedAutoImplicit false

namespace ChomskyNormal.Grammar

variable {g g' : Grammar} {x y a : Char} {p : Production} {rhs : Text}

@[simp] theorem nonterminals_empty : empty.nonterminals = [] := rfl

@[simp] theorem productions_empty (x : Char) : empty.productions x = [] := rfl

theorem lookup_cons_of_ne {β : Type} {b : β} {l : List (Char × β)} (h : y ≠ x) :
    ((x, b) :: l).lookup y = l.lookup y := by
  have hb : (y == x) = false := beq_eq_false_iff_ne.mpr h
  rw [List.lookup_cons, hb]

theorem mem_nonterminals_iff : x ∈ g.nonterminals ↔ ∃ ps, g.rules.lookup x = some ps := by
  rw [← Option.isSome_iff_exists, List.lookup_isSome_iff, nonterminals, List.mem_map]
  simp only [beq_iff_eq, eq_comm (a := x)]

theorem productions_eq_nil (hx : x ∉ g.nonterminals) : g.productions x = [] := by
  have hnone : g.rules.lookup x = none := by
    cases h : g.rules.lookup x with
    | none => rfl
    | some ps => exact absurd (mem_nonterminals_iff.mpr ⟨ps, h⟩) hx
  simp [productions, hnone]

theorem mem_nonterminals_of_mem_productions (hp : p ∈ g.productions x) : x ∈ g.nonterminals := by
  by_contra hx
  simp [productions_eq_nil hx] at hp

private theorem rules_eq_map {rules : List (Char × List Production)}
    (h : (rules.map Prod.fst).Nodup) :
    rules = (rules.map Prod.fst).map fun x => (x, (rules.lookup x).getD []) := by
  induction rules with
  | nil => rfl
  | cons entry rules ih =>
    obtain ⟨z, ps⟩ := entry
    obtain ⟨hz, hrules⟩ := List.nodup_cons.mp h
    have hrest : (rules.map Prod.fst).map (fun x => (x, (((z, ps) :: rules).lookup x).getD [])) =
        (rules.map Prod.fst).map fun x => (x, (rules.lookup x).getD []) := by
      apply List.map_congr_left
      intro x hx
      have hne : x ≠ z := fun hxz => hz (hxz ▸ hx)
      rw [lookup_cons_of_ne hne]
    rw [List.map_cons, List.map_cons, hrest, ← ih hrules, List.lookup_cons_self]
    rfl

theorem rules_eq_of_views (hnodup : g.nonterminals.Nodup) (hn : g.nonterminals = g'.nonterminals)
    (hp : ∀ x, g.productions x = g'.productions x) : g.rules = g'.rules := by
  rw [rules_eq_map hnodup, rules_eq_map (hn ▸ hnodup : g'.nonterminals.Nodup)]
  show g.nonterminals.map (fun x => (x, g.productions x)) =
    g'.nonterminals.map fun x => (x, g'.productions x)
  rw [hn]
  exact List.map_congr_left fun x _ => by rw [hp]

/-- A grammar in which no nonterminal is declared twice is known by its views. -/
theorem eq_of_views (hnodup : g.nonterminals.Nodup) (hn : g.nonterminals = g'.nonterminals)
    (hp : ∀ x, g.productions x = g'.productions x) (ht : g.terminals = g'.terminals)
    (hs : g.start = g'.start) : g = g' := by
  have hrules := rules_eq_of_views hnodup hn hp
  cases g
  cases g'
  simp_all

@[simp] theorem nonterminals_append_rule (g : Grammar) (x : Char) (ps : List Production) :
    ({ g with rules := g.rules ++ [(x, ps)] } : Grammar).nonterminals = g.nonterminals ++ [x] := by
  simp [nonterminals]

@[simp] theorem productions_append_rule (g : Grammar) (x y : Char) :
    ({ g with rules := g.rules ++ [(x, [])] } : Grammar).productions y = g.productions y := by
  simp only [productions, List.lookup_append]
  cases g.rules.lookup y with
  | some ps => rfl
  | none =>
    by_cases hy : y = x
    · simp [hy]
    · rw [lookup_cons_of_ne hy]
      rfl

theorem declareNonterminal_eq_ok :
    g.declareNonterminal x = .ok g' ↔
      Symbol.isUpper x ∧ x ∉ g.nonterminals ∧ g' = { g with rules := g.rules ++ [(x, [])] } := by
  rw [declareNonterminal, ite_eq_ok_iff, and_assoc, eq_comm (b := g')]

theorem declareTerminal_eq_ok :
    g.declareTerminal a = .ok g' ↔
      Symbol.isLower a ∧ a ∉ g.terminals ∧ g' = { g with terminals := g.terminals ++ [a] } := by
  rw [declareTerminal, ite_eq_ok_iff, and_assoc, eq_comm (b := g')]

theorem setStart_eq_ok :
    g.setStart x = .ok g' ↔ x ∈ g.nonterminals ∧ g' = { g with start := some x } := by
  rw [setStart, ite_eq_ok_iff, eq_comm (b := g')]

theorem productionOf_eq_ok :
    g.productionOf x rhs = .ok p ↔
      x ∈ g.nonterminals ∧ Production.ofText? rhs = some p ∧ ∀ s ∈ p.symbols, g.Declares s := by
  unfold productionOf
  split
  · rename_i hx
    cases hq : Production.ofText? rhs with
    | none => simp
    | some q =>
      cases hf : q.symbols.find? (fun s => ¬ g.Declares s) with
      | some s =>
        have hs : ¬ g.Declares s := by simpa using List.find?_some hf
        have hm : s ∈ q.symbols := List.mem_of_find?_eq_some hf
        simp only [hf, hx, Option.some.injEq, true_and, reduceCtorEq, false_iff]
        intro h
        obtain ⟨rfl, hall⟩ := h
        exact hs (hall s hm)
      | none =>
        have hall : ∀ s ∈ q.symbols, g.Declares s := by simpa using hf
        simp only [hf, hx, Except.ok.injEq, Option.some.injEq, true_and]
        constructor
        · rintro rfl
          exact ⟨rfl, hall⟩
        · exact And.left
  · rename_i hx
    simp [hx]

theorem addProduction_eq_ok :
    g.addProduction x rhs = .ok g' ↔
      ∃ p, g.productionOf x rhs = .ok p ∧ g' = g.withProduction x p := by
  simp only [addProduction, map_eq_ok_iff, eq_comm (b := g')]

@[simp] theorem nonterminals_withProduction (g : Grammar) (x : Char) (p : Production) :
    (g.withProduction x p).nonterminals = g.nonterminals := by
  simp only [nonterminals, withProduction, List.map_map]
  apply List.map_congr_left
  rintro ⟨y, ps⟩ -
  simp only [Function.comp_apply]
  split <;> rfl

@[simp] theorem terminals_withProduction (g : Grammar) (x : Char) (p : Production) :
    (g.withProduction x p).terminals = g.terminals := rfl

@[simp] theorem start_withProduction (g : Grammar) (x : Char) (p : Production) :
    (g.withProduction x p).start = g.start := rfl

@[simp] theorem declares_withProduction {s : Symbol} :
    (g.withProduction x p).Declares s ↔ g.Declares s := by
  cases s with
  | terminal a => exact Iff.rfl
  | nonterminal y => simp only [Declares, nonterminals_withProduction]

theorem lookup_withProduction (x y : Char) (p : Production)
    (rules : List (Char × List Production)) :
    (rules.map fun (z, ps) => if z = x ∧ p ∉ ps then (z, ps ++ [p]) else (z, ps)).lookup y =
      (rules.lookup y).map fun ps => if y = x ∧ p ∉ ps then ps ++ [p] else ps := by
  induction rules with
  | nil => rfl
  | cons entry rules ih =>
    rcases entry with ⟨z, ps⟩
    have hkey : (if z = x ∧ p ∉ ps then (z, ps ++ [p]) else (z, ps)) =
        (z, if z = x ∧ p ∉ ps then ps ++ [p] else ps) := by
      split <;> rfl
    simp only [List.map_cons, hkey, List.lookup_cons, ih]
    by_cases hy : y = z
    · simp [hy]
    · simp [beq_eq_false_iff_ne.mpr hy]

theorem productions_withProduction (g : Grammar) (x y : Char) (p : Production) :
    (g.withProduction x p).productions y =
      if y = x ∧ x ∈ g.nonterminals ∧ p ∉ g.productions x then g.productions y ++ [p]
      else g.productions y := by
  have hnew : (g.withProduction x p).productions y =
      ((g.rules.lookup y).map fun ps => if y = x ∧ p ∉ ps then ps ++ [p] else ps).getD [] := by
    rw [productions, withProduction, lookup_withProduction]
  rw [hnew]
  cases h : g.rules.lookup y with
  | none =>
    have hy : y ∉ g.nonterminals := by simp [mem_nonterminals_iff, h]
    have hc : ¬ (y = x ∧ x ∈ g.nonterminals ∧ p ∉ g.productions x) := by
      intro h
      obtain ⟨rfl, hx, -⟩ := h
      exact hy hx
    rw [if_neg hc, productions_eq_nil hy]
    rfl
  | some ps =>
    have hy : y ∈ g.nonterminals := mem_nonterminals_iff.mpr ⟨ps, h⟩
    have hps : g.productions y = ps := by simp [productions, h]
    by_cases hx : y = x
    · subst hx
      simp [hy, hps]
    · simp [hx, hps]

theorem productions_withProduction_of_ne (g : Grammar) (p : Production) (h : y ≠ x) :
    (g.withProduction x p).productions y = g.productions y := by
  rw [productions_withProduction, if_neg fun hc => h hc.1]

theorem mem_productions_withProduction {q : Production} :
    q ∈ (g.withProduction x p).productions y ↔
      q ∈ g.productions y ∨ y = x ∧ x ∈ g.nonterminals ∧ q = p := by
  rw [productions_withProduction]
  split
  · rename_i h
    simp [h.1, h.2.1]
  · rename_i h
    constructor
    · exact Or.inl
    · intro h
      rcases h with hq | ⟨rfl, hx, rfl⟩
      · exact hq
      · by_contra hq
        exact h ⟨rfl, hx, hq⟩

end ChomskyNormal.Grammar
