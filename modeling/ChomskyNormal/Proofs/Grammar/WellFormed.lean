import ChomskyNormal.Proofs.Grammar.Changes
import Mathlib.Data.List.Nodup

/-!
Well-formed grammars: no declaration is made twice, every name has the case of its kind, and
nothing refers to a symbol that is not declared. Every call keeps a grammar well-formed, so every
grammar that calls can lead to is well-formed.
-/

set_option autoImplicit false
set_option relaxedAutoImplicit false

namespace ChomskyNormal

/-- The invariant of grammars that are built by calls. -/
structure Grammar.WellFormed (g : Grammar) : Prop where
  nonterminals_nodup : g.nonterminals.Nodup
  isUpper : ∀ x ∈ g.nonterminals, Symbol.isUpper x
  terminals_nodup : g.terminals.Nodup
  isLower : ∀ a ∈ g.terminals, Symbol.isLower a
  start_mem : ∀ x, g.start = some x → x ∈ g.nonterminals
  productions_nodup : ∀ x, (g.productions x).Nodup
  declares : ∀ x, ∀ p ∈ g.productions x, ∀ s ∈ p.symbols, g.Declares s

namespace Grammar.WellFormed

variable {g g' : Grammar} {x a : Char} {p : Production}

theorem empty : Grammar.empty.WellFormed := by
  constructor <;> simp [Grammar.empty, nonterminals, productions]

private theorem nodup_append_new {α : Type} {l : List α} {b : α} (hl : l.Nodup) (hb : b ∉ l) :
    (l ++ [b]).Nodup := by
  simpa using hl.concat hb

private theorem declares_mono {s : Symbol} (hs : g.Declares s)
    (hn : g.nonterminals ⊆ g'.nonterminals) (ht : g.terminals ⊆ g'.terminals) : g'.Declares s := by
  cases s with
  | terminal a => exact ht hs
  | nonterminal x => exact hn hs

private theorem declareNonterminal (hg : g.WellFormed) (hx : Symbol.isUpper x)
    (hn : x ∉ g.nonterminals) :
    ({ g with rules := g.rules ++ [(x, [])] } : Grammar).WellFormed where
  nonterminals_nodup := by
    rw [nonterminals_append_rule]
    exact nodup_append_new hg.nonterminals_nodup hn
  isUpper y hy := by
    rw [nonterminals_append_rule] at hy
    rcases List.mem_append.mp hy with hy | hy
    · exact hg.isUpper y hy
    · exact List.mem_singleton.mp hy ▸ hx
  terminals_nodup := hg.terminals_nodup
  isLower := hg.isLower
  start_mem y hy := by
    rw [nonterminals_append_rule]
    exact List.mem_append_left _ (hg.start_mem y hy)
  productions_nodup y := by
    rw [productions_append_rule]
    exact hg.productions_nodup y
  declares y p hp s hs := by
    rw [productions_append_rule] at hp
    refine declares_mono (hg.declares y p hp s hs) ?_ (List.Subset.refl _)
    rw [nonterminals_append_rule]
    exact List.subset_append_left _ _

private theorem declareTerminal (hg : g.WellFormed) (ha : Symbol.isLower a) (hn : a ∉ g.terminals) :
    ({ g with terminals := g.terminals ++ [a] } : Grammar).WellFormed where
  nonterminals_nodup := hg.nonterminals_nodup
  isUpper := hg.isUpper
  terminals_nodup := nodup_append_new hg.terminals_nodup hn
  isLower b hb := by
    rcases List.mem_append.mp hb with hb | hb
    · exact hg.isLower b hb
    · exact List.mem_singleton.mp hb ▸ ha
  start_mem := hg.start_mem
  productions_nodup := hg.productions_nodup
  declares y p hp s hs :=
    declares_mono (hg.declares y p hp s hs) (List.Subset.refl _) (List.subset_append_left _ _)

theorem setStart (hg : g.WellFormed) (hx : x ∈ g.nonterminals) :
    ({ g with start := some x } : Grammar).WellFormed where
  nonterminals_nodup := hg.nonterminals_nodup
  isUpper := hg.isUpper
  terminals_nodup := hg.terminals_nodup
  isLower := hg.isLower
  start_mem _ hy := Option.some.inj hy ▸ hx
  productions_nodup := hg.productions_nodup
  declares := hg.declares

private theorem withProduction (hg : g.WellFormed) (hp : ∀ s ∈ p.symbols, g.Declares s) :
    (g.withProduction x p).WellFormed where
  nonterminals_nodup := by simpa using hg.nonterminals_nodup
  isUpper := by simpa using hg.isUpper
  terminals_nodup := hg.terminals_nodup
  isLower := hg.isLower
  start_mem := by simpa using hg.start_mem
  productions_nodup y := by
    rw [productions_withProduction]
    split
    · rename_i h
      obtain ⟨rfl, -, hnew⟩ := h
      exact nodup_append_new (hg.productions_nodup y) hnew
    · exact hg.productions_nodup y
  declares y q hq s hs := by
    rw [declares_withProduction]
    rcases mem_productions_withProduction.mp hq with hq | ⟨-, -, rfl⟩
    · exact hg.declares y q hq s hs
    · exact hp s hs

private theorem perform {call : Call} (hg : g.WellFormed) (h : call.perform g = .ok g') :
    g'.WellFormed := by
  cases call with
  | declareNonterminal x =>
    obtain ⟨hx, hn, rfl⟩ := declareNonterminal_eq_ok.mp h
    exact hg.declareNonterminal hx hn
  | declareTerminal a =>
    obtain ⟨ha, hn, rfl⟩ := declareTerminal_eq_ok.mp h
    exact hg.declareTerminal ha hn
  | setStart x =>
    obtain ⟨hx, rfl⟩ := setStart_eq_ok.mp h
    exact hg.setStart hx
  | addProduction x rhs =>
    obtain ⟨p, hp, rfl⟩ := addProduction_eq_ok.mp h
    exact hg.withProduction (productionOf_eq_ok.mp hp).2.2
  | clear =>
    cases h
    exact .empty

theorem after (hg : g.WellFormed) (call : Call) : (call.after g).WellFormed := by
  unfold Call.after
  cases h : call.perform g with
  | ok g' => exact hg.perform h
  | error r => exact hg

theorem afterAll (hg : g.WellFormed) (calls : List Call) : (g.afterAll calls).WellFormed := by
  induction calls generalizing g with
  | nil => exact hg
  | cons call calls ih => exact ih (hg.after call)

theorem mem_terminals (hg : g.WellFormed) (hp : .terminal a ∈ g.productions x) :
    a ∈ g.terminals :=
  hg.declares x _ hp (.terminal a) (by simp [Production.symbols])

theorem mem_nonterminals {b c : Char} (hg : g.WellFormed) (hp : .binary b c ∈ g.productions x) :
    b ∈ g.nonterminals ∧ c ∈ g.nonterminals :=
  ⟨hg.declares x _ hp (.nonterminal b) (by simp [Production.symbols]),
    hg.declares x _ hp (.nonterminal c) (by simp [Production.symbols])⟩

end Grammar.WellFormed

namespace Grammar

theorem Reachable.after {g : Grammar} (h : g.Reachable) (call : Call) :
    (call.after g).Reachable := by
  obtain ⟨calls, rfl⟩ := h
  refine ⟨calls ++ [call], ?_⟩
  rw [afterAll, List.foldl_concat, afterAll]

/-- Every grammar that calls can lead to is well-formed. -/
theorem Reachable.wellFormed {g : Grammar} (h : g.Reachable) : g.WellFormed := by
  obtain ⟨calls, rfl⟩ := h
  exact WellFormed.empty.afterAll calls

/-- The grammar of the words in which some `a` stand before as many `b`. The second declaration of
`S` is refused; `L` derives no word. -/
def balanced : Grammar :=
  empty.afterAll [.declareNonterminal 'S', .declareNonterminal 'T', .declareNonterminal 'S',
    .declareNonterminal 'A', .declareNonterminal 'B', .declareNonterminal 'L',
    .declareTerminal 'a', .declareTerminal 'b', .setStart 'S',
    .addProduction 'S' ['A', 'B'], .addProduction 'S' ['A', 'T'], .addProduction 'T' ['S', 'B'],
    .addProduction 'A' ['a'], .addProduction 'B' ['b'], .addProduction 'L' ['L', 'A']]

theorem balanced_reachable : balanced.Reachable :=
  ⟨_, rfl⟩

end Grammar

end ChomskyNormal
