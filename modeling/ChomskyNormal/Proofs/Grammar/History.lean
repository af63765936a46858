import ChomskyNormal.Proofs.FirstOccurrences
import ChomskyNormal.Proofs.Grammar.WellFormed
import ChomskyNormal.Proofs.Letters
import Mathlib.Data.List.DropRight

/-!
Histories of grammars. The accepted calls since the last clearing, read in their order, tell all of
a grammar. Calls that are refused leave no trace, and neither do productions that are added again.
-/

set_option autoImplicit false
set_option relaxedAutoImplicit false

namespace ChomskyNormal

namespace Call

def nonterminal? : Call → Option Char
  | declareNonterminal x => some x
  | _ => none

def terminal? : Call → Option Char
  | declareTerminal a => some a
  | _ => none

def start? : Call → Option Char
  | setStart x => some x
  | _ => none

def rhs? (x : Char) : Call → Option Text
  | addProduction y rhs => if y = x then some rhs else none
  | _ => none

/-- A call repeats a production when its nonterminal has that production already. -/
def repeats (g : Grammar) : Call → Bool
  | addProduction x rhs =>
      match g.productionOf x rhs with
      | .ok p => decide (p ∈ g.productions x)
      | .error _ => false
  | _ => false

/-- A call is idle when it is refused or repeats a production. -/
def idle (g : Grammar) (call : Call) : Bool :=
  (call.refusal? g).isSome || call.repeats g

end Call

namespace Grammar

def steps (g : Grammar) : List Call → List (Grammar × Call)
  | [] => []
  | call :: calls => (g, call) :: steps (call.after g) calls

def accepted (g : Grammar) (calls : List Call) : List Call :=
  ((g.steps calls).filter fun s => (s.2.refusal? s.1).isNone).map Prod.snd

/-- The log of a run from the empty grammar: its accepted calls after the last clearing. -/
def log (calls : List Call) : List Call :=
  (empty.accepted calls).rtakeWhile fun call => call ≠ .clear

/-- A log records a grammar: the declared symbols in their order, the start symbol set last, and for
each nonterminal the distinct right-hand sides added for it, each at its first place. -/
structure Records (log : List Call) (g : Grammar) : Prop where
  nonterminals : g.nonterminals = log.filterMap Call.nonterminal?
  terminals : g.terminals = log.filterMap Call.terminal?
  start : g.start = (log.filterMap Call.start?).getLast?
  productions : ∀ x, (g.productions x).map some =
    (log.filterMap (Call.rhs? x)).eraseDups.map Production.ofText?

variable {g g' : Grammar} {call : Call} {calls log : List Call} {x y : Char} {p : Production}
  {rhs : Text}

private theorem filterMap_concat {α β : Type} (f : α → Option β) (l : List α) (a : α) :
    (l ++ [a]).filterMap f = l.filterMap f ++ (f a).toList := by
  rw [List.filterMap_append, List.filterMap_eq_flatMap_toList f [a], List.flatMap_singleton]

namespace Records

private theorem empty : Records [] Grammar.empty where
  nonterminals := rfl
  terminals := rfl
  start := rfl
  productions _ := rfl

private theorem unique (hg : g.WellFormed) (h : Records log g) (h' : Records log g') : g = g' := by
  refine eq_of_views hg.nonterminals_nodup ?_ ?_ ?_ ?_
  · rw [h.nonterminals, h'.nonterminals]
  · intro x
    have hsome : (g.productions x).map some = (g'.productions x).map some := by
      rw [h.productions, h'.productions]
    exact List.map_injective_iff.mpr (fun _ _ => Option.some.inj) hsome
  · rw [h.terminals, h'.terminals]
  · rw [h.start, h'.start]

private theorem rhs_mem_iff (h : Records log g) (hp : Production.ofText? rhs = some p) :
    rhs ∈ log.filterMap (Call.rhs? x) ↔ p ∈ g.productions x := by
  have hsome : p ∈ g.productions x ↔ some p ∈ (g.productions x).map some := by simp
  rw [hsome, h.productions, List.mem_map]
  constructor
  · intro hrhs
    exact ⟨rhs, List.mem_eraseDups.mpr hrhs, hp⟩
  · intro hspelled
    obtain ⟨t, ht, htp⟩ := hspelled
    rw [Production.eq_text_of_ofText? hp, ← Production.eq_text_of_ofText? htp]
    exact List.mem_eraseDups.mp ht

private theorem concat (h : Records log g)
    (hn : g'.nonterminals = g.nonterminals ++ call.nonterminal?.toList)
    (ht : g'.terminals = g.terminals ++ call.terminal?.toList)
    (hs : g'.start = call.start?.or g.start)
    (hp : ∀ x, (g'.productions x).map some =
      (log.filterMap (Call.rhs? x) ++ (call.rhs? x).toList).eraseDups.map Production.ofText?) :
    Records (log ++ [call]) g' where
  nonterminals := by rw [hn, h.nonterminals, filterMap_concat]
  terminals := by rw [ht, h.terminals, filterMap_concat]
  start := by
    rw [hs, h.start, filterMap_concat]
    cases call.start? with
    | none => rw [Option.toList_none, List.append_nil, Option.none_or]
    | some x => rw [Option.toList_some, List.getLast?_concat, Option.some_or]
  productions x := by rw [hp, filterMap_concat]

private theorem productions_of_none (h : Records log g) (hnone : call.rhs? x = none) :
    (g.productions x).map some =
      (log.filterMap (Call.rhs? x) ++ (call.rhs? x).toList).eraseDups.map Production.ofText? := by
  rw [hnone, Option.toList_none, List.append_nil, h.productions]

private theorem addProduction (h : Records log g) (hp : g.productionOf x rhs = .ok p) :
    Records (log ++ [.addProduction x rhs]) (g.withProduction x p) := by
  obtain ⟨hx, hspelled, -⟩ := productionOf_eq_ok.mp hp
  refine h.concat ?_ (List.append_nil _).symm rfl ?_
  · rw [nonterminals_withProduction]
    exact (List.append_nil _).symm
  · intro y
    by_cases hy : y = x
    · subst hy
      have hlast : (Call.addProduction y rhs).rhs? y = some rhs := if_pos rfl
      rw [hlast, Option.toList_some]
      by_cases hold : p ∈ g.productions y
      · -- the right-hand side has been added before, so that it is erased
        have hrhs := (h.rhs_mem_iff hspelled).mpr hold
        rw [productions_withProduction, if_neg fun hnew => hnew.2.2 hold, h.productions,
          FirstOccurrences.eraseDups_append_cons_of_mem hrhs, List.append_nil]
      · have hrhs : rhs ∉ log.filterMap (Call.rhs? y) := fun hrhs =>
          hold ((h.rhs_mem_iff hspelled).mp hrhs)
        rw [productions_withProduction, if_pos ⟨rfl, hx, hold⟩, List.map_append, h.productions,
          FirstOccurrences.eraseDups_concat_of_notMem hrhs, List.map_append, List.map_singleton,
          List.map_singleton, hspelled]
    · have hnone : (Call.addProduction x rhs).rhs? y = none := if_neg (Ne.symm hy)
      rw [productions_withProduction_of_ne g p hy]
      exact h.productions_of_none hnone

private theorem perform (h : Records log g) (hcall : call.perform g = .ok g')
    (hne : call ≠ .clear) : Records (log ++ [call]) g' := by
  cases call with
  | declareNonterminal x =>
    obtain ⟨-, -, rfl⟩ := declareNonterminal_eq_ok.mp hcall
    refine h.concat (nonterminals_append_rule g x []) (List.append_nil _).symm rfl ?_
    intro y
    rw [productions_append_rule]
    exact h.productions_of_none rfl
  | declareTerminal a =>
    obtain ⟨-, -, rfl⟩ := declareTerminal_eq_ok.mp hcall
    exact h.concat (List.append_nil _).symm rfl rfl fun y => h.productions_of_none rfl
  | setStart x =>
    obtain ⟨-, rfl⟩ := setStart_eq_ok.mp hcall
    exact h.concat (List.append_nil _).symm (List.append_nil _).symm rfl
      fun y => h.productions_of_none rfl
  | addProduction x rhs =>
    obtain ⟨p, hp, rfl⟩ := addProduction_eq_ok.mp hcall
    exact h.addProduction hp
  | clear => exact absurd rfl hne

end Records

theorem WellFormed.withProduction_of_mem (hg : g.WellFormed) (hp : p ∈ g.productions x) :
    g.withProduction x p = g := by
  have hsame (y : Char) : (g.withProduction x p).productions y = g.productions y := by
    rw [productions_withProduction, if_neg fun hnew => hnew.2.2 hp]
  refine eq_of_views ?_ (nonterminals_withProduction g x p) hsame rfl rfl
  rw [nonterminals_withProduction]
  exact hg.nonterminals_nodup

end Grammar

end ChomskyNormal
