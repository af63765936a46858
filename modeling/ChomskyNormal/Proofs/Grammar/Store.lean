import ChomskyNormal.Grammar.Listing
import ChomskyNormal.Proofs.Grammar.Changes
import Mathlib.Logic.Function.Basic

/-!
Grammars stored with their nonterminals in two places: a list that keeps the order, and a map that
finds the productions. Names are checked against the map alone and listed by the list alone. Every
run of calls keeps the two in step, for it answers as the same run on a grammar does.
-/

set_option autoImplicit false
set_option relaxedAutoImplicit false

namespace ChomskyNormal

/-- The names of the nonterminals in order, the terminals, the start symbol, and a map from the
nonterminals to their productions. -/
structure Store where
  names : List Char
  terminals : List Char
  start : Option Char
  rules : Char → Option (List Production)

namespace Store

def empty : Store :=
  ⟨[], [], none, fun _ => none⟩

def knows (s : Store) (x : Char) : Bool :=
  (s.rules x).isSome

def declares (s : Store) : Symbol → Bool
  | .terminal a => s.terminals.contains a
  | .nonterminal x => s.knows x

def withProduction (s : Store) (x : Char) (p : Production) : Store :=
  let ps := (s.rules x).getD []
  { s with rules := Function.update s.rules x (some (if p ∈ ps then ps else ps ++ [p])) }

def productionOf (s : Store) (x : Char) (rhs : Text) : Except Refusal Production :=
  if s.knows x then
    match Production.ofText? rhs with
    | none => .error (.notNormal rhs)
    | some p =>
        match p.symbols.find? (fun t => !s.declares t) with
        | some t => .error (.undeclared t.char)
        | none => .ok p
  else
    .error (.undeclared x)

def perform (s : Store) : Call → Except Refusal Store
  | .declareNonterminal x =>
      if Symbol.isUpper x ∧ ¬ s.knows x then
        .ok { s with names := s.names ++ [x], rules := Function.update s.rules x (some []) }
      else
        .error (.badSymbol x)
  | .declareTerminal a =>
      if Symbol.isLower a ∧ a ∉ s.terminals then
        .ok { s with terminals := s.terminals ++ [a] }
      else
        .error (.badSymbol a)
  | .setStart x => if s.knows x then .ok { s with start := some x } else .error (.undeclared x)
  | .addProduction x rhs => (s.productionOf x rhs).map (s.withProduction x)
  | .clear => .ok .empty

def after (s : Store) (call : Call) : Store :=
  match s.perform call with
  | .ok s' => s'
  | .error _ => s

def afterAll (s : Store) (calls : List Call) : Store :=
  calls.foldl after s

def ruleOf (s : Store) (x : Char) : Except Refusal Text :=
  match s.rules x with
  | some ps => .ok (Grammar.rulePart x ps)
  | none => .error (.undeclared x)

def listing (s : Store) : Text :=
  Text.unlines (s.names.map fun x => Grammar.rulePart x ((s.rules x).getD []))

/-- A store keeps a grammar when the list has the grammar's nonterminals in order and the map gives
the grammar's productions. -/
structure Keeps (s : Store) (g : Grammar) : Prop where
  names : s.names = g.nonterminals
  terminals : s.terminals = g.terminals
  start : s.start = g.start
  rules : ∀ x, s.rules x = g.rules.lookup x

inductive Alike : Except Refusal Store → Except Refusal Grammar → Prop where
  | error (r : Refusal) : Alike (.error r) (.error r)
  | ok {s : Store} {g : Grammar} (h : s.Keeps g) : Alike (.ok s) (.ok g)

namespace Keeps

variable {s : Store} {g : Grammar} {x : Char}

theorem empty : Store.empty.Keeps Grammar.empty :=
  ⟨rfl, rfl, rfl, fun _ => rfl⟩

theorem knows_iff (h : s.Keeps g) : s.knows x ↔ x ∈ g.nonterminals := by
  rw [knows, h.rules, Grammar.mem_nonterminals_iff, Option.isSome_iff_exists]

private theorem declares_iff (h : s.Keeps g) (t : Symbol) : s.declares t ↔ g.Declares t := by
  cases t with
  | terminal a =>
    rw [declares, h.terminals]
    exact List.contains_iff_mem
  | nonterminal x => exact h.knows_iff

private theorem productionOf_eq (h : s.Keeps g) (x : Char) (rhs : Text) :
    s.productionOf x rhs = g.productionOf x rhs := by
  have hfind (p : Production) : p.symbols.find? (fun t => !s.declares t) =
      p.symbols.find? fun t => ¬ g.Declares t := by
    congr 1
    funext t
    rw [Bool.eq_iff_iff]
    simp [← h.declares_iff t]
  rw [productionOf, Grammar.productionOf]
  by_cases hx : x ∈ g.nonterminals
  · rw [if_pos (h.knows_iff.mpr hx), if_pos hx]
    cases Production.ofText? rhs with
    | none => rfl
    | some p =>
      cases hbad : p.symbols.find? fun t => ¬ g.Declares t with
      | none => simp only [hfind, hbad]
      | some t => simp only [hfind, hbad]
  · rw [if_neg fun hknows => hx (h.knows_iff.mp hknows), if_neg hx]

private theorem declareNonterminal (h : s.Keeps g) (hx : x ∉ g.nonterminals) :
    ({ s with names := s.names ++ [x], rules := Function.update s.rules x (some []) } : Store).Keeps
      { g with rules := g.rules ++ [(x, [])] } where
  names := by rw [Grammar.nonterminals_append_rule, h.names]
  terminals := h.terminals
  start := h.start
  rules y := by
    rw [List.lookup_append, ← h.rules]
    by_cases hy : y = x
    · subst hy
      have hnone : s.rules y = none := by
        rw [← Option.not_isSome_iff_eq_none]
        exact fun hsome => hx (h.knows_iff.mp hsome)
      simp [hnone]
    · show Function.update s.rules x (some []) y = _
      rw [Function.update_of_ne hy, Grammar.lookup_cons_of_ne hy, List.lookup_nil, Option.or_none]

private theorem withProduction (h : s.Keeps g) (hx : x ∈ g.nonterminals) (p : Production) :
    (s.withProduction x p).Keeps (g.withProduction x p) where
  names := by rw [Grammar.nonterminals_withProduction, ← h.names]; rfl
  terminals := h.terminals
  start := h.start
  rules y := by
    obtain ⟨ps, hps⟩ := Grammar.mem_nonterminals_iff.mp hx
    rw [Grammar.withProduction, Grammar.lookup_withProduction, Store.withProduction, h.rules x, hps,
      Option.getD_some]
    by_cases hy : y = x
    · subst hy
      by_cases hp : p ∈ ps <;> simp [hps, hp]
    · simp [hy, h.rules]

private theorem perform (h : s.Keeps g) (call : Call) :
    Alike (s.perform call) (call.perform g) := by
  cases call with
  | declareNonterminal x =>
    simp only [Store.perform, Call.perform, Grammar.declareNonterminal, h.knows_iff]
    split
    · rename_i hx
      exact .ok (h.declareNonterminal hx.2)
    · exact .error _
  | declareTerminal a =>
    simp only [Store.perform, Call.perform, Grammar.declareTerminal, h.terminals]
    split
    · exact .ok ⟨h.names, rfl, h.start, h.rules⟩
    · exact .error _
  | setStart x =>
    simp only [Store.perform, Call.perform, Grammar.setStart, h.knows_iff]
    split
    · exact .ok ⟨h.names, h.terminals, rfl, h.rules⟩
    · exact .error _
  | addProduction x rhs =>
    rw [Store.perform, Call.perform, Grammar.addProduction, h.productionOf_eq]
    cases hp : g.productionOf x rhs with
    | error r => exact .error r
    | ok p => exact .ok (h.withProduction (Grammar.productionOf_eq_ok.mp hp).1 p)
  | clear => exact .ok .empty

private theorem after (h : s.Keeps g) (call : Call) : (s.after call).Keeps (call.after g) := by
  have halike := h.perform call
  unfold Store.after Call.after
  cases hs : s.perform call with
  | error r =>
    rw [hs] at halike
    cases hg : call.perform g with
    | error r' => exact h
    | ok g' =>
      rw [hg] at halike
      cases halike
  | ok s' =>
    rw [hs] at halike
    cases hg : call.perform g with
    | error r' =>
      rw [hg] at halike
      cases halike
    | ok g' =>
      rw [hg] at halike
      cases halike with
      | ok h' => exact h'

/-- A run of calls keeps the list and the map in step with the grammar. -/
theorem afterAll (h : s.Keeps g) (calls : List Call) :
    (s.afterAll calls).Keeps (g.afterAll calls) := by
  induction calls generalizing s g with
  | nil => exact h
  | cons call calls ih => exact ih (h.after call)

end Keeps

end Store

end ChomskyNormal
