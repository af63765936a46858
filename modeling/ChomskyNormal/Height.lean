import ChomskyNormal.Grammar

/-!
Least heights of derivations. They are found by going over the nonterminals again and again, each
time using what is already known, until nothing new is learnt.
-/

set_option autoImplicit false
set_option relaxedAutoImplicit false

namespace ChomskyNormal

/-- Heights of nonterminals that derive some word; the first entry of a nonterminal counts. -/
abbrev Heights := List (Char × Nat)

namespace Heights

/-- The height that a production gives: one for a terminal, one more than the higher of its two
parts otherwise, if both are known. -/
def ofProduction (h : Heights) : Production → Option Nat
  | .terminal _ => some 1
  | .binary b c =>
      match h.lookup b, h.lookup c with
      | some m, some n => some (1 + max m n)
      | _, _ => none

/-- The least height among those that the productions of a nonterminal give. -/
def least (h : Heights) (g : Grammar) (x : Char) : Option Nat :=
  ((g.productions x).filterMap h.ofProduction).min?

/-- A height is better than what is known when nothing is known or it is less. -/
def improves (h : Heights) (x : Char) (n : Nat) : Bool :=
  match h.lookup x with
  | none => true
  | some m => n < m

/-- Note the least height of one nonterminal if it is better than what is known. -/
def visit (g : Grammar) (h : Heights) (x : Char) : Heights :=
  match h.least g x with
  | none => h
  | some n => if h.improves x n then (x, n) :: h else h

def pass (g : Grammar) (h : Heights) : Heights :=
  g.nonterminals.foldl (visit g) h

/-- Passes, at most as many as given, until one changes nothing. -/
def settle (g : Grammar) : Nat → Heights → Heights
  | 0, h => h
  | n + 1, h =>
      let h' := h.pass g
      if h' = h then h else settle g n h'

end Heights

/-- The least heights of all nonterminals that derive some word. A derivation of least height
repeats no nonterminal on its way down, so one pass for each nonterminal is enough and one more
finds nothing to change. -/
def Grammar.heights (g : Grammar) : Heights :=
  Heights.settle g (g.nonterminals.length + 1) []

end ChomskyNormal
