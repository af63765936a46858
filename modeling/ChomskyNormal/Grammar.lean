import ChomskyNormal.Production
import ChomskyNormal.Refusal

/-!
Grammars in Chomsky normal form, built up one declaration at a time. Nonterminals, terminals and
the productions of each nonterminal keep the order in which they came.
-/

set_option autoImplicit false
set_option relaxedAutoImplicit false

namespace ChomskyNormal

/-- The declared nonterminals with their productions, the declared terminals, the start symbol. -/
structure Grammar where
  rules : List (Char × List Production)
  terminals : List Char
  start : Option Char
deriving DecidableEq

namespace Grammar

def empty : Grammar :=
  ⟨[], [], none⟩

instance : Inhabited Grammar :=
  ⟨empty⟩

/-- The declared nonterminals in the order of their declarations. -/
def nonterminals (g : Grammar) : List Char :=
  g.rules.map Prod.fst

/-- The productions of a nonterminal, none for one that is not declared. -/
def productions (g : Grammar) (x : Char) : List Production :=
  (g.rules.lookup x).getD []

/-- A declared symbol belongs to the grammar as the kind of symbol that it is. -/
def Declares (g : Grammar) : Symbol → Prop
  | .terminal a => a ∈ g.terminals
  | .nonterminal x => x ∈ g.nonterminals

instance (g : Grammar) (s : Symbol) : Decidable (g.Declares s) :=
  match s with
  | .terminal a => inferInstanceAs (Decidable (a ∈ g.terminals))
  | .nonterminal x => inferInstanceAs (Decidable (x ∈ g.nonterminals))

/-- The position of a nonterminal in the order of declarations. -/
def number? (g : Grammar) (x : Char) : Option Nat :=
  g.nonterminals.idxOf? x

/-- Declare a nonterminal: an upper-case character that does not name one yet. -/
def declareNonterminal (g : Grammar) (x : Char) : Except Refusal Grammar :=
  if Symbol.isUpper x ∧ x ∉ g.nonterminals then
    .ok { g with rules := g.rules ++ [(x, [])] }
  else
    .error (.badSymbol x)

/-- Declare a terminal: a lower-case character that is not one yet. -/
def declareTerminal (g : Grammar) (a : Char) : Except Refusal Grammar :=
  if Symbol.isLower a ∧ a ∉ g.terminals then
    .ok { g with terminals := g.terminals ++ [a] }
  else
    .error (.badSymbol a)

def setStart (g : Grammar) (x : Char) : Except Refusal Grammar :=
  if x ∈ g.nonterminals then .ok { g with start := some x } else .error (.undeclared x)

/-- The production that a text spells for a nonterminal. The nonterminal is looked at first, then
the form of the text, then its symbols from the left. -/
def productionOf (g : Grammar) (x : Char) (rhs : Text) : Except Refusal Production :=
  if x ∈ g.nonterminals then
    match Production.ofText? rhs with
    | none => .error (.notNormal rhs)
    | some p =>
        match p.symbols.find? (fun s => ¬ g.Declares s) with
        | some s => .error (.undeclared s.char)
        | none => .ok p
  else
    .error (.undeclared x)

/-- The grammar with one more production for a nonterminal, in the last place; a production that
is there already stays where it is. -/
def withProduction (g : Grammar) (x : Char) (p : Production) : Grammar :=
  { g with
    rules := g.rules.map fun (y, ps) =>
      if y = x ∧ p ∉ ps then (y, ps ++ [p]) else (y, ps) }

def addProduction (g : Grammar) (x : Char) (rhs : Text) : Except Refusal Grammar :=
  (g.productionOf x rhs).map (g.withProduction x)

end Grammar

end ChomskyNormal
