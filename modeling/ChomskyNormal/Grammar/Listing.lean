import ChomskyNormal.Grammar

/-!
The written form of a grammar: a line for each nonterminal, in the order of declarations.
-/

set_option autoImplicit false
set_option relaxedAutoImplicit false

namespace ChomskyNormal.Grammar

/-- A nonterminal, the sign of definition, and its productions with a bar between any two. -/
def rulePart (x : Char) (ps : List Production) : Text :=
  x :: "::=".toList ++ "|".toList.intercalate (ps.map Production.text)

/-- The line of one declared nonterminal. -/
def ruleOf (g : Grammar) (x : Char) : Except Refusal Text :=
  if x ∈ g.nonterminals then .ok (rulePart x (g.productions x)) else .error (.undeclared x)

/-- The lines of all nonterminals, with no end of line after the last. -/
def listing (g : Grammar) : Text :=
  Text.unlines (g.nonterminals.map fun x => rulePart x (g.productions x))

end ChomskyNormal.Grammar
