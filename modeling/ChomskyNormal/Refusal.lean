import ChomskyNormal.Text

/-!
Why a grammar turns down a call or a question, and how each reason reads.
-/

set_option autoImplicit false
set_option relaxedAutoImplicit false

namespace ChomskyNormal

/-- Why a word cannot be examined under a grammar. -/
inductive Unfit where
  | foreign (c : Char)
  | noNonterminals
  | noStart
deriving DecidableEq

/-- Why a grammar turns down a call or a question. -/
inductive Refusal where
  /-- The symbol has the wrong case for its kind, or is declared already. -/
  | badSymbol (c : Char)
  /-- The symbol is not declared as what it is used for. -/
  | undeclared (c : Char)
  | notNormal (rhs : Text)
  | unfit (reason : Unfit)
deriving DecidableEq

def Unfit.message : Unfit → Text
  | foreign c => Text.quoted [c] ++ " is not a terminal of the grammar".toList
  | noNonterminals => "the grammar has no nonterminals".toList
  | noStart => "the grammar has no start symbol".toList

def Refusal.message : Refusal → Text
  | badSymbol c => "Invalid or duplicate symbol ".toList ++ Text.quoted [c]
  | undeclared c => "Symbol ".toList ++ Text.quoted [c] ++ " was never declared".toList
  | notNormal rhs =>
      Text.quoted rhs ++ " is not in Chomsky Normal Form (expected `a` or `BC`)".toList
  | unfit reason => "Invalid query: ".toList ++ reason.message

end ChomskyNormal
