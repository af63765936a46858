import ChomskyNormal.Grammar

/-!
Derivation trees: each node holds a nonterminal and shows which production replaces it.
-/

set_option autoImplicit false
set_option relaxedAutoImplicit false

namespace ChomskyNormal

/-- A nonterminal replaced by a terminal, or by two nonterminals that are replaced in turn. -/
inductive Derivation where
  | leaf (x a : Char)
  | node (x : Char) (left right : Derivation)
deriving DecidableEq

namespace Derivation

def root : Derivation → Char
  | leaf x _ => x
  | node x _ _ => x

def word : Derivation → Text
  | leaf _ a => [a]
  | node _ left right => left.word ++ right.word

/-- The number of productions on the longest way down. -/
def height : Derivation → Nat
  | leaf _ _ => 1
  | node _ left right => 1 + max left.height right.height

/-- Every node is replaced by one of the productions of its nonterminal. -/
def Follows (g : Grammar) : Derivation → Prop
  | leaf x a => .terminal a ∈ g.productions x
  | node x left right =>
      .binary left.root right.root ∈ g.productions x ∧ left.Follows g ∧ right.Follows g

end Derivation

end ChomskyNormal
