import ChomskyNormal.Symbol
import ChomskyNormal.Text

/-!
Right-hand sides in Chomsky normal form: one terminal, or two nonterminals.
-/

set_option autoImplicit false
set_option relaxedAutoImplicit false

namespace ChomskyNormal

/-- What a nonterminal may be replaced by in one step. -/
inductive Production where
  | terminal (a : Char)
  | binary (b c : Char)
deriving DecidableEq

namespace Production

def symbols : Production → List Symbol
  | terminal a => [.terminal a]
  | binary b c => [.nonterminal b, .nonterminal c]

/-- A right-hand side is written as its symbols, one after another. -/
def text (p : Production) : Text :=
  p.symbols.map Symbol.char

def letter? : Production → Option Char
  | terminal a => some a
  | binary _ _ => none

def nonterminals : Production → List Char
  | terminal _ => []
  | binary b c => [b, c]

/-- Only one terminal or two nonterminals make a right-hand side. -/
def ofSymbols? : List Symbol → Option Production
  | [.terminal a] => some (terminal a)
  | [.nonterminal b, .nonterminal c] => some (binary b c)
  | _ => none

/-- The right-hand side that a text spells, every character of which has to be a symbol. -/
def ofText? (t : Text) : Option Production :=
  (t.mapM Symbol.ofChar?).bind ofSymbols?

end Production

end ChomskyNormal
