import ChomskyNormal.CharClass.Lowercase
import ChomskyNormal.CharClass.Uppercase

/-!
Symbols of a grammar. The case of a character decides which kind of symbol it can be.
-/

set_option autoImplicit false
set_option relaxedAutoImplicit false

namespace ChomskyNormal

/-- A symbol is a terminal or a nonterminal, and is written as one character. -/
inductive Symbol where
  | terminal (c : Char)
  | nonterminal (c : Char)
deriving DecidableEq

namespace Symbol

def char : Symbol → Char
  | terminal c => c
  | nonterminal c => c

/-- Upper-case characters can name nonterminals. -/
def isUpper (c : Char) : Bool :=
  CharClass.uppercase.has c

/-- Lower-case characters can name terminals. -/
def isLower (c : Char) : Bool :=
  CharClass.lowercase.has c

/-- The symbol that a character stands for, if it has a case. -/
def ofChar? (c : Char) : Option Symbol :=
  if isUpper c then some (nonterminal c)
  else if isLower c then some (terminal c)
  else none

end Symbol

end ChomskyNormal
