import ChomskyNormal.Table.Filling

/-!
Questions of membership: the table of a word, and whether the start symbol derives the word.
-/

set_option autoImplicit false
set_option relaxedAutoImplicit false

namespace ChomskyNormal.Grammar

/-- Why a word cannot be examined, if it cannot: first a foreign character, the leftmost one, then
the lack of nonterminals, then the lack of a start symbol. -/
def unfit? (g : Grammar) (w : Text) : Option Unfit :=
  match w.find? (fun c => c ∉ g.terminals) with
  | some c => some (.foreign c)
  | none =>
      if g.nonterminals = [] then some .noNonterminals
      else if g.start = none then some .noStart
      else none

def table (g : Grammar) (w : Text) : Except Refusal Table :=
  match g.unfit? w with
  | some reason => .error (.unfit reason)
  | none => .ok (.ofWord g w)

def accepts (g : Grammar) (t : Table) : Bool :=
  g.start.any t.accepts

/-- The start symbol derives a word. No word that it derives is empty. -/
def derives (g : Grammar) (w : Text) : Except Refusal Bool :=
  (g.table w).map g.accepts

end ChomskyNormal.Grammar
