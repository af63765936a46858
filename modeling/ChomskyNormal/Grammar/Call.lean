import ChomskyNormal.Grammar

/-!
Calls that change a grammar, as data. A refused call leaves the grammar as it was, so that any
list of calls has an outcome.
-/

set_option autoImplicit false
set_option relaxedAutoImplicit false

namespace ChomskyNormal

/-- A change that a grammar can be asked for. -/
inductive Call where
  | declareNonterminal (x : Char)
  | declareTerminal (a : Char)
  | setStart (x : Char)
  | addProduction (x : Char) (rhs : Text)
  | clear
deriving DecidableEq

namespace Call

def perform (g : Grammar) : Call → Except Refusal Grammar
  | declareNonterminal x => g.declareNonterminal x
  | declareTerminal a => g.declareTerminal a
  | setStart x => g.setStart x
  | addProduction x rhs => g.addProduction x rhs
  | clear => .ok .empty

/-- The grammar after a call, whether the call is refused or not. -/
def after (g : Grammar) (call : Call) : Grammar :=
  match call.perform g with
  | .ok g' => g'
  | .error _ => g

def refusal? (g : Grammar) (call : Call) : Option Refusal :=
  match call.perform g with
  | .ok _ => none
  | .error r => some r

end Call

namespace Grammar

/-- The grammar after a list of calls, one after another. -/
def afterAll (g : Grammar) (calls : List Call) : Grammar :=
  calls.foldl Call.after g

/-- The grammars that calls can lead to from the empty one. -/
def Reachable (g : Grammar) : Prop :=
  ∃ calls : List Call, empty.afterAll calls = g

end Grammar

end ChomskyNormal
