import ChomskyNormal.Membership
import ChomskyNormal.RuleFile
import ChomskyNormal.Sampling

/-!
The journal of a grammar's life: what is noted down for each operation. A refused operation is not
noted, and neither is the choice of a start symbol.
-/

set_option autoImplicit false
set_option relaxedAutoImplicit false

namespace ChomskyNormal

/-- Something that the journal notes. -/
inductive Event where
  | declaredNonterminal (x : Char)
  | declaredTerminal (a : Char)
  | added (x : Char) (p : Production)
  | alreadyThere (x : Char) (p : Production)
  | cleared (nonterminals : Nat)
  | fillingTable (w : Text)
  | filledTable (cells : Nat)
  | judged (w : Text) (derived : Bool)
  | sampled (w : Text) (x : Char)
  | loaded (path : Text) (nonterminals terminals : Nat)
deriving DecidableEq

namespace Event

/-- Only the loading of a file is of general interest. -/
def level : Event → Text
  | loaded _ _ _ => "INFO".toList
  | _ => "DEBUG".toList

def word (w : Text) : Text :=
  '"' :: w ++ ['"']

/-- A nonterminal with one production. -/
def rule (x : Char) (p : Production) : Text :=
  x :: "::=".toList ++ p.text

/-- What is written down for an event. -/
def message : Event → Text
  | declaredNonterminal x => "declaring nonterminal ".toList ++ [x]
  | declaredTerminal a => "declaring terminal ".toList ++ [a]
  | added x p => "adding ".toList ++ rule x p
  | alreadyThere x p => rule x p ++ " is already in the grammar".toList
  | cleared n => "removing grammar with ".toList ++ Text.decimal n ++ " nonterminals".toList
  | fillingTable w => "building CYK table for ".toList ++ word w
  | filledTable n => "filled ".toList ++ Text.decimal n ++ " cells".toList
  | judged w d => word w ++ " derived: ".toList ++ (if d then "true" else "false").toList
  | sampled w x => "generated ".toList ++ word w ++ " from ".toList ++ [x]
  | loaded path n m =>
      "loaded ".toList ++ path ++ " with ".toList ++ Text.decimal n ++ " nonterminals and ".toList
        ++ Text.decimal m ++ " terminals".toList

def line (e : Event) : Text :=
  e.level ++ ' ' :: e.message

end Event

namespace Journal

def ofCall (g : Grammar) (call : Call) : List Event :=
  match call, call.refusal? g with
  | _, some _ => []
  | .declareNonterminal x, none => [.declaredNonterminal x]
  | .declareTerminal a, none => [.declaredTerminal a]
  | .setStart _, none => []
  | .addProduction x rhs, none =>
      match g.productionOf x rhs with
      | .error _ => []
      | .ok p => [if p ∈ g.productions x then .alreadyThere x p else .added x p]
  | .clear, none => [.cleared g.nonterminals.length]

def ofCalls (g : Grammar) : List Call → List Event
  | [] => []
  | call :: calls => ofCall g call ++ ofCalls (call.after g) calls

def ofTable (g : Grammar) (w : Text) : List Event :=
  match g.table w with
  | .error _ => []
  | .ok _ => [.fillingTable w, .filledTable (Table.size w.length)]

def ofJudgement (g : Grammar) (w : Text) : List Event :=
  match g.derives w with
  | .error _ => []
  | .ok d => ofTable g w ++ [.judged w d]

/-- What is noted when words are grown from the nonterminal asked for, or from the start symbol. -/
def ofSamples (g : Grammar) (asked : Option Char) (words : List Text) : List Event :=
  match g.origin asked with
  | none => []
  | some x => words.map fun w => .sampled w x

def ofReading (t : Text) : List Event :=
  match RuleFile.faults t with
  | [] => ofCalls .empty ((RuleFile.calls (RuleFile.rules t)).map Prod.snd)
  | _ => []

def ofLoading (path : Text) : Except FileFault Text → List Event
  | .error _ => []
  | .ok t =>
      match RuleFile.read path t with
      | .error _ => []
      | .ok g => ofReading t ++ [.loaded path g.nonterminals.length g.terminals.length]

end Journal

end ChomskyNormal
