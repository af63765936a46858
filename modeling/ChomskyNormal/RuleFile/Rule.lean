import ChomskyNormal.Production
import ChomskyNormal.RuleFile.Token

/-!
Rules: a head, the sign of definition, and alternatives between bars.
-/

set_option autoImplicit false
set_option relaxedAutoImplicit false

namespace ChomskyNormal

/-- A nonterminal with alternatives to replace it by, perhaps none. -/
structure Rule where
  head : Char
  alternatives : List Production
deriving DecidableEq

namespace Rule

/-- The symbols of an alternative, which has to consist of nothing else. -/
def symbols : List Token → Except Fault (List Symbol)
  | [] => .ok []
  | .define :: _ => .error .extraSign
  | .bar :: _ => .error .uncut
  | .letter s :: ts => (symbols ts).map (s :: ·)

/-- Symbols that form a right-hand side. -/
def ofSymbols (ss : List Symbol) : Except Fault Production :=
  match Production.ofSymbols? ss with
  | some p => .ok p
  | none => .error (.refused (.notNormal (ss.map Symbol.char)))

/-- The right-hand side that tokens without a bar spell. -/
def alternative (ts : List Token) : Except Fault Production :=
  (symbols ts).bind ofSymbols

/-- The alternatives behind the sign of definition: none if nothing follows it, else as many as
there are pieces between bars. -/
def alternativesOf (ts : List Token) : Except Fault (List Production) :=
  if ts = [] then .ok [] else (ts.splitOn .bar).mapM alternative

/-- The rule that tokens spell. -/
def ofTokens : List Token → Except Fault Rule
  | [] => .error .blankRule
  | .letter (.nonterminal x) :: .define :: ts => (alternativesOf ts).map (Rule.mk x)
  | .letter (.nonterminal _) :: _ => .error .missingSign
  | _ :: _ => .error .badHead

/-- The rule that a line spells. -/
def ofLine (line : Text) : Except Fault Rule :=
  (Token.scan line).bind ofTokens

end Rule

end ChomskyNormal
