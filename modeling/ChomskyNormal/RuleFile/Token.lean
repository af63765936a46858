import ChomskyNormal.RuleFile.Fault
import ChomskyNormal.Symbol

/-!
The tokens of a line of a rule file. Blanks separate nothing but two signs of definition.
-/

set_option autoImplicit false
set_option relaxedAutoImplicit false

namespace ChomskyNormal

/-- The sign of definition, the bar between alternatives, or a symbol. -/
inductive Token where
  | define
  | bar
  | letter (s : Symbol)
deriving DecidableEq

namespace Token

/-- How a token is written. -/
def text : Token → Text
  | define => "::=".toList
  | bar => ['|']
  | letter s => [s.char]

/-- Colons and equals signs make up the sign of definition and nothing else. -/
def isSignPart (c : Char) : Bool :=
  c == ':' || c == '='

/-- A text that goes on with a colon or an equals sign. -/
def goesOn : Text → Bool
  | [] => false
  | c :: _ => isSignPart c

/-- The tokens of a line, or its leftmost fault. A run of colons and equals signs has to be one
sign of definition; any other character stands for itself. -/
def scan : Text → Except Fault (List Token)
  | [] => .ok []
  | ':' :: ':' :: '=' :: rest =>
      if goesOn rest then .error .brokenSign else (scan rest).map (define :: ·)
  | c :: rest =>
      if isSignPart c then .error .brokenSign
      else if c = '|' then (scan rest).map (bar :: ·)
      else if Text.isBlank c then scan rest
      else
        match Symbol.ofChar? c with
        | some s => (scan rest).map (letter s :: ·)
        | none => .error (.stray c)

end Token

end ChomskyNormal
