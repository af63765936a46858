/-!
Classes of characters given by tables of code points. A table lists bands in ascending order, so
that a search stops at the first band that ends at or after the character sought.
-/

set_option autoImplicit false
set_option relaxedAutoImplicit false

namespace ChomskyNormal

/-- Every `step`-th code point from `first` up to `last`. -/
structure Band where
  first : Nat
  last : Nat
  step : Nat
deriving DecidableEq

/-- A code point lies in a band when it is reached from the band's first one in whole steps. -/
def Band.has (b : Band) (n : Nat) : Bool :=
  decide (b.first ≤ n) && decide (n ≤ b.last) && (n - b.first) % b.step == 0

/-- A class of characters: bands in ascending order, no two of them overlapping. -/
abbrev CharClass := List Band

namespace CharClass

/-- Only the first band that does not end before the code point can hold it. -/
def hasCode (n : Nat) : CharClass → Bool
  | [] => false
  | b :: bands => if n ≤ b.last then b.has n else hasCode n bands

/-- Membership of a character in a class. -/
def has (k : CharClass) (c : Char) : Bool :=
  k.hasCode c.toNat

end CharClass

end ChomskyNormal
