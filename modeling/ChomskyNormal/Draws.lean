/-!
A source of 32-bit draws: given numbers first, then numbers made from a 64-bit state. Choices among
alternatives throw away the draws that would favour some of them.
-/

set_option autoImplicit false
set_option relaxedAutoImplicit false

namespace ChomskyNormal

/-- The given draws still to come, the state that later draws are made from, and the number of
draws taken so far. -/
structure Draws where
  pending : List UInt32
  state : UInt64
  taken : Nat
deriving DecidableEq

namespace Draws

def start (pending : List UInt32) (seed : UInt64) : Draws :=
  ⟨pending, seed, 0⟩

/-- The constant that moves the state on; it is odd, so that the state takes every value. -/
def stride : UInt64 :=
  0x9E3779B97F4A7C15

def mix (z : UInt64) : UInt64 :=
  let z := (z ^^^ (z >>> 30)) * 0xBF58476D1CE4E5B9
  let z := (z ^^^ (z >>> 27)) * 0x94D049BB133111EB
  z ^^^ (z >>> 31)

/-- One draw: the next one given, else the high half of the mixed state. -/
def next (d : Draws) : UInt32 × Draws :=
  match d.pending with
  | v :: rest => (v, ⟨rest, d.state, d.taken + 1⟩)
  | [] =>
      let state := d.state + stride
      ((mix state >>> 32).toUInt32, ⟨[], state, d.taken + 1⟩)

/-- The greatest low half of a product that is kept: the number of alternatives is doubled until it
fills 32 bits, so that the products kept fall on all alternatives alike. -/
def zone (n : Nat) : Nat :=
  (n <<< (31 - n.log2)) - 1

/-- Draw until a product with the number of alternatives is kept; its high half is the choice. -/
def chooseWithin (n : Nat) : Nat → Draws → Nat × Draws
  | 0, d => (0, d)
  | tries + 1, d =>
      let (v, d) := d.next
      let product := v.toNat * n
      if product % UInt32.size ≤ zone n then (product / UInt32.size, d)
      else chooseWithin n tries d

/-- Choose among alternatives. Once the given draws are used up, the state takes every value within
`UInt64.size` steps, one of which gives a draw that is kept. -/
def choose (n : Nat) (d : Draws) : Nat × Draws :=
  chooseWithin n (d.pending.length + UInt64.size) d

end Draws

end ChomskyNormal
