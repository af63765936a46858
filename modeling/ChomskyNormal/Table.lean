import ChomskyNormal.Text

/-!
The triangular table of a word: for each stretch of it, the nonterminals that derive the stretch.
The cells lie in one array, the shortest stretches first and each length from left to right.
-/

set_option autoImplicit false
set_option relaxedAutoImplicit false

namespace ChomskyNormal

/-- A filled table with the word and the nonterminals that it was filled for. A cell holds the
positions of nonterminals in ascending order. -/
structure Table where
  word : Text
  nonterminals : List Char
  cells : Array (List Nat)
deriving DecidableEq

namespace Table

def size (n : Nat) : Nat :=
  n * (n + 1) / 2

/-- The place of the stretch that starts at `i` and covers `span` characters. -/
def slot (n i span : Nat) : Nat :=
  (n * (n + 1) - (n - span + 1) * (n - span + 2)) / 2 + i

def length (t : Table) : Nat :=
  t.word.length

/-- The positions stored for the stretch that starts at `i` and covers `span` characters. -/
def entry (t : Table) (i span : Nat) : List Nat :=
  t.cells.getD (slot t.length i span) []

/-- The nonterminals that derive the characters from `i` up to `j`, in the order of declarations;
none outside the triangle. -/
def cell (t : Table) (i j : Nat) : List Char :=
  if i ≤ j ∧ j < t.length then
    (t.entry i (j - i + 1)).filterMap fun k => t.nonterminals[k]?
  else
    []

/-- A nonterminal derives the characters from `i` up to `j`. -/
def contains (t : Table) (i j : Nat) (x : Char) : Bool :=
  if i ≤ j ∧ j < t.length then
    (t.nonterminals.idxOf? x).any fun k => (t.entry i (j - i + 1)).contains k
  else
    false

/-- A nonterminal derives the whole word, which must not be empty. -/
def accepts (t : Table) (x : Char) : Bool :=
  decide (0 < t.length) && t.contains 0 (t.length - 1) x

end Table

end ChomskyNormal
