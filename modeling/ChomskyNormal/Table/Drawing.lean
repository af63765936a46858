import ChomskyNormal.Table

/-!
Two drawings of a table: the square of its cells, and a pyramid with the word at its foot.
-/

set_option autoImplicit false
set_option relaxedAutoImplicit false

namespace ChomskyNormal.Table

/-- A line for each start, holding the cells of all ends without separators; each line ends in a
line feed. -/
def square (t : Table) : Text :=
  (List.range t.length).flatMap fun i =>
    (List.range t.length).flatMap (fun j => t.cell i j) ++ ['\n']

/-- A cell as it stands in the pyramid, where an empty one shows as a dash. -/
def field (t : Table) (i span : Nat) : Text :=
  match t.cell i (i + span - 1) with
  | [] => ['-']
  | x :: xs => x :: xs

def fields (t : Table) (span : Nat) : List Text :=
  (List.range (t.length + 1 - span)).map fun i => t.field i span

def spans (t : Table) : List Nat :=
  (List.range' 1 t.length).reverse

def width (t : Table) : Nat :=
  (t.spans.flatMap fun span => (t.fields span).map List.length).foldl max 1

/-- The cells of one length, padded to a width, with bars between them. -/
def row (t : Table) (width span : Nat) : Text :=
  " | ".toList.intercalate ((t.fields span).map fun f => f.rightpad width ' ')

/-- The characters of the word, padded to a width, each below its own cell. -/
def foot (t : Table) (width : Nat) : Text :=
  "   ".toList.intercalate (t.word.map fun c => [c].rightpad width ' ')

/-- The longest stretch on top, the single characters at the bottom, then the word. All cells have
one width, and blanks at the ends of lines are left out. -/
def pyramid (t : Table) : Text :=
  let width := t.width
  Text.unlines ((t.spans.map (t.row width) ++ [t.foot width]).map Text.trimEnd)

end ChomskyNormal.Table
