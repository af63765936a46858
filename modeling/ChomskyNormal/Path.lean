import ChomskyNormal.Text

/-!
Paths as text: the pieces between slashes, and when two spellings name the same place.
-/

set_option autoImplicit false
set_option relaxedAutoImplicit false

namespace ChomskyNormal.Path

/-- The pieces of a path between its slashes. -/
def pieces (p : Text) : List Text :=
  p.splitOn '/'

/-- A piece that leads nowhere: nothing between two slashes, or a single dot. -/
def idle (piece : Text) : Bool :=
  piece == [] || piece == ['.']

/-- What a path says whatever its spelling: whether it starts at the root, and the pieces that
count. A dot counts only in front of all other pieces of a path that does not start at the root. -/
def meaning (p : Text) : Bool × List Text :=
  match pieces p with
  | [] => (false, [])
  | [only] => (false, if only == [] then [] else [only])
  | first :: rest =>
      (first == [], (if first == [] then [] else [first]) ++ rest.filter fun s => !idle s)

end ChomskyNormal.Path
