import ChomskyNormal.CharClass.Blank

/-!
Text as a list of characters, with the few operations on it that reading and drawing share.
-/

set_option autoImplicit false
set_option relaxedAutoImplicit false

namespace ChomskyNormal

/-- Words, lines, paths and messages are all lists of characters. -/
abbrev Text := List Char

namespace Text

/-- A blank is a character of the class of white space. -/
def isBlank (c : Char) : Bool :=
  CharClass.blank.has c

def trimEnd (t : Text) : Text :=
  (t.reverse.dropWhile isBlank).reverse

/-- The lines of a text: the pieces between its line feeds. -/
def lines (t : Text) : List Text :=
  t.splitOn '\n'

/-- Lines joined again, a line feed between any two and none at the end. -/
def unlines (ls : List Text) : Text :=
  ['\n'].intercalate ls

def quoted (t : Text) : Text :=
  '`' :: t ++ ['`']

def decimal (n : Nat) : Text :=
  Nat.toDigits 10 n

end Text

end ChomskyNormal
