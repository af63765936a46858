import ChomskyNormal.Path

/-!
Places in rule files, and the text of a message with its place in front.
-/

set_option autoImplicit false
set_option relaxedAutoImplicit false

namespace ChomskyNormal

/-- A line of a file, counted from one; line zero stands for the file as a whole. -/
structure Location where
  path : Text
  line : Nat
deriving DecidableEq

/-- Something that happened at a place. -/
structure Located (α : Type) where
  location : Location
  fault : α
deriving DecidableEq

namespace Location

def whole (path : Text) : Location :=
  ⟨path, 0⟩

/-- The path, followed by the line unless the whole file is meant. -/
def text (l : Location) : Text :=
  if l.line = 0 then l.path else l.path ++ ':' :: Text.decimal l.line

/-- Two places are the same when their lines are and their paths mean the same. -/
def same (l m : Location) : Bool :=
  Path.meaning l.path == Path.meaning m.path && l.line == m.line

/-- A message with its place in front: the place in red between brackets, two blanks, the message
in the default colour. -/
def mark (l : Location) (message : Text) : Text :=
  "\x1b[31;49;1m[".toList ++ l.text ++ "]\x1b[39;49;1m  ".toList ++ message ++ "\x1b[0m".toList

end Location

/-- Two located things are the same when their places are and what happened there is, in the given
sense. -/
def Located.same {α : Type} (sameFault : α → α → Bool) (e f : Located α) : Bool :=
  e.location.same f.location && sameFault e.fault f.fault

end ChomskyNormal
