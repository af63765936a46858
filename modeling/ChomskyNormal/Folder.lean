import ChomskyNormal.Path
import ChomskyNormal.RuleFile.Fault

/-!
A folder with files and empty subfolders, and what opening a path in it leads to. What lies
outside the folder is taken to hold nothing.
-/

set_option autoImplicit false
set_option relaxedAutoImplicit false

namespace ChomskyNormal

/-- What can stand in a folder under a name. -/
inductive Entry where
  | file (bytes : ByteArray)
  | directory

/-- Named entries. -/
abbrev Folder := List (Text × Entry)

namespace Folder

/-- Where the pieces of a path have led. -/
inductive Place where
  | inside
  | subfolder
  | outside
  | file (bytes : ByteArray)

def notFound : FileFault :=
  ⟨.notFound, "No such file or directory (os error 2)".toList⟩

def notADirectory : FileFault :=
  ⟨.notADirectory, "Not a directory (os error 20)".toList⟩

def isADirectory : FileFault :=
  ⟨.isADirectory, "Is a directory (os error 21)".toList⟩

def notText : FileFault :=
  ⟨.invalidData, "stream did not contain valid UTF-8".toList⟩

/-- What a name in the folder stands for. -/
def find (d : Folder) (name : Text) : Except FileFault Place :=
  match d.lookup name with
  | some (.file bytes) => .ok (.file bytes)
  | some .directory => .ok .subfolder
  | none => .error notFound

/-- Go one piece of a path further. Nothing leads on from a file, not even a dot or a slash. -/
def step (d : Folder) : Place → Text → Except FileFault Place
  | .file _, _ => .error notADirectory
  | place, [] => .ok place
  | place, ['.'] => .ok place
  | .subfolder, ['.', '.'] => .ok .inside
  | _, ['.', '.'] => .ok .outside
  | .inside, name => d.find name
  | _, _ => .error notFound

/-- The place that a path names. -/
def walk (d : Folder) (path : Text) : Except FileFault Place :=
  match path with
  | [] => .error notFound
  | '/' :: rest => (Path.pieces rest).foldlM d.step .outside
  | _ => (Path.pieces path).foldlM d.step .inside

def decode (bytes : ByteArray) : Except FileFault Text :=
  match String.fromUTF8? bytes with
  | some s => .ok s.toList
  | none => .error notText

/-- The text of the file that a path names. -/
def readText (d : Folder) (path : Text) : Except FileFault Text :=
  match d.walk path with
  | .error e => .error e
  | .ok (.file bytes) => decode bytes
  | .ok _ => .error isADirectory

end Folder

end ChomskyNormal
