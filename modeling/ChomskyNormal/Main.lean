import ChomskyNormal.CommandLine.Run
import ChomskyNormal.Draws
import ChomskyNormal.Folder

/-!
The program: it reads the rule file, takes a random seed, and prints the outcome of its run.
-/

set_option autoImplicit false
set_option relaxedAutoImplicit false

namespace ChomskyNormal.Main

/-- The system's number for a directory in place of a file, which some calls give negated. -/
def namesDirectory (code : UInt32) : Bool :=
  code == 21 || code == 0 - 21

/-- The reason for which the system did not let a file be read. -/
def faultOf (e : IO.Error) : FileFault :=
  match e with
  | .noFileOrDirectory _ _ _ => Folder.notFound
  | .permissionDenied _ _ _ => ⟨.permissionDenied, "Permission denied (os error 13)".toList⟩
  | .inappropriateType _ code _ =>
      if namesDirectory code then Folder.isADirectory else Folder.notADirectory
  | other => ⟨.other, (toString other).toList⟩

def content (path : Text) : IO (Except FileFault Text) := do
  try
    let bytes ← IO.FS.readBinFile (String.ofList path)
    return Folder.decode bytes
  catch e =>
    return .error (faultOf e)

def seed : IO UInt64 := do
  let bytes ← IO.getRandomBytes 8
  return bytes.data.foldl (fun n b => n * 256 + b.toUInt64) 0

def finish (o : Outcome) : IO UInt32 := do
  (← IO.getStdout).putStr (String.ofList o.out)
  (← IO.getStderr).putStr (String.ofList o.err)
  return o.exit.toUInt32

end ChomskyNormal.Main

open ChomskyNormal in
def main (args : List String) : IO UInt32 := do
  let command := CommandLine.read (args.map String.toList)
  let content ← match command with
    | .run i => Main.content i.file
    | _ => pure (.error Folder.notFound)
  let seed ← Main.seed
  Main.finish (command.outcome Draws.choose (.start [] seed) fun _ => content)
