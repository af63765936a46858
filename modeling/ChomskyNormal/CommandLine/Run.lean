import ChomskyNormal.CommandLine.Arguments
import ChomskyNormal.Grammar.Listing
import ChomskyNormal.Membership
import ChomskyNormal.RuleFile
import ChomskyNormal.Table.Drawing

/-!
One run of the program: its exit code and what it writes to both outputs.
-/

set_option autoImplicit false
set_option relaxedAutoImplicit false

namespace ChomskyNormal

/-- The exit code and the two outputs of a run. -/
structure Outcome where
  exit : Nat
  out : Text
  err : Text
deriving DecidableEq

namespace Outcome

def version : Outcome :=
  ⟨0, "cyk 0.1.0\n".toList, []⟩

def misuse : Outcome :=
  ⟨2, [], []⟩

end Outcome

namespace Invocation

/-- A text on a line of its own. -/
def line (t : Text) : Text :=
  t ++ ['\n']

/-- A message about the rule file as a whole, on a line of its own. -/
def complaint (i : Invocation) (message : Text) : Text :=
  line ((Location.whole i.file).mark message)

/-- How a word is shown; the empty one as a letter of its own. -/
def shown (w : Text) : Text :=
  if w = [] then ['ε'] else w

/-- The drawing of a table that the flags ask for. -/
def drawing (i : Invocation) (t : Table) : Text :=
  if .table ∈ i.flags then
    if .pretty ∈ i.flags then line t.pyramid else t.square
  else
    []

def verdict (i : Invocation) (g : Grammar) (w : Text) (t : Table) : Text :=
  line (shown w ++ ": ".toList ++ (if g.accepts t then "yes" else "no").toList) ++ i.drawing t

def answer (i : Invocation) (g : Grammar) (w : Text) : Except Refusal Table → Text
  | .ok t => i.verdict g w t
  | .error _ => []

def objection (i : Invocation) : Except Refusal Table → Text
  | .ok _ => []
  | .error r => i.complaint r.message

/-- The words are answered one after another, a refused one by an objection; then words are grown.
Any objection makes the run a failure. -/
def answers {σ : Type} (choose : Chooser σ) (s : σ) (i : Invocation) (g : Grammar) : Outcome :=
  let tables := i.words.map fun w => (w, g.table w)
  let grown := Samples.collect (g.sample choose none i.depth) i.amount s
  let listing := if .grammar ∈ i.flags then line g.listing else []
  let err :=
    tables.flatMap (fun (_, t) => i.objection t) ++
      match grown.fault with
      | some e => i.complaint e.message
      | none => []
  ⟨if err = [] then 0 else 1,
   listing ++ tables.flatMap (fun (w, t) => i.answer g w t) ++ grown.words.flatMap line,
   err⟩

/-- A run with what the path of the rule file led to. Nothing is answered unless the file holds a
grammar and the start symbol asked for is one of its nonterminals. -/
def run {σ : Type} (choose : Chooser σ) (s : σ) (content : Except FileFault Text)
    (i : Invocation) : Outcome :=
  match RuleFile.load i.file content with
  | .error es => ⟨1, [], es.flatMap fun e => line (e.location.mark e.fault.message)⟩
  | .ok g =>
      match i.start with
      | none => i.answers choose s g
      | some x =>
          match g.setStart x with
          | .error r => ⟨1, [], i.complaint r.message⟩
          | .ok g => i.answers choose s g

end Invocation

/-- What a command comes to, given what paths lead to. -/
def Command.outcome {σ : Type} (choose : Chooser σ) (s : σ)
    (content : Text → Except FileFault Text) : Command → Outcome
  | run i => i.run choose s (content i.file)
  | version => .version
  | misuse => .misuse

end ChomskyNormal
