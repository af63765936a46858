import ChomskyNormal.Grammar.Call
import ChomskyNormal.Location
import ChomskyNormal.RuleFile.Rule

/-!
Rule files: a rule on each line, blank lines and comments aside. A file is read into the grammar
that its rules declare, or all its faults are reported with their lines.
-/

set_option autoImplicit false
set_option relaxedAutoImplicit false

namespace ChomskyNormal.RuleFile

/-- Something found on a line, the first line being number one. -/
abbrev OnLine (α : Type) := Nat × α

/-- A line holds a rule unless it is blank or its first character that is no blank is a semicolon,
which starts a comment. -/
def isRule (line : Text) : Bool :=
  match line.dropWhile Text.isBlank with
  | [] => false
  | c :: _ => c != ';'

/-- The lines that hold rules, under their numbers among all lines. -/
def ruleLines (t : Text) : List (OnLine Text) :=
  (((Text.lines t).zipIdx 1).filter fun (line, _) => isRule line).map fun (line, n) => (n, line)

def outcomes (t : Text) : List (OnLine (Except Fault Rule)) :=
  (ruleLines t).map fun (n, line) => (n, Rule.ofLine line)

def malformed (t : Text) : List (OnLine Fault) :=
  (outcomes t).filterMap fun
    | (n, .error e) => some (n, e)
    | (_, .ok _) => none

def rules (t : Text) : List (OnLine Rule) :=
  (outcomes t).filterMap fun
    | (_, .error _) => none
    | (n, .ok r) => some (n, r)

/-- Every use of a nonterminal that heads no rule, as often as it is used. -/
def undefinedUses (rs : List (OnLine Rule)) : List (OnLine Fault) :=
  let heads := rs.map fun (_, r) => r.head
  rs.flatMap fun (n, r) =>
    let used := r.alternatives.flatMap Production.nonterminals
    (used.filter fun c => c ∉ heads).map fun c => (n, .undefined c)

/-- Each call only on the first line that makes it. -/
def firstOnly : List (OnLine Call) → List (OnLine Call)
  | [] => []
  | (n, call) :: rest => (n, call) :: (firstOnly rest).filter fun (_, c) => c ≠ call

def headCalls (rs : List (OnLine Rule)) : List (OnLine Call) :=
  firstOnly (rs.map fun (n, r) => (n, .declareNonterminal r.head))

def terminalCalls (rs : List (OnLine Rule)) : List (OnLine Call) :=
  firstOnly <| rs.flatMap fun (n, r) =>
    (r.alternatives.filterMap Production.letter?).map fun a => (n, .declareTerminal a)

def startCalls : List (OnLine Rule) → List (OnLine Call)
  | [] => []
  | (n, r) :: _ => [(n, .setStart r.head)]

def productionCalls (rs : List (OnLine Rule)) : List (OnLine Call) :=
  rs.flatMap fun (n, r) => r.alternatives.map fun p => (n, .addProduction r.head p.text)

/-- The calls that build the grammar of some rules: all declarations come before the first
production, so that rules may stand in any order. -/
def calls (rs : List (OnLine Rule)) : List (OnLine Call) :=
  headCalls rs ++ terminalCalls rs ++ startCalls rs ++ productionCalls rs

/-- The calls among some that are refused, made one after another. -/
def refusals (g : Grammar) : List (OnLine Call) → List (OnLine Fault)
  | [] => []
  | (n, call) :: rest =>
      match call.refusal? g with
      | some r => (n, .refused r) :: refusals (call.after g) rest
      | none => refusals (call.after g) rest

/-- What is wrong with a file. Uses of nonterminals are looked at only if all lines spell rules,
and the grammar is built only if all those nonterminals are defined. -/
def faults (t : Text) : List (OnLine Fault) :=
  match malformed t, undefinedUses (rules t) with
  | [], [] => refusals .empty (calls (rules t))
  | [], undefined => undefined
  | bad, _ => bad

def grammar (t : Text) : Grammar :=
  Grammar.empty.afterAll ((calls (rules t)).map Prod.snd)

/-- Read a rule file: its grammar if nothing is wrong with it, else all its faults in order. -/
def read (path t : Text) : Except (List (Located Fault)) Grammar :=
  match faults t with
  | [] => .ok (grammar t)
  | found => .error (found.map fun (n, e) => ⟨⟨path, n⟩, e⟩)

/-- Read a rule file from what a path led to: its text, or a failure to read it, which is reported
of the file as a whole. -/
def load (path : Text) : Except FileFault Text → Except (List (Located Fault)) Grammar
  | .ok t => read path t
  | .error e => .error [⟨.whole path, .unreadable e⟩]

end ChomskyNormal.RuleFile
