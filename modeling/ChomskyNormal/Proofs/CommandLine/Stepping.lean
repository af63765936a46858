import ChomskyNormal.CommandLine.Run
import ChomskyNormal.Proofs.Messages
import ChomskyNormal.Proofs.Sampling

/-!
A run of the program step by step: the words of its command line one after another, then words to
be grown, with two outputs that are written to along the way. The first word that cannot be grown
ends the run, and a word that cannot be examined is remembered until its end. Outcomes put together
from the answers to all words are what these steps come to.
-/

set_option autoImplicit false
set_option relaxedAutoImplicit false

namespace ChomskyNormal

/-- A fault with its place, as a line of its own: between brackets in red the path, with the number
of the line unless the file as a whole is meant, then two blanks and the message. -/
def Located.report {α : Type} (message : α → Text) (e : Located α) : Text :=
  "\x1b[31;49;1m[".toList ++ e.location.path ++
    (if e.location.line = 0 then [] else ':' :: Nat.toDigits 10 e.location.line) ++
    "]\x1b[39;49;1m  ".toList ++ message e.fault ++ "\x1b[0m\n".toList

structure Console where
  out : Text
  err : Text
  failed : Bool

namespace Console

def close (c : Console) : Outcome :=
  ⟨if c.failed then 1 else 0, c.out, c.err⟩

/-- Words are grown and printed one after another. A fault ends the run at once. -/
def grow {σ : Type} (one : σ → Except (Located SampleFault) (Text × σ)) :
    Nat → σ → Console → Outcome
  | 0, _, c => c.close
  | n + 1, s, c =>
      match one s with
      | .error e => ⟨1, c.out, c.err ++ e.report SampleFault.message⟩
      | .ok (w, s) => grow one n s { c with out := c.out ++ Invocation.line w }

end Console

namespace Invocation

/-- One word of the command line: a verdict and the drawing asked for, or else a fault of the file
as a whole, which marks the run as failed. -/
def examine (i : Invocation) (g : Grammar) (c : Console) (w : Text) : Console :=
  match g.table w with
  | .error r => ⟨c.out, c.err ++ Located.report Refusal.message ⟨⟨i.file, 0⟩, r⟩, true⟩
  | .ok t =>
      let c := { c with
        out := c.out ++
          line (shown w ++ ": ".toList ++ (if g.accepts t then "yes" else "no").toList) }
      if .table ∈ i.flags then
        { c with out := c.out ++ if .pretty ∈ i.flags then line t.pyramid else t.square }
      else
        c

/-- The run as a sequence of steps, which may end with the rule file, with the start symbol or with
a word that cannot be grown. -/
def execute {σ : Type} (choose : Chooser σ) (s : σ) (content : Except FileFault Text)
    (i : Invocation) : Outcome :=
  match RuleFile.load i.file content with
  | .error es => ⟨1, [], es.flatMap (Located.report Fault.message)⟩
  | .ok g =>
      match i.start.elim (.ok g) g.setStart with
      | .error r => ⟨1, [], Located.report Refusal.message ⟨⟨i.file, 0⟩, r⟩⟩
      | .ok g =>
          let opening := if .grammar ∈ i.flags then line g.listing else []
          (i.words.foldl (i.examine g) ⟨opening, [], false⟩).grow
            (g.sampleIn choose i.file none i.depth) i.amount s

variable {σ : Type} {i : Invocation} {g : Grammar}

theorem report_eq {α : Type} (message : α → Text) (e : Located α) :
    e.report message = line (e.location.mark (message e.fault)) := by
  have hend : "\x1b[0m\n".toList = "\x1b[0m".toList ++ ['\n'] := by decide
  unfold Located.report line Location.mark
  rw [Location.text_eq, hend]
  simp only [List.append_assoc, Location.lineText, Text.decimal]

theorem report_ne_nil {α : Type} (message : α → Text) (e : Located α) :
    e.report message ≠ [] := by
  simp [report_eq, line]

theorem complaint_eq {α : Type} (i : Invocation) (message : α → Text) (e : α) :
    i.complaint (message e) = Located.report message ⟨⟨i.file, 0⟩, e⟩ :=
  (report_eq message ⟨⟨i.file, 0⟩, e⟩).symm

private theorem objection_eq_nil_iff {r : Except Refusal Table} :
    i.objection r = [] ↔ r.isOk = true := by
  cases r with
  | error r => simp [objection, complaint, line, Except.isOk, Except.toBool]
  | ok t => simp [objection, Except.isOk, Except.toBool]

private theorem examine_eq (i : Invocation) (g : Grammar) (c : Console) (w : Text) :
    i.examine g c w = ⟨c.out ++ i.answer g w (g.table w), c.err ++ i.objection (g.table w),
      c.failed || !(g.table w).isOk⟩ := by
  rw [examine]
  cases g.table w with
  | error r => simp [answer, objection, complaint_eq, Except.isOk, Except.toBool]
  | ok t =>
    by_cases htable : .table ∈ i.flags
    · simp [answer, objection, verdict, drawing, htable, Except.isOk, Except.toBool]
    · simp [answer, objection, verdict, drawing, htable, Except.isOk, Except.toBool]

private theorem foldl_examine (i : Invocation) (g : Grammar) (ws : List Text) (c : Console) :
    ws.foldl (i.examine g) c = ⟨c.out ++ ws.flatMap fun w => i.answer g w (g.table w),
      c.err ++ ws.flatMap fun w => i.objection (g.table w),
      c.failed || ws.any fun w => !(g.table w).isOk⟩ := by
  induction ws generalizing c with
  | nil => simp
  | cons w ws ih =>
    rw [List.foldl_cons, ih, examine_eq]
    simp [Bool.or_assoc]

private theorem grow_eq (i : Invocation) (g : Grammar) (choose : Chooser σ) (n : Nat) (s : σ)
    (c : Console) :
    c.grow (g.sampleIn choose i.file none i.depth) n s =
      ⟨if c.failed || (Samples.collect (g.sample choose none i.depth) n s).fault.isSome
        then 1 else 0,
      c.out ++ (Samples.collect (g.sample choose none i.depth) n s).words.flatMap line,
      c.err ++ (Samples.collect (g.sample choose none i.depth) n s).fault.elim []
        fun e => i.complaint e.message⟩ := by
  induction n generalizing s c with
  | zero => simp [Console.grow, Console.close, Samples.collect]
  | succ n ih =>
    rw [Console.grow, Samples.collect]
    cases hw : g.sample choose none i.depth s with
    | error e =>
      rw [Grammar.sampleIn_eq_error.mpr hw]
      simp [complaint_eq, Location.whole]
    | ok r =>
      rw [Grammar.sampleIn_eq_ok.mpr hw]
      simp [ih]

private theorem err_eq_nil_iff {ws : List Text} {fault : Option SampleFault} :
    (ws.flatMap fun w => i.objection (g.table w)) ++
        fault.elim [] (fun e => i.complaint e.message) = [] ↔
      ¬ (ws.any (fun w => !(g.table w).isOk) || fault.isSome) = true := by
  have hfault : fault.elim [] (fun e => i.complaint e.message) = [] ↔ fault.isSome = false := by
    cases fault <;> simp [complaint, line]
  simp [objection_eq_nil_iff, hfault]

theorem answers_eq_outcome (i : Invocation) (g : Grammar) (choose : Chooser σ) (s : σ) :
    i.answers choose s g =
      ⟨if (i.words.flatMap fun w => i.objection (g.table w)) ++
          (Samples.collect (g.sample choose none i.depth) i.amount s).fault.elim []
            (fun e => i.complaint e.message) = [] then 0 else 1,
        (if .grammar ∈ i.flags then line g.listing else []) ++
          (i.words.flatMap fun w => i.answer g w (g.table w)) ++
          (Samples.collect (g.sample choose none i.depth) i.amount s).words.flatMap line,
        (i.words.flatMap fun w => i.objection (g.table w)) ++
          (Samples.collect (g.sample choose none i.depth) i.amount s).fault.elim []
            fun e => i.complaint e.message⟩ := by
  rw [answers]
  simp only [List.flatMap_map]
  cases (Samples.collect (g.sample choose none i.depth) i.amount s).fault <;> rfl

private theorem answers_eq_grow (i : Invocation) (g : Grammar) (choose : Chooser σ) (s : σ) :
    i.answers choose s g =
      (i.words.foldl (i.examine g)
        ⟨if .grammar ∈ i.flags then line g.listing else [], [], false⟩).grow
          (g.sampleIn choose i.file none i.depth) i.amount s := by
  rw [answers_eq_outcome, foldl_examine, grow_eq]
  simp only [err_eq_nil_iff, List.nil_append, Bool.false_or, ite_not]

theorem run_of_unread {choose : Chooser σ} {s : σ} {content : Except FileFault Text}
    {es : List (Located Fault)} (hload : RuleFile.load i.file content = .error es) :
    i.run choose s content = ⟨1, [], es.flatMap (Located.report Fault.message)⟩ := by
  have hreport : Located.report Fault.message =
      fun e : Located Fault => line (e.location.mark e.fault.message) :=
    funext (report_eq Fault.message)
  rw [run, hload, hreport]

/-- What a run comes to is what its steps come to. -/
theorem run_eq_execute (i : Invocation) (choose : Chooser σ) (s : σ)
    (content : Except FileFault Text) : i.run choose s content = i.execute choose s content := by
  cases hload : RuleFile.load i.file content with
  | error es => rw [run_of_unread hload, execute, hload]
  | ok g =>
    rw [run, execute, hload]
    cases i.start with
    | none => exact answers_eq_grow i g choose s
    | some x =>
      simp only [Option.elim_some]
      cases g.setStart x with
      | error r => simp only [complaint_eq]
      | ok g => exact answers_eq_grow i g choose s

end Invocation

end ChomskyNormal
