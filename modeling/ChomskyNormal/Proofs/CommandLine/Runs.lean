import ChomskyNormal.Proofs.CommandLine.Stepping
import ChomskyNormal.Proofs.RuleFile.Reports
import ChomskyNormal.Proofs.Sampling.Series

/-!
Runs of the program. A run comes to nothing when the rule file cannot be read or the start symbol
asked for is not declared. Otherwise it consists of answers of the grammar alone: a block for each
word that can be examined, a fault for each other word, and all words that are to be grown or none.
-/

set_option autoImplicit false
set_option relaxedAutoImplicit false

namespace ChomskyNormal

namespace Grammar

def refusal? (g : Grammar) (w : Text) : Option Refusal :=
  match g.table w with
  | .ok _ => none
  | .error r => some r

/-- The grammar with the start symbol that is asked for, if one is. -/
def startingAt (g : Grammar) (asked : Option Char) : Grammar :=
  { g with start := g.origin asked }

variable {g : Grammar}

private theorem WellFormed.startingAt (hg : g.WellFormed) {asked : Option Char}
    (hasked : ∀ x, asked = some x → x ∈ g.nonterminals) : (g.startingAt asked).WellFormed := by
  cases asked with
  | none => exact hg
  | some x => exact hg.setStart (hasked x rfl)

private theorem accepts_eq_of_table {w : Text} {t : Table} (ht : g.table w = .ok t) :
    g.accepts t = decide (g.derives w = .ok true) := by
  have hderives : g.derives w = .ok (g.accepts t) := derives_eq_ok.mpr ⟨t, ht, rfl⟩
  simp [hderives]

end Grammar

namespace Invocation

/-- The answer to a word: the word, whether the start symbol derives it, and the drawing of its
table that is asked for. -/
def block (i : Invocation) (g : Grammar) (w : Text) : Text :=
  (if w = [] then ['ε'] else w) ++ ": ".toList ++
    (if g.derives w = .ok true then "yes" else "no").toList ++ ['\n'] ++
  match g.table w with
  | .ok t =>
      if .table ∈ i.flags then
        if .pretty ∈ i.flags then t.pyramid ++ ['\n'] else t.square
      else
        []
  | .error _ => []

/-- An outcome consists of answers of a grammar: the listing if it is asked for, a block for each
word that can be examined and a fault for each other word, both in the order of the words, then all
words to be grown in a series, or none of them and one fault. Whether they can be grown depends on
the grammar only. -/
structure Answers {σ : Type} (choose : Chooser σ) (s : σ) (i : Invocation) (g : Grammar)
    (grown : List Text) (fault : Option (Located SampleFault)) (o : Outcome) : Prop where
  out : o.out = (if .grammar ∈ i.flags then g.listing ++ ['\n'] else []) ++
    (i.words.filter fun w => (g.table w).isOk).flatMap (i.block g) ++
    grown.flatMap fun w => w ++ ['\n']
  err : o.err = (i.words.filterMap g.refusal?).flatMap
      (fun r => Located.report Refusal.message ⟨⟨i.file, 0⟩, r⟩) ++
    fault.elim [] (Located.report SampleFault.message)
  grown_all_or_none :
    (fault = none ∧ grown.length = i.amount ∧
      ∃ s', Samples.Series (g.sampleIn choose i.file none i.depth) s grown s') ∨
    (grown = [] ∧ 0 < i.amount ∧ ∃ e, fault = some ⟨⟨i.file, 0⟩, e⟩ ∧
      g.sampleIn choose i.file none i.depth s = .error ⟨⟨i.file, 0⟩, e⟩)
  fault_eq_none : fault = none ↔ i.amount = 0 ∨ ∃ w, g.derives w = .ok true

variable {σ : Type} {choose : Chooser σ} {s : σ} {content : Except FileFault Text}
  {i : Invocation} {g : Grammar} {w : Text}

private theorem answer_eq (i : Invocation) (g : Grammar) (w : Text) :
    i.answer g w (g.table w) = if (g.table w).isOk then i.block g w else [] := by
  cases ht : g.table w with
  | error r => rfl
  | ok t =>
    have hok : (Except.ok t : Except Refusal Table).isOk = true := rfl
    rw [if_pos hok]
    simp [answer, verdict, block, drawing, shown, line, ht, Grammar.accepts_eq_of_table ht]

private theorem objection_eq (i : Invocation) (g : Grammar) (w : Text) :
    i.objection (g.table w) =
      (g.refusal? w).elim [] fun r => Located.report Refusal.message ⟨⟨i.file, 0⟩, r⟩ := by
  rw [Grammar.refusal?]
  cases g.table w with
  | error r => exact complaint_eq i Refusal.message r
  | ok t => rfl

private theorem flatMap_answer (i : Invocation) (g : Grammar) (ws : List Text) :
    (ws.flatMap fun w => i.answer g w (g.table w)) =
      (ws.filter fun w => (g.table w).isOk).flatMap (i.block g) := by
  induction ws with
  | nil => rfl
  | cons w ws ih =>
    rw [List.flatMap_cons, ih, answer_eq, List.filter_cons]
    by_cases hw : (g.table w).isOk = true
    · rw [if_pos hw, if_pos hw, List.flatMap_cons]
    · rw [if_neg hw, if_neg hw, List.nil_append]

private theorem flatMap_objection (i : Invocation) (g : Grammar) (ws : List Text) :
    (ws.flatMap fun w => i.objection (g.table w)) = (ws.filterMap g.refusal?).flatMap
      fun r => Located.report Refusal.message ⟨⟨i.file, 0⟩, r⟩ := by
  induction ws with
  | nil => rfl
  | cons w ws ih =>
    rw [List.flatMap_cons, ih, objection_eq]
    cases hw : g.refusal? w with
    | none => rw [List.filterMap_cons_none hw, Option.elim_none, List.nil_append]
    | some r => rw [List.filterMap_cons_some hw, Option.elim_some, List.flatMap_cons]

private theorem exists_answers (hchoose : choose.InRange) (hg : g.WellFormed) (i : Invocation)
    (s : σ) : ∃ grown fault, Answers choose s i g grown fault (i.answers choose s g) := by
  rw [answers_eq_outcome, flatMap_answer, flatMap_objection]
  rcases Grammar.collect_cases hchoose hg i.depth i.amount s with
    ⟨hcan, words, s', hseries, hlength, hcollect⟩ | ⟨hpos, hno, e, herror, hcollect⟩
  · refine ⟨words, none, ?_, ?_, .inl ⟨rfl, hlength, s', ?_⟩, ?_⟩
    · simp only [hcollect]
      rfl
    · simp only [hcollect, Option.elim_none]
    · exact hseries.imp fun _ _ h => Grammar.sampleIn_eq_ok.mpr h
    · exact ⟨fun _ => hcan, fun _ => rfl⟩
  · refine ⟨[], some ⟨⟨i.file, 0⟩, e⟩, ?_, ?_, .inr ⟨rfl, hpos, _, rfl, ?_⟩, ?_⟩
    · simp only [hcollect]
      rfl
    · simp only [hcollect, Option.elim_some, complaint_eq i SampleFault.message e]
    · exact Grammar.sampleIn_eq_error.mpr herror
    · constructor
      · intro h
        cases h
      · rintro (hzero | hderives)
        · omega
        · exact absurd hderives hno

private theorem answers_out_of_refused {before after : List Text}
    (hwords : i.words = before ++ w :: after) (hw : (g.table w).isOk = false) :
    (({ i with words := before ++ after } : Invocation).answers choose s g).out =
      (i.answers choose s g).out := by
  have hanswer : i.answer g w (g.table w) = [] := by
    rw [answer_eq, hw]
    rfl
  simp only [answers_eq_outcome, hwords, List.flatMap_append, List.flatMap_cons, hanswer,
    List.nil_append]
  rfl

private theorem run_of_undeclared {x : Char} (hload : RuleFile.load i.file content = .ok g)
    (hx : i.start = some x) (hundeclared : x ∉ g.nonterminals) :
    i.run choose s content =
      ⟨1, [], Located.report Refusal.message ⟨⟨i.file, 0⟩, .undeclared x⟩⟩ := by
  have hstart : g.setStart x = .error (.undeclared x) := if_neg hundeclared
  simp only [run, hload, hx, hstart, complaint_eq i Refusal.message]

private theorem run_eq_answers (hload : RuleFile.load i.file content = .ok g)
    (hstart : ∀ x, i.start = some x → x ∈ g.nonterminals) :
    i.run choose s content = i.answers choose s (g.startingAt i.start) := by
  rw [run, hload]
  cases hx : i.start with
  | none => rfl
  | some x =>
    simp only [Grammar.setStart_eq_ok.mpr ⟨hstart x hx, rfl⟩]
    rfl

private theorem run_exit (i : Invocation) (choose : Chooser σ) (s : σ)
    (content : Except FileFault Text) :
    (i.run choose s content).exit = if (i.run choose s content).err = [] then 0 else 1 := by
  cases hload : RuleFile.load i.file content with
  | error es =>
    obtain ⟨e, es, rfl⟩ := List.exists_cons_of_ne_nil (RuleFile.ne_nil_of_load hload)
    simp [run_of_unread hload, report_ne_nil]
  | ok g =>
    by_cases hstart : ∀ x, i.start = some x → x ∈ g.nonterminals
    · rw [run_eq_answers hload hstart, answers_eq_outcome]
    · push Not at hstart
      obtain ⟨x, hx, hundeclared⟩ := hstart
      rw [run_of_undeclared hload hx hundeclared, if_neg (report_ne_nil _ _)]

/-- A run is consistent with the grammar it reads. It comes to what its steps come to and fails when
something is written to the second output. If the file cannot be read, or the start symbol asked for
is not declared, that is all it says; otherwise it answers from the grammar with this start symbol,
and what it prints would be the same without any word that is refused. -/
theorem run_answers_from_grammar (hchoose : choose.InRange) (i : Invocation) (s : σ)
    (content : Except FileFault Text) :
    i.run choose s content = i.execute choose s content ∧
    (i.run choose s content).exit = (if (i.run choose s content).err = [] then 0 else 1) ∧
    (∀ es, RuleFile.load i.file content = .error es →
      i.run choose s content = ⟨1, [], es.flatMap (Located.report Fault.message)⟩) ∧
    ∀ g, RuleFile.load i.file content = .ok g →
      (∀ x, i.start = some x → x ∉ g.nonterminals →
        i.run choose s content =
          ⟨1, [], Located.report Refusal.message ⟨⟨i.file, 0⟩, .undeclared x⟩⟩) ∧
      ((∀ x, i.start = some x → x ∈ g.nonterminals) →
        (∃ grown fault,
          Answers choose s i (g.startingAt i.start) grown fault (i.run choose s content)) ∧
        ∀ before w after, i.words = before ++ w :: after →
          ((g.startingAt i.start).table w).isOk = false →
          (({ i with words := before ++ after } : Invocation).run choose s content).out =
            (i.run choose s content).out) := by
  refine ⟨run_eq_execute i choose s content, run_exit i choose s content, ?_, ?_⟩
  · intro es hload
    exact run_of_unread hload
  · intro g hload
    refine ⟨fun x hx hundeclared => run_of_undeclared hload hx hundeclared, ?_⟩
    intro hstart
    have hwf : (g.startingAt i.start).WellFormed :=
      (RuleFile.reachable_of_load hload).wellFormed.startingAt hstart
    refine ⟨?_, ?_⟩
    · rw [run_eq_answers hload hstart]
      exact exists_answers hchoose hwf i s
    · intro before w after hwords hw
      have hless : (({ i with words := before ++ after } : Invocation).run choose s content) =
          ({ i with words := before ++ after } : Invocation).answers choose s
            (g.startingAt i.start) :=
        run_eq_answers hload hstart
      rw [hless, run_eq_answers hload hstart]
      exact answers_out_of_refused hwords hw

private theorem eq_of_failed {o : Outcome} {out err : Text}
    (hexit : o.exit = if o.err = [] then 0 else 1) (hout : o.out = out) (herr : o.err = err)
    (hne : err ≠ []) : o = ⟨1, out, err⟩ := by
  rw [herr, if_neg hne] at hexit
  rw [← hexit, ← hout, ← herr]

namespace Answers

variable {grown : List Text} {fault : Option (Located SampleFault)} {o : Outcome}

private theorem grown_eq (h : Answers choose s i g grown fault o) (hone : i.amount = 1)
    (hw : (g.sampleIn choose i.file none i.depth s).map Prod.fst = .ok w) :
    grown = [w] ∧ fault = none := by
  rcases h.grown_all_or_none with ⟨hnone, hlength, s', hseries⟩ | ⟨_, _, e, _, he⟩
  · obtain ⟨v, rfl⟩ := List.length_eq_one_iff.mp (hlength.trans hone)
    cases hseries with
    | cons hv _ =>
      rw [hv] at hw
      exact ⟨congrArg (fun w => [w]) (Except.ok.inj hw), hnone⟩
  · rw [he] at hw
    cases hw

private theorem fault_eq (h : Answers choose s i g grown fault o) (hone : i.amount = 1)
    {e : Located SampleFault} (he : g.sampleIn choose i.file none i.depth s = .error e) :
    grown = [] ∧ fault = some e := by
  rcases h.grown_all_or_none with ⟨_, hlength, s', hseries⟩ | ⟨hnil, _, e', hfault, he'⟩
  · obtain ⟨v, rfl⟩ := List.length_eq_one_iff.mp (hlength.trans hone)
    cases hseries with
    | cons hv _ =>
      rw [hv] at he
      cases he
  · exact ⟨hnil, hfault.trans (congrArg some (Except.error.inj (he'.symm.trans he)))⟩

end Answers

def pairFile : Text :=
  "S::=AB\nA::=a\nB::=b".toList

def brokenFile : Text :=
  "S::=AB\nA:=a\nB::=b".toList

def loopFile : Text :=
  "S::=SS".toList

def pairing (flags : List Flag) (asked : Option Char) (words : List Text) : Invocation :=
  ⟨"pair".toList, words, flags, asked, 1, 3⟩

def pairRun (t : Text) (flags : List Flag) (asked : Option Char) (words : List Text) : Outcome :=
  (pairing flags asked words).run Draws.choose (.start [7] 5) (.ok t)

/-- A word with a foreign letter makes the run fail but leaves no trace in what is printed, be it in
lines or as a pyramid. With a start symbol that is not declared, or half a sign, nothing is printed;
and nothing can be grown from a grammar of no words. -/
theorem pairing_answers_from_grammar :
    Chooser.InRange Draws.choose ∧
      pairRun pairFile [.grammar, .table] none [['a', 'b'], ['x'], []] =
        ⟨1, "S::=AB\nA::=a\nB::=b\nab: yes\nAS\nB\nε: no\nab\n".toList,
          ("\x1b[31;49;1m[pair]\x1b[39;49;1m  " ++
            "Invalid query: `x` is not a terminal of the grammar\x1b[0m\n").toList⟩ ∧
      (pairRun pairFile [.grammar, .table] none [['a', 'b'], []]).out =
        (pairRun pairFile [.grammar, .table] none [['a', 'b'], ['x'], []]).out ∧
      pairRun pairFile [.table, .pretty] (some 'S') [['x'], ['a', 'b']] =
        ⟨1, "ab: yes\nS\nA | B\na   b\nab\n".toList,
          ("\x1b[31;49;1m[pair]\x1b[39;49;1m  " ++
            "Invalid query: `x` is not a terminal of the grammar\x1b[0m\n").toList⟩ ∧
      pairRun pairFile [.grammar] (some 'Z') [['a', 'b'], ['x'], []] =
        ⟨1, [],
          "\x1b[31;49;1m[pair]\x1b[39;49;1m  Symbol `Z` was never declared\x1b[0m\n".toList⟩ ∧
      pairRun brokenFile [.grammar] none [['a', 'b']] =
        ⟨1, [], "\x1b[31;49;1m[pair:2]\x1b[39;49;1m  Malformed `::=`\x1b[0m\n".toList⟩ ∧
      pairRun loopFile [.grammar] none [] =
        ⟨1, "S::=SS\n".toList,
          ("\x1b[31;49;1m[pair]\x1b[39;49;1m  " ++
            "Nonterminal `S` does not derive any word\x1b[0m\n").toList⟩ := by
  have hload : RuleFile.load "pair".toList (.ok pairFile) = .ok (RuleFile.grammar pairFile) := by
    decide +kernel
  have hbroken : RuleFile.load "pair".toList (.ok brokenFile) =
      .error [⟨⟨"pair".toList, 2⟩, .brokenSign⟩] := by
    decide +kernel
  have hloop : RuleFile.load "pair".toList (.ok loopFile) = .ok (RuleFile.grammar loopFile) := by
    decide +kernel
  obtain ⟨_, hexit, _, hanswers⟩ := run_answers_from_grammar Draws.choose_inRange
    (pairing [.grammar, .table] none [['a', 'b'], ['x'], []]) (.start [7] 5) (.ok pairFile)
  obtain ⟨_, hexit₁, _, hanswers₁⟩ := run_answers_from_grammar Draws.choose_inRange
    (pairing [.table, .pretty] (some 'S') [['x'], ['a', 'b']]) (.start [7] 5) (.ok pairFile)
  obtain ⟨_, _, _, hundeclared⟩ := run_answers_from_grammar Draws.choose_inRange
    (pairing [.grammar] (some 'Z') [['a', 'b'], ['x'], []]) (.start [7] 5) (.ok pairFile)
  obtain ⟨_, _, hunread, _⟩ := run_answers_from_grammar Draws.choose_inRange
    (pairing [.grammar] none [['a', 'b']]) (.start [7] 5) (.ok brokenFile)
  obtain ⟨_, hexit₂, _, hanswers₂⟩ := run_answers_from_grammar Draws.choose_inRange
    (pairing [.grammar] none []) (.start [7] 5) (.ok loopFile)
  obtain ⟨⟨_, _, h⟩, hrefused⟩ := (hanswers _ hload).2 (by simp [pairing])
  obtain ⟨rfl, rfl⟩ := h.grown_eq (w := ['a', 'b']) rfl (by decide +kernel)
  obtain ⟨⟨_, _, h₁⟩, _⟩ := (hanswers₁ _ hload).2 (by
    rintro x ⟨⟩
    decide +kernel)
  obtain ⟨rfl, rfl⟩ := h₁.grown_eq (w := ['a', 'b']) rfl (by decide +kernel)
  obtain ⟨⟨_, _, h₂⟩, _⟩ := (hanswers₂ _ hloop).2 (by simp [pairing])
  obtain ⟨rfl, rfl⟩ := h₂.fault_eq (e := ⟨⟨"pair".toList, 0⟩, .barren 'S'⟩) rfl
    (by decide +kernel)
  refine ⟨Draws.choose_inRange, ?_, ?_, ?_, ?_, ?_, ?_⟩
  · exact eq_of_failed hexit (h.out.trans (by decide +kernel)) (h.err.trans (by decide +kernel))
      (by decide)
  · exact hrefused [['a', 'b']] ['x'] [[]] rfl (by decide +kernel)
  · exact eq_of_failed hexit₁ (h₁.out.trans (by decide +kernel)) (h₁.err.trans (by decide +kernel))
      (by decide)
  · exact ((hundeclared _ hload).1 'Z' rfl (by decide +kernel)).trans (by decide +kernel)
  · exact (hunread _ hbroken).trans (by decide +kernel)
  · exact eq_of_failed hexit₂ (h₂.out.trans (by decide +kernel)) (h₂.err.trans (by decide +kernel))
      (by decide)

end Invocation

end ChomskyNormal
