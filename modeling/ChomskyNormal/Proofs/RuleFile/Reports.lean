import ChomskyNormal.Proofs.RuleFile.LineFaults

/-!
Reports of what is wrong with a rule file. If lines that hold rules spell none, each of them is
reported with the fault that it has alone. Otherwise each use of a nonterminal that heads no rule
is. Nothing is lost or reported twice, the lines come in order, and they are counted with those that
hold no rule.
-/

set_option autoImplicit false
set_option relaxedAutoImplicit false

namespace ChomskyNormal

/-- What is wrong with a text is no slip of the reader, does not concern the file as a whole, and of
all that grammars refuse it can only be the shape of a right-hand side. -/
def Fault.IsOfText (e : Fault) : Prop :=
  e ≠ .uncut ∧ e ≠ .blankRule ∧ (∀ reason, e ≠ .unreadable reason) ∧
    ∀ reason, e = .refused reason → ∃ rhs, reason = .notNormal rhs

def Rule.uses (r : Rule) : List Char :=
  r.alternatives.flatMap Production.nonterminals

namespace RuleFile

/-- A line is malformed when it holds a rule but spells none. -/
def Malformed (line : Text) : Prop :=
  HoldsRule line ∧ ¬ ∃ r : Rule, r.SpelledBy line

def HasRule (line : Text) (r : Rule) : Prop :=
  HoldsRule line ∧ r.SpelledBy line

/-- A line has a fault when it is malformed and the fault is what is wrong with it. -/
def HasFault (line : Text) (e : Fault) : Prop :=
  Malformed line ∧ Rule.LineFault line e

/-- What is found on the lines of a text: everything that belongs to some line, under the number of
that line, which no two of them share; and in the order of the lines. -/
structure Found {α : Type} (t : Text) (belongs : Text → α → Prop) (found : List (OnLine α)) :
    Prop where
  increasing : found.Pairwise fun a b => a.1 < b.1
  mem_iff : ∀ n a, (n, a) ∈ found ↔
    ∃ k line, (t.splitOn '\n')[k]? = some line ∧ n = k + 1 ∧ belongs line a

/-- Every use in some rules of a nonterminal that heads none of them, as often as it is used, under
the number of its rule. -/
def strayUses (rs : List (OnLine Rule)) : List (OnLine Char) :=
  rs.flatMap fun (n, r) => (r.uses.filter fun x => ∀ nr ∈ rs, nr.2.head ≠ x).map fun x => (n, x)

variable {path t line : Text} {r : Rule} {e : Fault}

namespace Found

variable {α : Type} {belongs belongs' : Text → α → Prop} {found : List (OnLine α)}

private theorem congr (h : Found t belongs found)
    (hiff : ∀ line a, belongs line a ↔ belongs' line a) :
    Found t belongs' found where
  increasing := h.increasing
  mem_iff n a := by simp only [h.mem_iff, hiff]

theorem exists_mem_iff (h : Found t belongs found) (a : α) :
    (∃ n, (n, a) ∈ found) ↔ ∃ line ∈ Text.lines t, belongs line a := by
  constructor
  · intro hmem
    obtain ⟨n, hmem⟩ := hmem
    obtain ⟨k, line, hline, -, ha⟩ := (h.mem_iff n a).mp hmem
    exact ⟨line, List.mem_of_getElem? hline, ha⟩
  · intro hline
    obtain ⟨line, hline, ha⟩ := hline
    obtain ⟨k, hk⟩ := List.getElem?_of_mem hline
    exact ⟨k + 1, (h.mem_iff (k + 1) a).mpr ⟨k, line, hk, rfl, ha⟩⟩

end Found

private theorem pairwise_lt_zipIdx {α : Type} (l : List α) (n : Nat) :
    (l.zipIdx n).Pairwise fun a b => a.2 < b.2 := by
  have hnumbers : ((l.zipIdx n).map Prod.snd).Pairwise (· < ·) := by
    rw [List.zipIdx_map_snd]
    exact List.pairwise_lt_range'
  exact List.pairwise_map.mp hnumbers

private theorem mem_outcomes_iff {n : Nat} {result : Except Fault Rule} :
    (n, result) ∈ outcomes t ↔
      ∃ k line, (Text.lines t)[k]? = some line ∧ n = k + 1 ∧ HoldsRule line ∧
        Rule.ofLine line = result := by
  simp only [outcomes, ruleLines, List.map_map, List.mem_map, List.mem_filter, isRule_iff,
    Function.comp_apply, Prod.mk.injEq, Prod.exists]
  constructor
  · intro h
    obtain ⟨line, m, ⟨hmem, hrule⟩, rfl, hresult⟩ := h
    obtain ⟨hpos, hline⟩ := List.mk_mem_zipIdx_iff_le_and_getElem?_sub.mp hmem
    exact ⟨m - 1, line, hline, by omega, hrule, hresult⟩
  · intro h
    obtain ⟨k, line, hline, rfl, hrule, hresult⟩ := h
    refine ⟨line, k + 1, ⟨?_, hrule⟩, rfl, hresult⟩
    exact List.mk_mem_zipIdx_iff_le_and_getElem?_sub.mpr ⟨by omega, hline⟩

private theorem found_filterMap_outcomes {α : Type}
    {f : OnLine (Except Fault Rule) → Option (OnLine α)} (picked : Except Fault Rule → α → Prop)
    (hf : ∀ n result m a, f (n, result) = some (m, a) ↔ m = n ∧ picked result a) :
    Found t (fun line a => HoldsRule line ∧ picked (Rule.ofLine line) a)
      ((outcomes t).filterMap f) where
  increasing := by
    have houtcomes : (outcomes t).Pairwise fun a b => a.1 < b.1 := by
      rw [outcomes, ruleLines, List.map_map, List.pairwise_map]
      exact (pairwise_lt_zipIdx (Text.lines t) 1).filter _
    refine houtcomes.filterMap f ?_
    intro out out' hlt a ha b hb
    obtain ⟨hn, _⟩ := (hf out.1 out.2 a.1 a.2).mp ha
    obtain ⟨hn', _⟩ := (hf out'.1 out'.2 b.1 b.2).mp hb
    rwa [hn, hn']
  mem_iff n a := by
    rw [List.mem_filterMap]
    constructor
    · intro h
      obtain ⟨⟨m, result⟩, hmem, hsome⟩ := h
      obtain ⟨rfl, hpicked⟩ := (hf m result n a).mp hsome
      obtain ⟨k, line, hline, hn, hrule, rfl⟩ := mem_outcomes_iff.mp hmem
      exact ⟨k, line, hline, hn, hrule, hpicked⟩
    · intro h
      obtain ⟨k, line, hline, rfl, hrule, hpicked⟩ := h
      exact ⟨(k + 1, Rule.ofLine line), mem_outcomes_iff.mpr ⟨k, line, hline, rfl, hrule, rfl⟩,
        (hf _ _ _ a).mpr ⟨rfl, hpicked⟩⟩

private theorem hasFault_iff : HasFault line e ↔ HoldsRule line ∧ Rule.ofLine line = .error e := by
  constructor
  · intro h
    obtain ⟨⟨hrule, _⟩, hfault⟩ := h
    exact ⟨hrule, (Rule.ofLine_eq_error_iff hrule).mpr hfault⟩
  · intro h
    obtain ⟨hrule, herror⟩ := h
    refine ⟨⟨hrule, ?_⟩, (Rule.ofLine_eq_error_iff hrule).mp herror⟩
    intro hspelled
    obtain ⟨r, hr⟩ := hspelled
    cases herror.symm.trans (Rule.ofLine_eq_ok.mpr hr)

private theorem Malformed.exists_fault (h : Malformed line) :
    ∃ e, Rule.ofLine line = .error e ∧ ∀ e', Rule.LineFault line e' ↔ e' = e := by
  obtain ⟨hrule, hno⟩ := h
  cases hread : Rule.ofLine line with
  | ok r => exact absurd ⟨r, Rule.ofLine_eq_ok.mp hread⟩ hno
  | error e =>
    refine ⟨e, rfl, ?_⟩
    intro e'
    rw [← Rule.ofLine_eq_error_iff hrule, hread, Except.error.injEq, eq_comm]

private theorem malformed_iff :
    Malformed line ↔ isRule line = true ∧ (Rule.ofLine line).isOk = false := by
  simp only [Malformed, isRule_iff, ← Rule.ofLine_eq_ok]
  cases Rule.ofLine line <;> simp [Except.isOk, Except.toBool]

instance : DecidablePred Malformed := fun _ => decidable_of_iff _ malformed_iff.symm

private theorem found_malformed (t : Text) : Found t HasFault (malformed t) := by
  have hfound : Found t (fun line e => HoldsRule line ∧ Rule.ofLine line = .error e)
      (malformed t) := by
    refine found_filterMap_outcomes (fun result e => result = .error e) ?_
    intro n result m e
    cases result <;> simp [eq_comm]
  exact hfound.congr fun _ _ => hasFault_iff.symm

theorem found_rules (t : Text) : Found t HasRule (rules t) := by
  have hfound : Found t (fun line r => HoldsRule line ∧ Rule.ofLine line = .ok r) (rules t) := by
    refine found_filterMap_outcomes (fun result r => result = .ok r) ?_
    intro n result m r
    cases result <;> simp [eq_comm]
  refine hfound.congr ?_
  intro line r
  rw [HasRule, Rule.ofLine_eq_ok]

theorem malformed_ne_nil_iff : malformed t ≠ [] ↔ ∃ line ∈ Text.lines t, Malformed line := by
  constructor
  · intro hne
    obtain ⟨⟨n, e⟩, hmem⟩ := List.exists_mem_of_ne_nil _ hne
    obtain ⟨line, hline, hbad, _⟩ := ((found_malformed t).exists_mem_iff e).mp ⟨n, hmem⟩
    exact ⟨line, hline, hbad⟩
  · intro h
    obtain ⟨line, hline, hbad⟩ := h
    obtain ⟨e, _, hfault⟩ := hbad.exists_fault
    obtain ⟨n, hmem⟩ :=
      ((found_malformed t).exists_mem_iff e).mpr ⟨line, hline, hbad, (hfault e).mpr rfl⟩
    exact List.ne_nil_of_mem hmem

private theorem read_eq_error {report : List (Located Fault)} :
    read path t = .error report ↔
      faults t ≠ [] ∧ report = (faults t).map fun (n, e) => ⟨⟨path, n⟩, e⟩ := by
  rw [read]
  cases faults t with
  | nil => simp
  | cons f fs => simp [eq_comm]

theorem ne_nil_of_load {content : Except FileFault Text} {report : List (Located Fault)}
    (h : load path content = .error report) : report ≠ [] := by
  cases content with
  | error e =>
    obtain rfl := Except.error.inj h
    exact List.cons_ne_nil _ _
  | ok t =>
    obtain ⟨hfaults, rfl⟩ := read_eq_error.mp h
    simpa using hfaults

theorem faults_of_malformed (h : malformed t ≠ []) : faults t = malformed t := by
  rw [faults]
  cases hbad : malformed t with
  | nil => exact absurd hbad h
  | cons f fs => rfl

private theorem undefinedUses_eq (rs : List (OnLine Rule)) :
    undefinedUses rs = (strayUses rs).map fun (n, x) => (n, .undefined x) := by
  have hnone (x : Char) : (x ∉ rs.map fun (_, r) => r.head) ↔ ∀ nr ∈ rs, nr.2.head ≠ x := by
    simp
  simp only [undefinedUses, strayUses, Rule.uses, hnone, List.map_flatMap, List.map_map,
    Function.comp_def]

theorem faults_of_spelled (h : malformed t = []) : faults t = undefinedUses (rules t) := by
  cases huses : undefinedUses (rules t) with
  | cons f fs =>
    rw [faults, h, huses]
  | nil =>
    have hspelled : Spelled (Text.lines t) ((rules t).map Prod.snd) :=
      spelled_lines_iff.mpr ⟨h, rfl⟩
    obtain ⟨g, hread, _⟩ := exists_read_eq_ok [] hspelled (undefinedUses_eq_nil_iff.mp huses)
    exact (read_eq_ok.mp hread).1

private theorem read_line (path : Text) (hline : line ∈ Text.lines t) (hbad : Malformed line)
    (he : Rule.ofLine line = .error e) : read path line = .error [⟨⟨path, 1⟩, e⟩] := by
  have hone : Text.lines line = [line] :=
    List.splitOn_eq_singleton (Joining.notMem_of_mem_splitOn hline)
  have hrule : isRule line = true := isRule_iff.mpr hbad.1
  have hmalformed : malformed line = [(1, e)] := by
    simp [malformed, outcomes, ruleLines, hone, hrule, he]
  rw [read, faults_of_malformed (by simp [hmalformed]), hmalformed]
  rfl

private theorem isOfText_of_lineFault (h : Rule.LineFault line e) : e.IsOfText := by
  cases h with
  | scanning hfirst =>
    obtain ⟨front, bad, back, _, hoff, _⟩ := hfirst
    cases hoff <;> simp [Fault.IsOfText]
  | parsing _ _ _ hblames =>
    cases hblames with
    | head _ => simp [Fault.IsOfText]
    | sign _ => simp [Fault.IsOfText]
    | alternative _ _ _ hbad => cases hbad <;> simp [Fault.IsOfText]

private theorem isOfText_of_mem_faults {n : Nat} (h : (n, e) ∈ faults t) : e.IsOfText := by
  by_cases hbad : malformed t = []
  · rw [faults_of_spelled hbad, undefinedUses_eq] at h
    obtain ⟨⟨m, x⟩, _, heq⟩ := List.mem_map.mp h
    obtain ⟨rfl, rfl⟩ := Prod.mk.inj heq
    simp [Fault.IsOfText]
  · rw [faults_of_malformed hbad] at h
    obtain ⟨_, line, _, _, _, hfault⟩ := ((found_malformed t).mem_iff n e).mp h
    exact isOfText_of_lineFault hfault

private theorem strayUses_ne_nil_iff {rs : List (OnLine Rule)} (h : Found t HasRule rs) :
    strayUses rs ≠ [] ↔
      ∃ line ∈ t.splitOn '\n', ∃ r, HasRule line r ∧ ∃ x ∈ r.uses,
        ∀ line' ∈ t.splitOn '\n', ∀ r', HasRule line' r' → r'.head ≠ x := by
  simp only [strayUses, ne_eq, List.flatMap_eq_nil_iff, List.map_eq_nil_iff,
    List.filter_eq_nil_iff, decide_eq_true_eq, not_forall, not_not]
  constructor
  · intro hstray
    obtain ⟨⟨n, r⟩, hmem, x, hx, hno⟩ := hstray
    obtain ⟨line, hline, hr⟩ := (h.exists_mem_iff r).mp ⟨n, hmem⟩
    refine ⟨line, hline, r, hr, x, hx, ?_⟩
    intro line' hline' r' hr' hhead
    obtain ⟨m, hmem'⟩ := (h.exists_mem_iff r').mpr ⟨line', hline', hr'⟩
    exact hno ⟨(m, r'), hmem', hhead⟩
  · intro hstray
    obtain ⟨line, hline, r, hr, x, hx, hno⟩ := hstray
    obtain ⟨n, hmem⟩ := (h.exists_mem_iff r).mpr ⟨line, hline, hr⟩
    refine ⟨(n, r), hmem, x, hx, ?_⟩
    intro hhead
    obtain ⟨⟨m, r'⟩, hmem', hhead⟩ := hhead
    obtain ⟨line', hline', hr'⟩ := (h.exists_mem_iff r').mp ⟨m, hmem'⟩
    exact hno line' hline' r' hr' hhead

/-- If a text has malformed lines, these are reported and nothing else is: all of them with their
numbers, in order, each with the only fault that it has, which is also reported of it alone. If it
has none, a report is made when a nonterminal is used that heads no rule, and it consists of these
uses, rule after rule and from left to right. Other faults are never reported. -/
theorem read_reports_faults (path t : Text) :
    ((∃ line ∈ t.splitOn '\n', Malformed line) →
      (∃ found, Found t HasFault found ∧
        read path t = .error (found.map fun (n, e) => ⟨⟨path, n⟩, e⟩)) ∧
      ∀ line ∈ t.splitOn '\n', Malformed line →
        ∃ e, (∀ e', Rule.LineFault line e' ↔ e' = e) ∧
          read path line = .error [⟨⟨path, 1⟩, e⟩]) ∧
    ((∀ line ∈ t.splitOn '\n', ¬ Malformed line) →
      ((∃ report, read path t = .error report) ↔
        ∃ line ∈ t.splitOn '\n', ∃ r, HasRule line r ∧ ∃ x ∈ r.uses,
          ∀ line' ∈ t.splitOn '\n', ∀ r', HasRule line' r' → r'.head ≠ x) ∧
      ∃ rs, Found t HasRule rs ∧ ∀ report, read path t = .error report →
        report = (strayUses rs).map fun (n, x) => ⟨⟨path, n⟩, .undefined x⟩) ∧
    ∀ report, read path t = .error report → ∀ f ∈ report, f.fault.IsOfText := by
  refine ⟨?_, ?_, ?_⟩
  · intro hmalformed
    have hne := malformed_ne_nil_iff.mpr hmalformed
    have hfaults := faults_of_malformed hne
    refine ⟨⟨malformed t, found_malformed t, ?_⟩, ?_⟩
    · exact read_eq_error.mpr ⟨hfaults.symm ▸ hne, by rw [hfaults]⟩
    · intro line hline hbad
      obtain ⟨e, he, hfault⟩ := hbad.exists_fault
      exact ⟨e, hfault, read_line path hline hbad he⟩
  · intro hnone
    have hbad : malformed t = [] := by
      by_contra hne
      obtain ⟨line, hline, hmalformed⟩ := malformed_ne_nil_iff.mp hne
      exact hnone line hline hmalformed
    have hfaults : faults t = (strayUses (rules t)).map fun (n, x) => (n, .undefined x) := by
      rw [faults_of_spelled hbad, undefinedUses_eq]
    refine ⟨?_, rules t, found_rules t, ?_⟩
    · rw [← strayUses_ne_nil_iff (found_rules t)]
      simp [read_eq_error, hfaults]
    · intro report hreport
      rw [(read_eq_error.mp hreport).2, hfaults, List.map_map]
      rfl
  · intro report hreport f hf
    obtain ⟨_, rfl⟩ := read_eq_error.mp hreport
    obtain ⟨⟨n, e⟩, hmem, rfl⟩ := List.mem_map.mp hf
    exact isOfText_of_mem_faults hmem

/-- A text with two malformed lines, and another text the lines of which spell rules that do not
define all that they use. -/
theorem sums_read_reports_faults :
    (∃ found, Found "; sums\nS::=AB\nA:=a\n\nB".toList HasFault found ∧
      read "sums".toList "; sums\nS::=AB\nA:=a\n\nB".toList =
        .error (found.map fun (n, e) => ⟨⟨"sums".toList, n⟩, e⟩)) ∧
    ∃ rs, Found "S::=AB|BA\nA::=a".toList HasRule rs ∧
      ∀ report, read "sums".toList "S::=AB|BA\nA::=a".toList = .error report →
        report = (strayUses rs).map fun (n, x) => ⟨⟨"sums".toList, n⟩, .undefined x⟩ := by
  refine ⟨?_, ?_⟩
  · exact ((read_reports_faults _ _).1 (by decide +kernel)).1
  · exact ((read_reports_faults _ _).2.1 (by decide +kernel)).2

example : read "sums".toList "; sums\nS::=AB\nA:=a\n\nB".toList =
    .error [⟨⟨"sums".toList, 3⟩, .brokenSign⟩, ⟨⟨"sums".toList, 5⟩, .missingSign⟩] := by
  decide +kernel

end RuleFile

end ChomskyNormal
