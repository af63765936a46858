import ChomskyNormal.Proofs.RuleFile.Building

/-!
Reading rule files. A file is accepted exactly when each line that holds a rule spells one and no
nonterminal is used without a rule, and the grammar that is read is the one that the rules denote.
-/

set_option autoImplicit false
set_option relaxedAutoImplicit false

namespace ChomskyNormal.RuleFile

/-- A line holds a rule when it has characters other than blanks, the first of which is no
semicolon. -/
def HoldsRule (line : Text) : Prop :=
  ∃ blanks c rest, line = blanks ++ c :: rest ∧ (∀ b ∈ blanks, Text.isBlank b) ∧
    ¬ Text.isBlank c ∧ c ≠ ';'

/-- The rules that lines spell, in the order of the lines. Lines that hold no rule do not count. -/
inductive Spelled : List Text → List Rule → Prop where
  | nil : Spelled [] []
  | skip {line : Text} {lines : List Text} {rs : List Rule} (h : ¬ HoldsRule line)
      (rest : Spelled lines rs) : Spelled (line :: lines) rs
  | rule {line : Text} {lines : List Text} {r : Rule} {rs : List Rule} (h : HoldsRule line)
      (hr : r.SpelledBy line) (rest : Spelled lines rs) : Spelled (line :: lines) (r :: rs)

variable {line : Text} {lines : List Text} {r : Rule} {rs : List Rule} {g : Grammar}

theorem isRule_iff : isRule line = true ↔ HoldsRule line := by
  have hsplit : line.takeWhile Text.isBlank ++ line.dropWhile Text.isBlank = line :=
    List.takeWhile_append_dropWhile
  rw [isRule]
  constructor
  · intro h
    cases hrest : line.dropWhile Text.isBlank with
    | nil =>
      rw [hrest] at h
      cases h
    | cons c rest =>
      rw [hrest] at h hsplit
      have hc : ¬ Text.isBlank c := by
        have hhead := List.head?_dropWhile_not Text.isBlank line
        rw [hrest] at hhead
        simpa using hhead
      refine ⟨_, c, rest, hsplit.symm, ?_, hc, by simpa using h⟩
      exact List.all_eq_true.mp List.all_takeWhile
  · intro h
    obtain ⟨blanks, c, rest, rfl, hblanks, hc, hne⟩ := h
    have hrest : (blanks ++ c :: rest).dropWhile Text.isBlank = c :: rest := by
      rw [List.dropWhile_append_of_pos hblanks, List.dropWhile_cons_of_neg hc]
    rw [hrest]
    simpa using hne

theorem spelledBy_unique {r' : Rule} (h : r.SpelledBy line) (h' : r'.SpelledBy line) :
    r = r' := by
  have heq := (Rule.ofLine_eq_ok.mpr h).symm.trans (Rule.ofLine_eq_ok.mpr h')
  exact Except.ok.inj heq

namespace Spelled

theorem mem_iff (h : Spelled lines rs) :
    r ∈ rs ↔ ∃ line ∈ lines, HoldsRule line ∧ r.SpelledBy line := by
  induction h with
  | nil => simp
  | @skip line lines rs hno _ ih => simp [ih, hno]
  | @rule line lines r' rs hrule hr _ ih =>
    simp only [List.mem_cons, ih, exists_eq_or_imp, hrule, true_and]
    have hhead : r = r' ↔ r.SpelledBy line := by
      constructor
      · intro heq
        exact heq ▸ hr
      · intro h
        exact spelledBy_unique h hr
    rw [hhead]

private theorem cased (h : Spelled lines rs) : ∀ r ∈ rs, r.Cased := by
  intro r hr
  obtain ⟨line, _, _, hspelled⟩ := h.mem_iff.mp hr
  exact hspelled.1

private theorem closed_iff (h : Spelled lines rs) :
    Closed rs ↔ ∀ line ∈ lines, HoldsRule line → ∀ r : Rule, r.SpelledBy line →
      ∀ p ∈ r.alternatives, ∀ x ∈ p.nonterminals,
        ∃ line' ∈ lines, HoldsRule line' ∧ ∃ r' : Rule, r'.SpelledBy line' ∧ r'.head = x := by
  constructor
  · intro hclosed line hline hrule r hr p hp x hx
    obtain ⟨r', hr', hhead⟩ := hclosed r (h.mem_iff.mpr ⟨line, hline, hrule, hr⟩) p hp x hx
    obtain ⟨line', hline', hrule', hspelled⟩ := h.mem_iff.mp hr'
    exact ⟨line', hline', hrule', r', hspelled, hhead⟩
  · intro hlines r hr p hp x hx
    obtain ⟨line, hline, hrule, hspelled⟩ := h.mem_iff.mp hr
    obtain ⟨line', hline', hrule', r', hspelled', hhead⟩ :=
      hlines line hline hrule r hspelled p hp x hx
    exact ⟨r', h.mem_iff.mpr ⟨line', hline', hrule', hspelled'⟩, hhead⟩

end Spelled

private theorem exists_spelled_iff :
    (∃ rs, Spelled lines rs) ↔ ∀ line ∈ lines, HoldsRule line → ∃ r : Rule, r.SpelledBy line := by
  constructor
  · intro h line hline hrule
    obtain ⟨rs, hrs⟩ := h
    induction hrs with
    | nil => cases hline
    | skip hno _ ih =>
      rcases List.mem_cons.mp hline with rfl | hline
      · exact absurd hrule hno
      · exact ih hline
    | rule _ hr _ ih =>
      rcases List.mem_cons.mp hline with rfl | hline
      · exact ⟨_, hr⟩
      · exact ih hline
  · intro h
    induction lines with
    | nil => exact ⟨[], .nil⟩
    | cons line lines ih =>
      obtain ⟨rs, hrs⟩ := ih fun l hl => h l (List.mem_cons_of_mem line hl)
      by_cases hrule : HoldsRule line
      · obtain ⟨r, hr⟩ := h line List.mem_cons_self hrule
        exact ⟨r :: rs, .rule hrule hr hrs⟩
      · exact ⟨rs, .skip hrule hrs⟩

private theorem map_snd_outcomes (t : Text) :
    (outcomes t).map Prod.snd = ((Text.lines t).filter isRule).map Rule.ofLine := by
  have hfst : ((Text.lines t).zipIdx 1).map Prod.fst = Text.lines t := List.zipIdx_map_fst 1 _
  conv_rhs => rw [← hfst]
  rw [List.filter_map]
  simp only [outcomes, ruleLines, List.map_map, Function.comp_def]

private theorem map_ofLine_eq_map_ok :
    (lines.filter isRule).map Rule.ofLine = rs.map .ok ↔ Spelled lines rs := by
  constructor
  · intro h
    induction lines generalizing rs with
    | nil =>
      obtain rfl := List.map_eq_nil_iff.mp h.symm
      exact .nil
    | cons line lines ih =>
      by_cases hrule : isRule line = true
      · rw [List.filter_cons_of_pos hrule, List.map_cons] at h
        obtain ⟨r, rest, rfl, hr, hrest⟩ := List.map_eq_cons_iff.mp h.symm
        exact .rule (isRule_iff.mp hrule) (Rule.ofLine_eq_ok.mp hr.symm) (ih hrest.symm)
      · rw [List.filter_cons_of_neg hrule] at h
        exact .skip (fun hholds => hrule (isRule_iff.mpr hholds)) (ih h)
  · intro h
    induction h with
    | nil => rfl
    | skip hno _ ih =>
      rw [List.filter_cons_of_neg fun hrule => hno (isRule_iff.mp hrule), ih]
    | rule hrule hr _ ih =>
      rw [List.filter_cons_of_pos (isRule_iff.mpr hrule), List.map_cons, List.map_cons, ih,
        Rule.ofLine_eq_ok.mpr hr]

private theorem map_snd_eq_map_ok {outs : List (OnLine (Except Fault Rule))} :
    outs.map Prod.snd = rs.map .ok ↔
      (outs.filterMap fun
        | (n, .error e) => some (n, e)
        | (_, .ok _) => none) = ([] : List (OnLine Fault)) ∧
      (outs.filterMap fun
        | (_, .error _) => none
        | (n, .ok r) => some (n, r)).map Prod.snd = rs := by
  induction outs generalizing rs with
  | nil => simp [eq_comm]
  | cons out outs ih =>
    obtain ⟨n, result⟩ := out
    cases result with
    | error e => cases rs <;> simp
    | ok r =>
      cases rs with
      | nil => simp
      | cons r' rs => simp [ih, and_left_comm]

theorem spelled_lines_iff {t : Text} :
    Spelled (Text.lines t) rs ↔ malformed t = [] ∧ (rules t).map Prod.snd = rs := by
  rw [← map_ofLine_eq_map_ok, ← map_snd_outcomes]
  exact map_snd_eq_map_ok

section Read

variable {path t : Text}

theorem read_eq_ok : read path t = .ok g ↔ faults t = [] ∧ grammar t = g := by
  rw [read]
  cases faults t with
  | nil => simp
  | cons f fs => simp

theorem reachable_of_read (h : read path t = .ok g) : g.Reachable :=
  ⟨_, (read_eq_ok.mp h).2⟩

theorem reachable_of_load {content : Except FileFault Text} (h : load path content = .ok g) :
    g.Reachable := by
  cases content with
  | error e => cases h
  | ok t => exact reachable_of_read h

theorem faults_eq_nil_iff :
    faults t = [] ↔ malformed t = [] ∧ undefinedUses (rules t) = [] ∧
      refusals .empty (calls (rules t)) = [] := by
  rw [faults]
  cases malformed t with
  | cons f fs => simp
  | nil =>
    cases undefinedUses (rules t) with
    | cons f fs => simp
    | nil => simp

/-- Once all lines spell rules and these are closed, nothing can go wrong any more. -/
theorem exists_read_eq_ok (path : Text) (hspelled : Spelled (Text.lines t) rs)
    (hclosed : Closed rs) :
    ∃ g, read path t = .ok g ∧ Denotes rs g := by
  obtain ⟨hbad, hrules⟩ := spelled_lines_iff.mp hspelled
  subst hrules
  obtain ⟨g, haccepts, hdenotes⟩ := accepts_calls hspelled.cased hclosed
  have hfaults : faults t = [] :=
    faults_eq_nil_iff.mpr ⟨hbad, undefinedUses_eq_nil_iff.mpr hclosed, haccepts.refusals_eq_nil⟩
  exact ⟨g, read_eq_ok.mpr ⟨hfaults, haccepts.afterAll_eq⟩, hdenotes⟩

theorem spelled_of_read (h : read path t = .ok g) :
    Spelled (Text.lines t) ((rules t).map Prod.snd) ∧ Closed ((rules t).map Prod.snd) := by
  obtain ⟨hbad, hundefined, _⟩ := faults_eq_nil_iff.mp (read_eq_ok.mp h).1
  exact ⟨spelled_lines_iff.mpr ⟨hbad, rfl⟩, undefinedUses_eq_nil_iff.mp hundefined⟩

/-- A text is accepted exactly when each line that holds a rule spells one and each nonterminal in
use heads a rule on some line; and it is read as a grammar exactly when its lines spell closed rules
that denote the grammar. -/
theorem read_decides_and_denotes (path t : Text) :
    ((∃ g, read path t = .ok g) ↔
      (∀ line ∈ t.splitOn '\n', HoldsRule line → ∃ r : Rule, r.SpelledBy line) ∧
      ∀ line ∈ t.splitOn '\n', HoldsRule line → ∀ r : Rule, r.SpelledBy line →
        ∀ p ∈ r.alternatives, ∀ x ∈ p.nonterminals,
          ∃ line' ∈ t.splitOn '\n', HoldsRule line' ∧
            ∃ r' : Rule, r'.SpelledBy line' ∧ r'.head = x) ∧
    ∀ g, read path t = .ok g ↔
      ∃ rs, Spelled (t.splitOn '\n') rs ∧ Closed rs ∧ Denotes rs g := by
  refine ⟨⟨?_, ?_⟩, ?_⟩
  · intro h
    obtain ⟨g, hg⟩ := h
    obtain ⟨hspelled, hclosed⟩ := spelled_of_read hg
    exact ⟨exists_spelled_iff.mp ⟨_, hspelled⟩, hspelled.closed_iff.mp hclosed⟩
  · intro h
    obtain ⟨rs, hspelled⟩ := exists_spelled_iff.mpr h.1
    obtain ⟨g, hg, _⟩ := exists_read_eq_ok path hspelled (hspelled.closed_iff.mpr h.2)
    exact ⟨g, hg⟩
  · intro g
    constructor
    · intro hg
      obtain ⟨hspelled, hclosed⟩ := spelled_of_read hg
      obtain ⟨g', hg', hdenotes⟩ := exists_read_eq_ok path hspelled hclosed
      obtain rfl := Except.ok.inj (hg.symm.trans hg')
      exact ⟨_, hspelled, hclosed, hdenotes⟩
    · intro h
      obtain ⟨rs, hspelled, hclosed, hdenotes⟩ := h
      obtain ⟨g', hg', hdenotes'⟩ := exists_read_eq_ok path hspelled hclosed
      rw [hg', hdenotes.unique hdenotes']

/-- A comment and an empty line are left out, and the first head is the start symbol. A nonterminal
that heads no rule makes the text one that is not read. -/
theorem sums_read_or_refused :
    read "sums".toList "; sums\nS ::= AA | c\n\nA::=a|c|a".toList =
      .ok ⟨[('S', [.binary 'A' 'A', .terminal 'c']), ('A', [.terminal 'a', .terminal 'c'])],
        ['c', 'a'], some 'S'⟩ ∧
    ¬ ∃ g, read "sums".toList "S::=AB\nA::=a".toList = .ok g := by
  refine ⟨?_, ?_⟩
  · have hlines : "; sums\nS ::= AA | c\n\nA::=a|c|a".toList.splitOn '\n' =
        ["; sums".toList, "S ::= AA | c".toList, [], "A::=a|c|a".toList] := by
      decide +kernel
    have hspelled : Spelled ["; sums".toList, "S ::= AA | c".toList, [], "A::=a|c|a".toList]
        [⟨'S', [.binary 'A' 'A', .terminal 'c']⟩,
          ⟨'A', [.terminal 'a', .terminal 'c', .terminal 'a']⟩] := by
      refine .skip ?_ (.rule ?_ ?_ (.skip ?_ (.rule ?_ ?_ .nil)))
      · rw [← isRule_iff]
        decide +kernel
      · exact isRule_iff.mp (by decide +kernel)
      · exact Rule.ofLine_eq_ok.mp (by decide +kernel)
      · rw [← isRule_iff]
        decide +kernel
      · exact isRule_iff.mp (by decide +kernel)
      · exact Rule.ofLine_eq_ok.mp (by decide +kernel)
    refine ((read_decides_and_denotes _ _).2 _).mpr ⟨_, hlines ▸ hspelled, ?_, ?_⟩
    · simp [Closed, Production.nonterminals]
    · refine ⟨by decide, by decide, by decide, ?_⟩
      intro x
      by_cases hx : x = 'S' ∨ x = 'A'
      · rcases hx with rfl | rfl
        · decide
        · decide
      · obtain ⟨hS, hA⟩ := not_or.mp hx
        rw [Grammar.productions_eq_nil (by simpa [Grammar.nonterminals] using hx)]
        simp [alternativesFor, Ne.symm hS, Ne.symm hA]
  · intro h
    obtain ⟨-, hclosed⟩ := (read_decides_and_denotes _ _).1.mp h
    have hlines : "S::=AB\nA::=a".toList.splitOn '\n' = ["S::=AB".toList, "A::=a".toList] := by
      decide +kernel
    have hS : (⟨'S', [.binary 'A' 'B']⟩ : Rule).SpelledBy "S::=AB".toList :=
      Rule.ofLine_eq_ok.mp (by decide +kernel)
    have hA : (⟨'A', [.terminal 'a']⟩ : Rule).SpelledBy "A::=a".toList :=
      Rule.ofLine_eq_ok.mp (by decide +kernel)
    rw [hlines] at hclosed
    obtain ⟨line, hline, -, r, hr, hhead⟩ := hclosed _ List.mem_cons_self
      (isRule_iff.mp (by decide +kernel)) _ hS _ List.mem_cons_self 'B' (by decide)
    -- neither line spells a rule with the head that is missing
    simp only [List.mem_cons, List.not_mem_nil, or_false] at hline
    rcases hline with rfl | rfl
    · rw [spelledBy_unique hr hS] at hhead
      cases hhead
    · rw [spelledBy_unique hr hA] at hhead
      cases hhead

end Read

end ChomskyNormal.RuleFile
