import ChomskyNormal.Proofs.Grammar.Inclusion
import ChomskyNormal.Proofs.RuleFile.NormalForm

/-!
The order of the lines of a rule file. A nonterminal can be used before and after the line of its
rule, so that lines in another order are accepted alike and denote the same productions. All that
depends on the order is the start symbol, which is the head of the first rule.
-/

set_option autoImplicit false
set_option relaxedAutoImplicit false

namespace ChomskyNormal.RuleFile

/-- The first of some lines that holds a rule spells one with the given head. -/
def FirstHead (lines : List Text) (x : Char) : Prop :=
  ∃ before line after, lines = before ++ line :: after ∧ (∀ l ∈ before, ¬ HoldsRule l) ∧
    HoldsRule line ∧ ∃ r : Rule, r.SpelledBy line ∧ r.head = x

variable {path path' t t' : Text} {lines : List Text} {rs rs' : List Rule} {g g' : Grammar}
  {x : Char}

private theorem Spelled.head?_eq_some (h : Spelled lines rs) (hx : FirstHead lines x) :
    (rs.map Rule.head).head? = some x := by
  obtain ⟨before, line, after, rfl, hbefore, hrule, r, hr, rfl⟩ := hx
  induction before generalizing rs with
  | nil =>
    cases h with
    | skip hno _ => exact absurd hrule hno
    | rule _ hr' _ =>
      rw [spelledBy_unique hr hr']
      rfl
  | cons l before ih =>
    cases h with
    | skip _ rest => exact ih rest fun l' hl' => hbefore l' (List.mem_cons_of_mem l hl')
    | rule hrule' _ _ => exact absurd hrule' (hbefore l List.mem_cons_self)

private theorem Spelled.eq_nil (h : Spelled lines rs) (hno : ∀ line ∈ lines, ¬ HoldsRule line) :
    rs = [] := by
  apply List.eq_nil_iff_forall_not_mem.mpr
  intro r hr
  obtain ⟨line, hline, hrule, _⟩ := h.mem_iff.mp hr
  exact hno line hline hrule

/-- A text is accepted when no line is malformed and every nonterminal in use heads a rule. -/
private theorem exists_read_iff :
    (∃ g, read path t = .ok g) ↔
      (∀ line ∈ Text.lines t, ¬ Malformed line) ∧ Closed ((rules t).map Prod.snd) := by
  have hspelled : malformed t = [] ↔ ∀ line ∈ Text.lines t, ¬ Malformed line := by
    have hne := malformed_ne_nil_iff (t := t)
    rw [← not_iff_not, ← ne_eq, hne]
    simp
  rw [← hspelled]
  constructor
  · intro h
    obtain ⟨g, hg⟩ := h
    obtain ⟨hspelled, hclosed⟩ := spelled_of_read hg
    exact ⟨(spelled_lines_iff.mp hspelled).1, hclosed⟩
  · intro h
    obtain ⟨hbad, hclosed⟩ := h
    obtain ⟨g, hg, -⟩ := exists_read_eq_ok path (spelled_lines_iff.mpr ⟨hbad, rfl⟩) hclosed
    exact ⟨g, hg⟩

private theorem mem_rules_iff {r : Rule} :
    r ∈ (rules t).map Prod.snd ↔ ∃ line ∈ Text.lines t, HasRule line r := by
  rw [← (found_rules t).exists_mem_iff r, List.mem_map]
  constructor
  · intro h
    obtain ⟨⟨n, r⟩, hmem, rfl⟩ := h
    exact ⟨n, hmem⟩
  · intro h
    obtain ⟨n, hmem⟩ := h
    exact ⟨(n, r), hmem, rfl⟩

private theorem Closed.congr (hrules : ∀ r, r ∈ rs ↔ r ∈ rs') (h : Closed rs) : Closed rs' := by
  intro r hr p hp x hx
  obtain ⟨r', hr', hhead⟩ := h r ((hrules r).mpr hr) p hp x hx
  exact ⟨r', (hrules r').mp hr', hhead⟩

private theorem Denotes.agrees (h : Denotes rs g) (h' : Denotes rs' g')
    (hrules : ∀ r, r ∈ rs ↔ r ∈ rs') : g.Agrees g' where
  nonterminals x := by
    simp only [h.nonterminals, h'.nonterminals, List.mem_eraseDups, List.mem_map, hrules]
  terminals a := by
    simp only [h.terminals, h'.terminals, List.mem_eraseDups, lettersOf, List.mem_flatMap, hrules]
  productions x p := by
    simp only [h.productions, h'.productions, List.mem_eraseDups, alternativesFor,
      List.mem_flatMap, List.mem_filter, hrules]

section SameLines

variable (hlines : ∀ line, line ∈ Text.lines t ↔ line ∈ Text.lines t')

include hlines

private theorem mem_rules_congr (r : Rule) :
    r ∈ (rules t).map Prod.snd ↔ r ∈ (rules t').map Prod.snd := by
  simp only [mem_rules_iff, hlines]

private theorem exists_read_congr (h : ∃ g, read path t = .ok g) :
    ∃ g', read path' t' = .ok g' := by
  obtain ⟨hgood, hclosed⟩ := exists_read_iff.mp h
  refine exists_read_iff.mpr ⟨?_, hclosed.congr (mem_rules_congr hlines)⟩
  intro line hline
  exact hgood line ((hlines line).mpr hline)

private theorem agrees_of_read (hg : read path t = .ok g) (hg' : read path' t' = .ok g') :
    g.Agrees g' :=
  (denotes_of_read hg).agrees (denotes_of_read hg') (mem_rules_congr hlines)

end SameLines

private theorem start_eq_of_firstHead (h : read path t = .ok g) (hx : FirstHead (Text.lines t) x) :
    g.start = some x := by
  rw [(denotes_of_read h).start, (spelled_of_read h).1.head?_eq_some hx]

private theorem start_eq_none (h : read path t = .ok g)
    (hno : ∀ line ∈ Text.lines t, ¬ HoldsRule line) : g.start = none := by
  rw [(denotes_of_read h).start, (spelled_of_read h).1.eq_nil hno]
  rfl

private theorem lines_unlines (hne : lines ≠ []) (h : ∀ line ∈ lines, '\n' ∉ line) :
    Text.lines (Text.unlines lines) = lines :=
  List.splitOn_intercalate '\n' h hne

private theorem FirstHead.lines_unlines (hx : FirstHead lines x) (h : ∀ line ∈ lines, '\n' ∉ line) :
    FirstHead (Text.lines (Text.unlines lines)) x := by
  have hne : lines ≠ [] := by
    obtain ⟨before, line, after, rfl, _⟩ := hx
    simp
  rwa [RuleFile.lines_unlines hne h]

private theorem not_holdsRule_lines_unlines (hno : ∀ line ∈ lines, ¬ HoldsRule line)
    (h : ∀ line ∈ lines, '\n' ∉ line) :
    ∀ line ∈ Text.lines (Text.unlines lines), ¬ HoldsRule line := by
  by_cases hne : lines = []
  · -- no lines at all make one empty line, which holds no rule
    subst hne
    intro line hline hrule
    obtain rfl : line = [] := List.mem_singleton.mp hline
    obtain ⟨blanks, c, rest, heq, _⟩ := hrule
    simp at heq
  · rwa [lines_unlines hne h]

private theorem mem_lines_unlines_of_perm {lines' : List Text} (hperm : lines.Perm lines')
    (h : ∀ line ∈ lines, '\n' ∉ line) (line : Text) :
    line ∈ Text.lines (Text.unlines lines) ↔ line ∈ Text.lines (Text.unlines lines') := by
  by_cases hne : lines = []
  · subst hne
    rw [hperm.nil_eq]
  · have hne' : lines' ≠ [] := fun hnil => hne (hnil ▸ hperm).eq_nil
    have h' : ∀ line ∈ lines', '\n' ∉ line := fun line hline => h line (hperm.mem_iff.mpr hline)
    rw [lines_unlines hne h, lines_unlines hne' h', hperm.mem_iff]

/-- Lines are accepted in every order or in no order at all. The grammars read from two orders have
the same symbols and the same productions; and if the first rule has the same head in both, or there
is no rule, they have the same start symbol and give the same answers about all words, refusals
included. -/
theorem read_unlines_of_perm {lines lines' : List Text} (hperm : lines.Perm lines')
    (hlines : ∀ line ∈ lines, '\n' ∉ line) (path path' : Text) :
    ((∃ g, read path (['\n'].intercalate lines) = .ok g) ↔
      ∃ g', read path' (['\n'].intercalate lines') = .ok g') ∧
    ∀ g g', read path (['\n'].intercalate lines) = .ok g →
      read path' (['\n'].intercalate lines') = .ok g' →
      (∀ x, x ∈ g.nonterminals ↔ x ∈ g'.nonterminals) ∧
      (∀ a, a ∈ g.terminals ↔ a ∈ g'.terminals) ∧
      (∀ x p, p ∈ g.productions x ↔ p ∈ g'.productions x) ∧
      ((∀ line ∈ lines, ¬ HoldsRule line) ∨ (∃ x, FirstHead lines x ∧ FirstHead lines' x) →
        g.start = g'.start ∧ ∀ w, g.derives w = g'.derives w) := by
  have hlines' : ∀ line ∈ lines', '\n' ∉ line := fun line hline =>
    hlines line (hperm.mem_iff.mpr hline)
  have hsame := mem_lines_unlines_of_perm hperm hlines
  refine ⟨⟨exists_read_congr hsame, exists_read_congr fun line => (hsame line).symm⟩, ?_⟩
  intro g g' hg hg'
  have hagrees := agrees_of_read hsame hg hg'
  refine ⟨hagrees.nonterminals, hagrees.terminals, hagrees.productions, ?_⟩
  intro hfirst
  have hstart : g.start = g'.start := by
    rcases hfirst with hno | ⟨x, hx, hx'⟩
    · have hno' : ∀ line ∈ lines', ¬ HoldsRule line := fun line hline =>
        hno line (hperm.mem_iff.mpr hline)
      rw [start_eq_none hg (not_holdsRule_lines_unlines hno hlines),
        start_eq_none hg' (not_holdsRule_lines_unlines hno' hlines')]
    · rw [start_eq_of_firstHead hg (hx.lines_unlines hlines),
        start_eq_of_firstHead hg' (hx'.lines_unlines hlines')]
  refine ⟨hstart, ?_⟩
  exact hagrees.derives_eq (reachable_of_read hg).wellFormed (reachable_of_read hg').wellFormed
    hstart

/-- Two orders of lines are read as different grammars, which judge all words alike. -/
theorem sums_read_unlines :
    ∃ g g', read "sums".toList "S::=AB|c\n; note\nA::=a\nB::=b".toList = .ok g ∧
      read "sums".toList "S::=AB|c\nB::=b\nA::=a\n; note".toList = .ok g' ∧
      g.nonterminals = ['S', 'A', 'B'] ∧ g'.nonterminals = ['S', 'B', 'A'] ∧
      g.terminals = ['c', 'a', 'b'] ∧ g'.terminals = ['c', 'b', 'a'] ∧
      g.productions 'S' = [.binary 'A' 'B', .terminal 'c'] ∧ g.start = g'.start ∧
      g.derives ['a', 'b'] = .ok true ∧ ∀ w, g.derives w = g'.derives w := by
  have hread : read "sums".toList "S::=AB|c\n; note\nA::=a\nB::=b".toList =
      .ok (grammar "S::=AB|c\n; note\nA::=a\nB::=b".toList) := by
    decide +kernel
  have hread' : read "sums".toList "S::=AB|c\nB::=b\nA::=a\n; note".toList =
      .ok (grammar "S::=AB|c\nB::=b\nA::=a\n; note".toList) := by
    decide +kernel
  have hperm : ["S::=AB|c".toList, "; note".toList, "A::=a".toList, "B::=b".toList].Perm
      ["S::=AB|c".toList, "B::=b".toList, "A::=a".toList, "; note".toList] := by
    decide +kernel
  have hfirst (after : List Text) : FirstHead ("S::=AB|c".toList :: after) 'S' := by
    refine ⟨[], _, after, rfl, fun l hl => absurd hl List.not_mem_nil, ?_, ?_⟩
    · exact isRule_iff.mp (by decide +kernel)
    · exact ⟨⟨'S', [.binary 'A' 'B', .terminal 'c']⟩, Rule.ofLine_eq_ok.mp (by decide +kernel), rfl⟩
  obtain ⟨-, hboth⟩ := read_unlines_of_perm hperm (by decide) "sums".toList "sums".toList
  obtain ⟨-, -, -, hsame⟩ := hboth _ _ hread hread'
  obtain ⟨hstart, hderives⟩ := hsame (.inr ⟨'S', hfirst _, hfirst _⟩)
  exact ⟨_, _, hread, hread', by decide +kernel, by decide +kernel, by decide +kernel,
    by decide +kernel, by decide +kernel, hstart, by decide +kernel, hderives⟩

end ChomskyNormal.RuleFile
