import ChomskyNormal.Grammar.Listing
import ChomskyNormal.Proofs.Grammar.WellFormed
import ChomskyNormal.Proofs.RuleFile.Reading

/-!
Listing a grammar and reading the listing. The lines of a listing spell the rules of the grammar,
one for each nonterminal, so that the nonterminals and all their productions come back in order.
-/

set_option autoImplicit false
set_option relaxedAutoImplicit false

namespace ChomskyNormal

private theorem spaced_flatten (parts : List Text) : Spaced parts parts.flatten := by
  induction parts with
  | nil => exact .nil
  | cons p parts ih => exact .part p ih

namespace Grammar

variable {g : Grammar} {x : Char} {ps : List Production}

private theorem flatten_map_text_tokens (x : Char) (ps : List Production) :
    ((Rule.mk x ps).tokens.map Token.text).flatten = rulePart x ps := by
  have htext : (fun p : Production => p.tokens.flatMap Token.text) = Production.text := by
    funext p
    cases p <;> rfl
  have hrest : (Rule.tokensOf ps).flatMap Token.text =
      "|".toList.intercalate (ps.map Production.text) := by
    rw [Rule.tokensOf, Joining.flatMap_intercalate, List.map_map, Function.comp_def, htext]
    rfl
  rw [← List.flatMap_def, Rule.tokens, List.flatMap_cons, List.flatMap_cons, hrest]
  rfl

private theorem spelledBy_rulePart (h : (Rule.mk x ps).Cased) :
    (Rule.mk x ps).SpelledBy (rulePart x ps) :=
  ⟨h, flatten_map_text_tokens x ps ▸ spaced_flatten _⟩

private theorem holdsRule_rulePart (hx : Symbol.isUpper x) :
    RuleFile.HoldsRule (rulePart x ps) := by
  have hcase : (Symbol.nonterminal x).HasCase := hx
  refine ⟨[], x, _, rfl, by simp, ?_, hcase.char_ne (by decide)⟩
  rw [Bool.not_eq_true]
  exact hcase.not_isBlank

private theorem filter_rulePart (keep : Char → Bool) (hx : keep x = false)
    (hbar : keep '|' = false) (hcolon : keep ':' = false) (hequals : keep '=' = false) :
    (rulePart x ps).filter keep = ps.flatMap fun p => p.text.filter keep := by
  have hnone : "|".toList.filter keep = [] := by
    show ['|'].filter keep = []
    simp [hbar]
  have hhead : (x :: "::=".toList).filter keep = [] := by
    show [x, ':', ':', '='].filter keep = []
    simp [hx, hcolon, hequals]
  rw [rulePart, List.filter_append, hhead, List.nil_append, Joining.filter_intercalate hnone,
    List.flatMap_map]

end Grammar

namespace Grammar.WellFormed

variable {g g' : Grammar} {x : Char}

theorem hasCase (hg : g.WellFormed) {p : Production} (hp : p ∈ g.productions x) :
    ∀ s ∈ p.symbols, s.HasCase := by
  intro s hs
  have hs := hg.declares x p hp s hs
  cases s with
  | terminal a => exact hg.isLower a hs
  | nonterminal y => exact hg.isUpper y hs

private theorem newline_notMem_rulePart (hg : g.WellFormed) (hx : x ∈ g.nonterminals) :
    '\n' ∉ rulePart x (g.productions x) := by
  have hcase : (Symbol.nonterminal x).HasCase := hg.isUpper x hx
  have hhead : (x == '\n') = false := beq_eq_false_iff_ne.mpr (hcase.char_ne (by decide))
  have hnone : (rulePart x (g.productions x)).filter (· == '\n') = [] := by
    rw [filter_rulePart (· == '\n') hhead rfl rfl rfl, List.flatMap_eq_nil_iff]
    intro p hp
    rw [List.filter_eq_nil_iff]
    intro c hc
    obtain ⟨s, hs, rfl⟩ := List.mem_map.mp hc
    simpa using (hg.hasCase hp s hs).char_ne (by decide)
  intro hmem
  exact List.filter_eq_nil_iff.mp hnone '\n' hmem (by decide)

end Grammar.WellFormed

namespace Grammar

variable {g g' : Grammar} {x : Char}

def rulesOf (g : Grammar) : List Rule :=
  g.nonterminals.map fun x => ⟨x, g.productions x⟩

private theorem map_head_rulesOf : g.rulesOf.map Rule.head = g.nonterminals := by
  rw [rulesOf, List.map_map]
  exact List.map_id _

namespace WellFormed

private theorem spelled_map_rulePart (hg : g.WellFormed) {names : List Char}
    (hnames : names ⊆ g.nonterminals) :
    RuleFile.Spelled (names.map fun x => rulePart x (g.productions x))
      (names.map fun x => ⟨x, g.productions x⟩) := by
  induction names with
  | nil => exact .nil
  | cons x names ih =>
    obtain ⟨hx, hnames⟩ := List.cons_subset.mp hnames
    have hupper : Symbol.isUpper x := hg.isUpper x hx
    refine .rule (holdsRule_rulePart hupper) (spelledBy_rulePart ⟨hupper, ?_⟩) (ih hnames)
    intro p hp
    exact hg.hasCase hp

theorem lines_listing (hg : g.WellFormed) (hne : g.nonterminals ≠ []) :
    Text.lines g.listing = g.nonterminals.map fun x => rulePart x (g.productions x) := by
  apply List.splitOn_intercalate
  · intro line hline
    obtain ⟨x, hx, rfl⟩ := List.mem_map.mp hline
    exact hg.newline_notMem_rulePart hx
  · simpa using hne

private theorem spelled_listing (hg : g.WellFormed) :
    RuleFile.Spelled (Text.lines g.listing) g.rulesOf := by
  by_cases hne : g.nonterminals = []
  · -- no nonterminal leaves one line, which is empty
    have hline : Text.lines g.listing = [[]] := by
      rw [listing, hne]
      rfl
    rw [hline, rulesOf, hne]
    refine .skip ?_ .nil
    intro h
    obtain ⟨blanks, c, rest, heq, _⟩ := h
    simp at heq
  · rw [hg.lines_listing hne]
    exact hg.spelled_map_rulePart (List.Subset.refl _)

private theorem closed_rulesOf (hg : g.WellFormed) : RuleFile.Closed g.rulesOf := by
  intro r hr p hp y hy
  obtain ⟨x, _, rfl⟩ := List.mem_map.mp hr
  have hdeclared : y ∈ g.nonterminals := by
    cases p with
    | terminal a => cases hy
    | binary b c =>
      obtain ⟨hb, hc⟩ := hg.mem_nonterminals hp
      rcases List.mem_cons.mp hy with rfl | hy
      · exact hb
      · exact List.mem_singleton.mp hy ▸ hc
  exact ⟨⟨y, g.productions y⟩, List.mem_map.mpr ⟨y, hdeclared, rfl⟩, rfl⟩

private theorem alternativesFor_rulesOf (hg : g.WellFormed) (x : Char) :
    RuleFile.alternativesFor g.rulesOf x = g.productions x := by
  have honly : (g.rulesOf.filter fun r => r.head = x) =
      (g.nonterminals.filter (· = x)).map fun y => ⟨y, g.productions y⟩ := by
    rw [rulesOf, List.filter_map]
    rfl
  rw [RuleFile.alternativesFor, honly, List.filter_eq, hg.nonterminals_nodup.count]
  by_cases hx : x ∈ g.nonterminals
  · simp [hx]
  · simp [hx, productions_eq_nil hx]

private theorem filter_isLower_listing (hg : g.WellFormed) :
    g.listing.filter Symbol.isLower = RuleFile.lettersOf g.rulesOf := by
  have htext {x : Char} {p : Production} (hp : p ∈ g.productions x) :
      p.text.filter Symbol.isLower = p.letter?.toList := by
    have hcase := hg.hasCase hp
    cases p with
    | terminal a =>
      have ha : Symbol.isLower a := hcase (.terminal a) List.mem_cons_self
      simp [Production.text, Production.symbols, Symbol.char, Production.letter?, ha]
    | binary b c =>
      have hb : Symbol.isUpper b := hcase (.nonterminal b) List.mem_cons_self
      have hc : Symbol.isUpper c := hcase (.nonterminal c) (by simp [Production.symbols])
      simp [Production.text, Production.symbols, Symbol.char, Production.letter?,
        Symbol.isLower_eq_false hb, Symbol.isLower_eq_false hc]
  rw [listing, Text.unlines, Joining.filter_intercalate (by decide), RuleFile.lettersOf, rulesOf,
    List.flatMap_map, List.flatMap_map]
  apply List.flatMap_congr
  intro x hx
  have hupper : Symbol.isLower x = false := Symbol.isLower_eq_false (hg.isUpper x hx)
  rw [filter_rulePart Symbol.isLower hupper rfl rfl rfl, List.filterMap_eq_flatMap_toList]
  exact List.flatMap_congr fun p hp => htext hp

private theorem mem_lettersOf_rulesOf (a : Char) :
    a ∈ RuleFile.lettersOf g.rulesOf ↔ ∃ x, .terminal a ∈ g.productions x := by
  constructor
  · intro ha
    obtain ⟨r, hr, ha⟩ := List.mem_flatMap.mp ha
    obtain ⟨x, _, rfl⟩ := List.mem_map.mp hr
    obtain ⟨p, hp, ha⟩ := List.mem_filterMap.mp ha
    cases p with
    | terminal b =>
      cases ha
      exact ⟨x, hp⟩
    | binary b c => cases ha
  · intro h
    obtain ⟨x, hx⟩ := h
    refine List.mem_flatMap.mpr ⟨⟨x, g.productions x⟩, ?_, ?_⟩
    · exact List.mem_map.mpr ⟨x, mem_nonterminals_of_mem_productions hx, rfl⟩
    · exact List.mem_filterMap.mpr ⟨.terminal a, hx, rfl⟩

/-- A listing is read as a grammar that agrees with the listed one in everything that is listed. -/
theorem exists_read_listing (hg : g.WellFormed) (path : Text) :
    ∃ g', RuleFile.read path g.listing = .ok g' ∧ RuleFile.Denotes g.rulesOf g' ∧
      g'.nonterminals = g.nonterminals ∧ ∀ x, g'.productions x = g.productions x := by
  obtain ⟨g', hread, hdenotes⟩ :=
    RuleFile.exists_read_eq_ok path hg.spelled_listing hg.closed_rulesOf
  refine ⟨g', hread, hdenotes, ?_, ?_⟩
  · rw [hdenotes.nonterminals, map_head_rulesOf,
      FirstOccurrences.eraseDups_of_nodup hg.nonterminals_nodup]
  · intro x
    rw [hdenotes.productions, hg.alternativesFor_rulesOf,
      FirstOccurrences.eraseDups_of_nodup (hg.productions_nodup x)]

end WellFormed

/-- Listing a grammar and reading the listing gives the nonterminals and their productions back in
order, the first nonterminal as start symbol, and the terminals in use as they come in the listing.
Grammars with the same listing therefore differ in nothing that is listed. -/
theorem read_listing (hg : g.Reachable) (path : Text) :
    (∃ g', RuleFile.read path g.listing = .ok g' ∧ g'.nonterminals = g.nonterminals ∧
      (∀ x, g'.productions x = g.productions x) ∧ g'.listing = g.listing ∧
      g'.start = g.nonterminals.head? ∧
      g'.terminals = (g.listing.filter Symbol.isLower).eraseDups ∧
      ∀ a, a ∈ g'.terminals ↔ ∃ x, .terminal a ∈ g.productions x) ∧
    ∀ h : Grammar, h.Reachable → h.listing = g.listing →
      h.nonterminals = g.nonterminals ∧ ∀ x, h.productions x = g.productions x := by
  have hwf := hg.wellFormed
  obtain ⟨g', hread, hdenotes, hnonterminals, hproductions⟩ := hwf.exists_read_listing path
  refine ⟨⟨g', hread, hnonterminals, hproductions, ?_, ?_, ?_, ?_⟩, ?_⟩
  · simp only [listing, hnonterminals, hproductions]
  · rw [hdenotes.start, map_head_rulesOf]
  · rw [hdenotes.terminals, hwf.filter_isLower_listing]
  · intro a
    rw [hdenotes.terminals, List.mem_eraseDups]
    exact WellFormed.mem_lettersOf_rulesOf a
  · intro h hh hlisting
    obtain ⟨h', hread', _, hnonterminals', hproductions'⟩ :=
      hh.wellFormed.exists_read_listing path
    rw [hlisting, hread] at hread'
    obtain rfl := Except.ok.inj hread'
    refine ⟨hnonterminals'.symm.trans hnonterminals, ?_⟩
    intro x
    exact (hproductions' x).symm.trans (hproductions x)

/-- The listing of `balanced` is read back, with `S` as the start symbol. -/
theorem balanced_read_listing :
    ∃ g', RuleFile.read "balanced".toList balanced.listing = .ok g' ∧ g'.start = some 'S' ∧
      g'.productions 'S' = [.binary 'A' 'B', .binary 'A' 'T'] := by
  obtain ⟨g', hread, _, hproductions, _, hstart, _⟩ :=
    (read_listing balanced_reachable "balanced".toList).1
  refine ⟨g', hread, ?_, ?_⟩
  · rw [hstart]
    decide +kernel
  · rw [hproductions]
    decide +kernel

end Grammar

end ChomskyNormal
