import ChomskyNormal.Proofs.Grammar.Reordering
import ChomskyNormal.Proofs.RuleFile.Reports
import ChomskyNormal.Proofs.RuleFile.RoundTrip

/-!
Listings as a normal form of rule files. The listing of a grammar that was read from a file is read
as that grammar again, except that its terminals may come in another order: a repeated head moves
alternatives to its first line. With no repeated head nothing moves.
-/

set_option autoImplicit false
set_option relaxedAutoImplicit false

namespace ChomskyNormal.RuleFile

variable {path t : Text} {g : Grammar} {rs : List Rule} {a : Char}

theorem denotes_of_read (h : read path t = .ok g) : Denotes ((rules t).map Prod.snd) g := by
  obtain ⟨hspelled, hclosed⟩ := spelled_of_read h
  obtain ⟨g', hread, hdenotes⟩ := exists_read_eq_ok path hspelled hclosed
  rwa [Except.ok.inj (h.symm.trans hread)]

namespace Denotes

private theorem start_eq_head? (h : Denotes rs g) : g.start = g.nonterminals.head? := by
  rw [h.start, h.nonterminals, FirstOccurrences.head?_eraseDups]

private theorem mem_terminals_iff (h : Denotes rs g) :
    a ∈ g.terminals ↔ ∃ x, .terminal a ∈ g.productions x := by
  rw [h.terminals, List.mem_eraseDups]
  constructor
  · intro ha
    obtain ⟨r, hr, ha⟩ := List.mem_flatMap.mp ha
    obtain ⟨p, hp, hletter⟩ := List.mem_filterMap.mp ha
    cases p with
    | terminal b =>
      cases hletter
      refine ⟨r.head, ?_⟩
      rw [h.productions, List.mem_eraseDups]
      exact List.mem_flatMap.mpr ⟨r, List.mem_filter.mpr ⟨hr, by simp⟩, hp⟩
    | binary b c => cases hletter
  · intro ha
    obtain ⟨x, hx⟩ := ha
    rw [h.productions, List.mem_eraseDups] at hx
    obtain ⟨r, hr, hp⟩ := List.mem_flatMap.mp hx
    refine List.mem_flatMap.mpr ⟨r, (List.mem_filter.mp hr).1, ?_⟩
    exact List.mem_filterMap.mpr ⟨.terminal a, hp, rfl⟩

/-- Without repeated heads the rules of the grammar are the rules themselves, each alternative
being kept once. -/
private theorem rulesOf_eq (h : Denotes rs g) (hheads : (rs.map Rule.head).Nodup) :
    g.rulesOf = rs.map fun r => ⟨r.head, r.alternatives.eraseDups⟩ := by
  rw [Grammar.rulesOf, h.nonterminals, FirstOccurrences.eraseDups_of_nodup hheads, List.map_map]
  apply List.map_congr_left
  intro r hr
  have hown : (rs.filter fun r' => r'.head = r.head) = [r] := by
    have honly : (rs.filter fun r' => r'.head = r.head) = rs.filter fun r' => r' = r := by
      apply List.filter_congr
      intro r' hr'
      have hiff : r'.head = r.head ↔ r' = r :=
        ⟨List.inj_on_of_nodup_map hheads hr' hr, congrArg Rule.head⟩
      simp [hiff]
    rw [honly, List.filter_eq, List.count_eq_one_of_mem hheads.of_map hr]
    rfl
  simp [h.productions, alternativesFor, hown]

private theorem eraseDups_lettersOf_rulesOf (h : Denotes rs g) (hheads : (rs.map Rule.head).Nodup) :
    (lettersOf g.rulesOf).eraseDups = g.terminals := by
  rw [h.terminals, h.rulesOf_eq hheads, lettersOf, lettersOf, List.flatMap_map]
  apply FirstOccurrences.eraseDups_flatMap_congr
  intro r _
  exact FirstOccurrences.eraseDups_filterMap_eraseDups Production.letter? r.alternatives

end Denotes

/-- Rules on different lines have different heads. -/
def HeadsOnce (t : Text) : Prop :=
  ∀ (i j : Nat) (line line' : Text) (r r' : Rule),
    (t.splitOn '\n')[i]? = some line → (t.splitOn '\n')[j]? = some line' →
      HasRule line r → HasRule line' r' → r.head = r'.head → i = j

private theorem headsOnce_iff : HeadsOnce t ↔ ((rules t).map fun nr => nr.2.head).Nodup := by
  have hfound := found_rules t
  constructor
  · intro h
    refine List.pairwise_map.mpr (hfound.increasing.imp_of_mem ?_)
    intro nr nr' hmem hmem' hlt hhead
    obtain ⟨i, line, hline, hn, hr⟩ := (hfound.mem_iff nr.1 nr.2).mp hmem
    obtain ⟨j, line', hline', hn', hr'⟩ := (hfound.mem_iff nr'.1 nr'.2).mp hmem'
    have hsame := h i j line line' nr.2 nr'.2 hline hline' hr hr' hhead
    omega
  · intro hnodup i j line line' r r' hline hline' hr hr' hhead
    have hmem := (hfound.mem_iff (i + 1) r).mpr ⟨i, line, hline, rfl, hr⟩
    have hmem' := (hfound.mem_iff (j + 1) r').mpr ⟨j, line', hline', rfl, hr'⟩
    have hsame : (i + 1, r) = (j + 1, r') := List.inj_on_of_nodup_map hnodup hmem hmem' hhead
    have hnumber : i + 1 = j + 1 := congrArg Prod.fst hsame
    omega

instance : DecidablePred HeadsOnce := fun _ => decidable_of_iff _ headsOnce_iff.symm

/-- Whatever is read from a file can be listed and read again: the grammar comes back with its
nonterminals, start symbol and productions in order, with the same listing, and with its terminals
in some order, on which neither tables nor answers nor words depend. If no head is repeated in the
file, the grammar comes back as it was. -/
theorem read_listing_of_read (h : read path t = .ok g) (path' : Text) :
    ∃ g', read path' g.listing = .ok g' ∧ g'.nonterminals = g.nonterminals ∧
      g'.start = g.start ∧ (∀ x, g'.productions x = g.productions x) ∧
      g'.listing = g.listing ∧ g'.terminals.Perm g.terminals ∧
      (∀ w, g'.table w = g.table w ∧ g'.derives w = g.derives w) ∧
      (∀ {σ : Type} (choose : Chooser σ) file asked depth s,
        g'.sampleIn choose file asked depth s = g.sampleIn choose file asked depth s) ∧
      (HeadsOnce t → g' = g) := by
  have hdenotes := denotes_of_read h
  have hwf := (reachable_of_read h).wellFormed
  obtain ⟨g', hread, hdenotes', hnonterminals, hproductions⟩ := hwf.exists_read_listing path'
  have hwf' := (reachable_of_read hread).wellFormed
  have hstart : g'.start = g.start := by
    rw [hdenotes'.start_eq_head?, hdenotes.start_eq_head?, hnonterminals]
  have hterminals : g'.terminals.Perm g.terminals := by
    refine (List.perm_ext_iff_of_nodup hwf'.terminals_nodup hwf.terminals_nodup).mpr ?_
    intro a
    simp only [hdenotes'.mem_terminals_iff, hdenotes.mem_terminals_iff, hproductions]
  have hreorders : g'.Reorders g := by
    refine ⟨?_, hstart, hterminals⟩
    exact Grammar.rules_eq_of_views hwf'.nonterminals_nodup hnonterminals hproductions
  refine ⟨g', hread, hnonterminals, hstart, hproductions, ?_, hterminals, ?_, ?_, ?_⟩
  · simp only [Grammar.listing, hnonterminals, hproductions]
  · intro w
    exact ⟨hreorders.table w, hreorders.derives w⟩
  · intro σ choose file asked depth s
    exact hreorders.sampleIn file asked depth s
  · intro honce
    refine Grammar.eq_of_views hwf'.nonterminals_nodup hnonterminals hproductions ?_ hstart
    have hheads : (((rules t).map Prod.snd).map Rule.head).Nodup := by
      rw [List.map_map]
      exact headsOnce_iff.mp honce
    rw [hdenotes'.terminals, hdenotes.eraseDups_lettersOf_rulesOf hheads]

/-- A file with no repeated head comes back as it was. -/
theorem sums_read_listing :
    ∃ g : Grammar, g = ⟨[('S', [.binary 'A' 'B', .terminal 'a']), ('A', [.terminal 'b']),
        ('B', [.binary 'A' 'S', .terminal 'a'])], ['a', 'b'], some 'S'⟩ ∧
      read "sums".toList "S::=AB|a\n; note\nA::=b\nB::=AS|a".toList = .ok g ∧
      g.listing = "S::=AB|a\nA::=b\nB::=AS|a".toList ∧
      read "again".toList g.listing = .ok g := by
  have hread : read "sums".toList "S::=AB|a\n; note\nA::=b\nB::=AS|a".toList =
      .ok ⟨[('S', [.binary 'A' 'B', .terminal 'a']), ('A', [.terminal 'b']),
        ('B', [.binary 'A' 'S', .terminal 'a'])], ['a', 'b'], some 'S'⟩ := by
    decide +kernel
  obtain ⟨g', hagain, _, _, _, _, _, _, _, hsame⟩ := read_listing_of_read hread "again".toList
  obtain rfl := hsame (by decide +kernel)
  exact ⟨_, rfl, hread, by decide +kernel, hagain⟩

/-- A repeated head can change the order of the terminals. -/
example : (grammar "S::=a\nA::=b\nS::=c".toList).terminals = ['a', 'b', 'c'] ∧
    (grammar (grammar "S::=a\nA::=b\nS::=c".toList).listing).terminals = ['a', 'c', 'b'] := by
  decide +kernel

end ChomskyNormal.RuleFile
