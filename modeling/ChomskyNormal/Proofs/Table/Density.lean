import ChomskyNormal.Proofs.Membership
import Mathlib.Data.Set.Function

/-!
Slots are dense: the stretches of a word and the slots of its table belong to each other one by one,
with no slot shared and none left over. So a table has nothing in it that its cells do not show, and
tables are equal as soon as their words, their nonterminals and their cells are.
-/

set_option autoImplicit false
set_option relaxedAutoImplicit false

namespace ChomskyNormal

namespace Table

variable {n i j k span span' : Nat}

private theorem slot_add (n i span : Nat) : slot n i span = slot n 0 span + i := rfl

theorem slot_last (hn : 1 ≤ n) : slot n 1 n = size n := by
  have htwo : 1 * 2 ≤ n * (n + 1) := Nat.mul_le_mul hn (by omega)
  simp only [slot, size, Nat.sub_self]
  omega

theorem slot_lt_size (hs : 1 ≤ span) (hi : i + span ≤ n) : slot n i span < size n := by
  rw [← slot_last (by omega)]
  by_cases hspan : span = n
  · have hfirst : i = 0 := by omega
    rw [hspan, hfirst]
    exact slot_lt_of_lt_left (by omega) n
  · exact slot_lt_of_lt hs hi (by omega) le_rfl 1

private theorem slot_inj (hs : 1 ≤ span) (hi : i + span ≤ n) (hs' : 1 ≤ span') (hj : j + span' ≤ n)
    (h : slot n i span = slot n j span') : i = j ∧ span = span' := by
  rcases Nat.lt_trichotomy span span' with hlt | rfl | hlt
  · exact absurd h (Nat.ne_of_lt (slot_lt_of_lt hs hi hlt (by omega) j))
  · rw [slot_add, slot_add n j] at h
    exact ⟨Nat.add_left_cancel h, rfl⟩
  · exact absurd h.symm (Nat.ne_of_lt (slot_lt_of_lt hs' hj hlt (by omega) i))

private theorem exists_slot_of_lt_row (hs : 1 ≤ span) (hn : span ≤ n)
    (hk : k < slot n (n + 1 - span) span) : ∃ i l, 1 ≤ l ∧ i + l ≤ n ∧ slot n i l = k := by
  induction span, hs using Nat.le_induction with
  | base =>
    rw [slot_one hn] at hk
    exact ⟨k, 1, le_rfl, by omega, slot_one hn k⟩
  | succ span hs ih =>
    rw [slot_add] at hk
    by_cases hrow : k < slot n 0 (span + 1)
    · rw [← slot_row_end hs (by omega)] at hrow
      exact ih (by omega) hrow
    · refine ⟨k - slot n 0 (span + 1), span + 1, by omega, by omega, ?_⟩
      rw [slot_add]
      omega

theorem exists_slot (hk : k < size n) : ∃ i l, 1 ≤ l ∧ i + l ≤ n ∧ slot n i l = k := by
  have hn : 1 ≤ n := by
    by_contra hzero
    obtain rfl : n = 0 := by omega
    exact Nat.not_lt_zero k hk
  apply exists_slot_of_lt_row hn le_rfl
  rwa [Nat.add_sub_cancel_left, slot_last hn]

/-- The pairs of a first and a last position belong to the slots one by one. -/
private theorem slot_bijOn (n : Nat) :
    Set.BijOn (fun ij : Nat × Nat => slot n ij.1 (ij.2 - ij.1 + 1))
      {ij | ij.1 ≤ ij.2 ∧ ij.2 < n} {k | k < size n} := by
  refine ⟨?_, ?_, ?_⟩
  · rintro ⟨i, j⟩ ⟨hij, hj⟩
    exact slot_lt_size (by omega) (by simp only at hij hj; omega)
  · rintro ⟨i, j⟩ ⟨hij, hj⟩ ⟨i', j'⟩ ⟨hij', hj'⟩ h
    simp only at hij hj hij' hj' h
    obtain ⟨rfl, hspan⟩ := slot_inj (by omega) (by omega) (by omega) (by omega) h
    rw [Prod.mk.injEq]
    omega
  · intro k hk
    obtain ⟨i, l, hl, hi, rfl⟩ := exists_slot hk
    refine ⟨(i, i + l - 1), ⟨?_, ?_⟩, ?_⟩
    · show i ≤ i + l - 1
      omega
    · show i + l - 1 < n
      omega
    · show slot n i (i + l - 1 - i + 1) = slot n i l
      congr 1
      omega

variable {g g' : Grammar} {w : Text} {x : Char}

theorem size_cells (hg : g.WellFormed) (w : Text) : (ofWord g w).cells.size = size w.length := by
  by_cases hw : w = []
  · subst hw
    rfl
  · have hlen : 1 ≤ w.length := List.length_pos_iff.mpr hw
    exact (filled_fill hg hw).size.trans (slot_last hlen)

theorem getElem?_cells {t : Table} (h : slot t.length i span < t.cells.size) :
    t.cells[slot t.length i span]? = some (t.entry i span) := by
  rw [entry, Array.getD_eq_getD_getElem?, Array.getElem?_eq_getElem h, Option.getD_some]

open Classical in
private theorem filterMap_generators (g : Grammar) (v : Text) :
    (g.generators v).filterMap (fun k => g.nonterminals[k]?) =
      g.nonterminals.filter fun x => g.Generates x v := by
  have hname : ∀ p ∈ g.nonterminals.zipIdx.filter (fun p => g.Generates p.1 v),
      g.nonterminals[p.2]? = some p.1 := by
    intro p hp
    exact List.mem_zipIdx_iff_getElem?.mp (List.mem_filter.mp hp).1
  have hfst : (g.nonterminals.zipIdx.map Prod.fst).filter (fun x => g.Generates x v) =
      (g.nonterminals.zipIdx.filter fun p => g.Generates p.1 v).map Prod.fst := by
    rw [List.filter_map]
    rfl
  rw [List.zipIdx_map_fst] at hfst
  rw [Grammar.generators, List.filterMap_map, hfst]
  exact (List.filterMap_congr hname).trans (congrFun List.filterMap_eq_map' _)

theorem cell_ofWord (hg : g.WellFormed) (w : Text) (i j : Nat) :
    (ofWord g w).cell i j = g.nonterminals.filter fun x => (ofWord g w).contains i j x := by
  classical
  by_cases hin : i ≤ j ∧ j < (ofWord g w).length
  · have hij : i ≤ j := hin.1
    have hj : j < w.length := hin.2
    rw [cell, if_pos hin, entry_ofWord hg (by omega) (by omega)]
    refine (filterMap_generators g _).trans (List.filter_congr ?_)
    intro x _
    rw [Bool.eq_iff_iff, decide_eq_true_iff, contains_ofWord hg x hij hj]
  · rw [cell, if_neg hin]
    simp only [contains, if_neg hin, List.filter_false]

private theorem mem_nonterminals_of_contains {t : Table} (h : t.contains i j x = true) :
    x ∈ t.nonterminals := by
  rw [contains] at h
  split at h
  · rw [Option.any_eq_true] at h
    obtain ⟨k, hk, -⟩ := h
    exact List.isSome_idxOf?.mp (Option.isSome_iff_exists.mpr ⟨k, hk⟩)
  · cases h

theorem mem_cell_ofWord (hg : g.WellFormed) :
    x ∈ (ofWord g w).cell i j ↔ (ofWord g w).contains i j x = true := by
  rw [cell_ofWord hg, List.mem_filter]
  constructor
  · exact And.right
  · exact fun h => ⟨mem_nonterminals_of_contains h, h⟩

private theorem generators_eq_of_cell_eq (hg : g.WellFormed) (hg' : g'.WellFormed)
    (hn : g.nonterminals = g'.nonterminals) (hij : i ≤ j) (hj : j < w.length)
    (h : (ofWord g w).cell i j = (ofWord g' w).cell i j) :
    g.generators ((w.drop i).take (j - i + 1)) = g'.generators ((w.drop i).take (j - i + 1)) := by
  have hsame (x : Char) : g.Generates x ((w.drop i).take (j - i + 1)) ↔
      g'.Generates x ((w.drop i).take (j - i + 1)) := by
    rw [← contains_ofWord hg x hij hj, ← mem_cell_ofWord hg, h, mem_cell_ofWord hg',
      contains_ofWord hg' x hij hj]
  rw [Grammar.generators, Grammar.generators, hn]
  congr 1
  apply List.filter_congr
  rintro ⟨x, k⟩ -
  rw [decide_eq_decide]
  exact hsame x

/-- A table is known by its word, its nonterminals and its cells: each slot belongs to a stretch, the
cell of which tells what the slot holds. -/
theorem ofWord_eq_of_cells (hg : g.WellFormed) (hg' : g'.WellFormed)
    (hn : g.nonterminals = g'.nonterminals)
    (h : ∀ i j, i ≤ j → j < w.length → (ofWord g w).cell i j = (ofWord g' w).cell i j) :
    ofWord g w = ofWord g' w := by
  have hsize := size_cells hg w
  have hsize' := size_cells hg' w
  have hcells : (ofWord g w).cells = (ofWord g' w).cells := by
    apply Array.ext_getElem?
    intro k
    by_cases hk : k < size w.length
    · obtain ⟨i, l, hl, hi, rfl⟩ := exists_slot hk
      have hspan : i + l - 1 - i + 1 = l := by omega
      have hgenerators := generators_eq_of_cell_eq hg hg' hn (by omega : i ≤ i + l - 1)
        (by omega) (h i (i + l - 1) (by omega) (by omega))
      rw [hspan, ← entry_ofWord hg hl hi, ← entry_ofWord hg' hl hi] at hgenerators
      calc
        (ofWord g w).cells[slot w.length i l]? = some ((ofWord g w).entry i l) :=
          getElem?_cells (hsize ▸ hk)
        _ = some ((ofWord g' w).entry i l) := by rw [hgenerators]
        _ = (ofWord g' w).cells[slot w.length i l]? := (getElem?_cells (hsize' ▸ hk)).symm
    · rw [Array.getElem?_eq_none (by omega), Array.getElem?_eq_none (by omega)]
  rw [ofWord, ofWord, hn]
  congr 1

/-- Two tables are equal exactly when they are of the same word, over the same nonterminals in the
same order, and have the same cells; for the first and last positions of stretches belong one by one
to the slots, and these are what the table has. -/
theorem eq_iff_same_cells :
    (∀ g₁ g₂ : Grammar, g₁.Reachable → g₂.Reachable → ∀ w₁ w₂ t₁ t₂,
      g₁.table w₁ = .ok t₁ → g₂.table w₂ = .ok t₂ →
      (t₁ = t₂ ↔ w₁ = w₂ ∧ g₁.nonterminals = g₂.nonterminals ∧
        ∀ i j, i ≤ j → j < w₁.length → t₁.cell i j = t₂.cell i j)) ∧
    (∀ g : Grammar, g.Reachable → ∀ w t, g.table w = .ok t → t.cells.size = size w.length) ∧
    ∀ n, Set.BijOn (fun ij : Nat × Nat => slot n ij.1 (ij.2 - ij.1 + 1))
      {ij | ij.1 ≤ ij.2 ∧ ij.2 < n} {k | k < size n} := by
  refine ⟨?_, ?_, slot_bijOn⟩
  · intro g₁ g₂ hg₁ hg₂ w₁ w₂ t₁ t₂ h₁ h₂
    obtain ⟨-, rfl⟩ := Grammar.table_eq_ok.mp h₁
    obtain ⟨-, rfl⟩ := Grammar.table_eq_ok.mp h₂
    constructor
    · intro h
      have hw : w₁ = w₂ := congrArg Table.word h
      have hn : g₁.nonterminals = g₂.nonterminals := congrArg Table.nonterminals h
      exact ⟨hw, hn, fun i j _ _ => by rw [h]⟩
    · intro h
      obtain ⟨rfl, hn, hcells⟩ := h
      exact ofWord_eq_of_cells hg₁.wellFormed hg₂.wellFormed hn hcells
  · intro g hg w t h
    obtain ⟨-, rfl⟩ := Grammar.table_eq_ok.mp h
    exact size_cells hg.wellFormed w

/-- One more production of `L`, of which no stretch of `aabb` makes use, leaves the table of `aabb` as
it is. One more production of `T` shows in a cell, and so the table is another one. -/
theorem balanced_same_cells :
    ∃ t t' t'', Grammar.balanced.table "aabb".toList = .ok t ∧
      ((Call.addProduction 'L' "LL".toList).after Grammar.balanced).table "aabb".toList = .ok t' ∧
      ((Call.addProduction 'T' "AB".toList).after Grammar.balanced).table "aabb".toList = .ok t'' ∧
      t = t' ∧ t ≠ t'' := by
  have hr := Grammar.balanced_reachable
  have ht : Grammar.balanced.table "aabb".toList = .ok (.ofWord Grammar.balanced "aabb".toList) := by
    decide +kernel
  have ht' : ((Call.addProduction 'L' "LL".toList).after Grammar.balanced).table "aabb".toList =
      .ok (.ofWord ((Call.addProduction 'L' "LL".toList).after Grammar.balanced) "aabb".toList) := by
    decide +kernel
  have ht'' : ((Call.addProduction 'T' "AB".toList).after Grammar.balanced).table "aabb".toList =
      .ok (.ofWord ((Call.addProduction 'T' "AB".toList).after Grammar.balanced) "aabb".toList) := by
    decide +kernel
  refine ⟨_, _, _, ht, ht', ht'', ?_, ?_⟩
  · refine (eq_iff_same_cells.1 _ _ hr (hr.after _) _ _ _ _ ht ht').mpr ⟨rfl, ?_, ?_⟩
    · decide +kernel
    · have hcells : ∀ j < 4, ∀ i ≤ j, (ofWord Grammar.balanced "aabb".toList).cell i j =
          (ofWord ((Call.addProduction 'L' "LL".toList).after Grammar.balanced)
            "aabb".toList).cell i j := by decide +kernel
      exact fun i j hij hj => hcells j hj i hij
  · intro h
    have hcells := ((eq_iff_same_cells.1 _ _ hr (hr.after _) _ _ _ _ ht ht'').mp h).2.2
    have hcell := hcells 1 2 (by decide) (by decide)
    exact absurd hcell (by decide +kernel)

end Table

end ChomskyNormal
