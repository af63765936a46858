import ChomskyNormal.Proofs.Letters
import ChomskyNormal.Proofs.Membership
import ChomskyNormal.Table.Drawing

/-!
Tables of parts of a word. In the table of the whole word a part fills a triangle of its own, in
which each cell is the cell of the part by itself: what stands before or behind a stretch never
shows in its cell. So the lines of a square, but for the first one, are the square of the word
without its first character.
-/

set_option autoImplicit false
set_option relaxedAutoImplicit false

namespace ChomskyNormal

namespace Table

variable {g : Grammar} {v : Text} {i j span : Nat}

private theorem take_drop_of_part (u x : Text) (hi : i + span ≤ v.length) :
    ((u ++ v ++ x).drop (u.length + i)).take span = (v.drop i).take span := by
  have hspan : span ≤ (v.drop i).length := by
    rw [List.length_drop]
    omega
  rw [List.append_assoc, List.drop_length_add_append,
    List.drop_append_of_le_length (by omega), List.take_append_of_le_length hspan]

private theorem entry_of_part (hg : g.WellFormed) (u x : Text) (hs : 1 ≤ span)
    (hi : i + span ≤ v.length) :
    (ofWord g (u ++ v ++ x)).entry (u.length + i) span = (ofWord g v).entry i span := by
  have hwhole : u.length + i + span ≤ (u ++ v ++ x).length := by
    simp only [List.length_append]
    omega
  rw [entry_ofWord hg hs hwhole, entry_ofWord hg hs hi, take_drop_of_part u x hi]

private theorem within_part (u x : Text) (hj : j < v.length) :
    (u.length + i ≤ u.length + j ∧ u.length + j < (ofWord g (u ++ v ++ x)).length) ↔
      (i ≤ j ∧ j < (ofWord g v).length) := by
  have hwhole : (ofWord g (u ++ v ++ x)).length = u.length + v.length + x.length := by
    simp only [length, ofWord, List.length_append]
  have hpart : (ofWord g v).length = v.length := rfl
  omega

private theorem read_of_part {α : Type} (read : List Nat → α) (outside : α) (hg : g.WellFormed)
    (u x : Text) (hj : j < v.length) :
    (if u.length + i ≤ u.length + j ∧ u.length + j < (ofWord g (u ++ v ++ x)).length then
      read ((ofWord g (u ++ v ++ x)).entry (u.length + i) (u.length + j - (u.length + i) + 1))
    else outside) =
    if i ≤ j ∧ j < (ofWord g v).length then read ((ofWord g v).entry i (j - i + 1))
    else outside := by
  simp only [within_part u x hj]
  by_cases hij : i ≤ j ∧ j < (ofWord g v).length
  · have hspan : u.length + j - (u.length + i) + 1 = j - i + 1 := by omega
    rw [if_pos hij, if_pos hij, hspan, entry_of_part hg u x (by omega) (by omega)]
  · rw [if_neg hij, if_neg hij]

private theorem cell_of_part (hg : g.WellFormed) (u x : Text) (hj : j < v.length) :
    (ofWord g (u ++ v ++ x)).cell (u.length + i) (u.length + j) = (ofWord g v).cell i j :=
  read_of_part (fun ks => ks.filterMap fun k => g.nonterminals[k]?) [] hg u x hj

private theorem contains_of_part (hg : g.WellFormed) (u x : Text) (hj : j < v.length) (a : Char) :
    (ofWord g (u ++ v ++ x)).contains (u.length + i) (u.length + j) a =
      (ofWord g v).contains i j a :=
  read_of_part (fun ks => (g.nonterminals.idxOf? a).any fun k => ks.contains k) false hg u x hj

/-- The cells of one start, for all ends in order. -/
def squareLine (t : Table) (i : Nat) : Text :=
  (List.range t.length).flatMap fun j => t.cell i j

private theorem square_eq (t : Table) :
    t.square = (List.range t.length).flatMap fun i => t.squareLine i ++ ['\n'] := rfl

private theorem newline_notMem_squareLine (hg : g.WellFormed) (w : Text) (i : Nat) :
    '\n' ∉ (ofWord g w).squareLine i := by
  intro h
  obtain ⟨j, _, hcell⟩ := List.mem_flatMap.mp h
  have hcase : (Symbol.nonterminal '\n').HasCase := hg.isUpper _ (mem_nonterminals_of_mem_cell hcell)
  exact hcase.char_ne (c := '\n') (by decide) rfl

private theorem squareLine_cons (hg : g.WellFormed) (c : Char) (w : Text) (i : Nat) :
    (ofWord g (c :: w)).squareLine (i + 1) = (ofWord g w).squareLine i := by
  have hfirst : (ofWord g (c :: w)).cell (i + 1) 0 = [] := by
    rw [cell, if_neg (by omega)]
  have hlength : (ofWord g (c :: w)).length = (ofWord g w).length + 1 := rfl
  rw [squareLine, squareLine, hlength, List.range_succ_eq_map, List.flatMap_cons, hfirst,
    List.nil_append, List.flatMap_map]
  apply List.flatMap_congr
  intro j hj
  have hj : j < w.length := List.mem_range.mp hj
  have hcell := cell_of_part (i := i) hg [c] [] hj
  rwa [List.append_nil, List.singleton_append, List.length_singleton, Nat.add_comm 1,
    Nat.add_comm 1] at hcell

private theorem square_cons (hg : g.WellFormed) (c : Char) (w : Text) :
    (ofWord g (c :: w)).square =
      (ofWord g (c :: w)).squareLine 0 ++ '\n' :: (ofWord g w).square := by
  have hlength : (ofWord g (c :: w)).length = (ofWord g w).length + 1 := rfl
  have hrest : (List.range (ofWord g w).length).flatMap
      (fun i => (ofWord g (c :: w)).squareLine (i + 1) ++ ['\n']) = (ofWord g w).square := by
    simp only [square_eq, squareLine_cons hg]
  rw [square_eq, hlength, List.range_succ_eq_map, List.flatMap_cons, List.flatMap_map, hrest,
    List.append_assoc, List.singleton_append]

end Table

namespace Grammar

variable {g : Grammar} {u v x : Text} {t : Table}

private theorem table_of_part_eq_ok (h : g.table (u ++ v ++ x) = .ok t) :
    g.table v = .ok (.ofWord g v) ∧ t = .ofWord g (u ++ v ++ x) := by
  obtain ⟨hfit, rfl⟩ := table_eq_ok.mp h
  obtain ⟨hterminals, hrest⟩ := unfit?_eq_none.mp hfit
  refine ⟨table_eq_ok.mpr ⟨unfit?_eq_none.mpr ⟨?_, hrest⟩, rfl⟩, rfl⟩
  intro c hc
  exact hterminals c (List.mem_append_left x (List.mem_append_right u hc))

/-- If a word has a table, so has each part of it, and the cells of the part are the same in both
tables, as is what they contain. The square of a word is one line, with no line feed but at its
end, and then the square of the word without its first character. -/
theorem table_of_part (hg : g.Reachable) :
    (∀ u v x t, g.table (u ++ v ++ x) = .ok t → ∃ t', g.table v = .ok t' ∧
      ∀ i j, i < v.length → j < v.length →
        t.cell (u.length + i) (u.length + j) = t'.cell i j ∧
        ∀ a, t.contains (u.length + i) (u.length + j) a = t'.contains i j a) ∧
    ∀ c w s, (g.table (c :: w)).map Table.square = .ok s →
      ∃ first s', '\n' ∉ first ∧ (g.table w).map Table.square = .ok s' ∧
        s = first ++ '\n' :: s' := by
  have hwf := hg.wellFormed
  constructor
  · intro u v x t h
    obtain ⟨hpart, rfl⟩ := table_of_part_eq_ok h
    refine ⟨_, hpart, ?_⟩
    intro i j _ hj
    exact ⟨Table.cell_of_part hwf u x hj, Table.contains_of_part hwf u x hj⟩
  · intro c w s h
    obtain ⟨t, ht, rfl⟩ := map_eq_ok_iff.mp h
    have hwhole : g.table ([c] ++ w ++ []) = .ok t := by
      rwa [List.append_nil, List.singleton_append]
    obtain ⟨hpart, rfl⟩ := table_of_part_eq_ok hwhole
    refine ⟨(Table.ofWord g (c :: w)).squareLine 0, (Table.ofWord g w).square,
      Table.newline_notMem_squareLine hwf (c :: w) 0, ?_, ?_⟩
    · rw [hpart]
      rfl
    · rw [List.append_nil, List.singleton_append]
      exact Table.square_cons hwf c w

/-- In the table of `aabb` the part `ab` has the cell that it has by itself, and the square of `abb`
stands below the first line of the square of `aabb`. -/
theorem balanced_table_of_part :
    balanced.Reachable ∧ (∃ t t', balanced.table "aabb".toList = .ok t ∧
      balanced.table "ab".toList = .ok t' ∧ t.cell 1 2 = t'.cell 0 1 ∧ t'.cell 0 1 = ['S']) ∧
      ∃ first s', (balanced.table "abb".toList).map Table.square = .ok s' ∧
        (balanced.table "aabb".toList).map Table.square = .ok (first ++ '\n' :: s') := by
  obtain ⟨hcells, hsquares⟩ := table_of_part balanced_reachable
  have ht : balanced.table ("a".toList ++ "ab".toList ++ "b".toList) =
      .ok (.ofWord balanced "aabb".toList) := by decide +kernel
  have hs : (balanced.table ('a' :: "abb".toList)).map Table.square =
      .ok (Table.ofWord balanced "aabb".toList).square := by decide +kernel
  refine ⟨balanced_reachable, ?_, ?_⟩
  · obtain ⟨t', ht', hsame⟩ := hcells _ _ _ _ ht
    obtain ⟨-, rfl⟩ := table_eq_ok.mp ht'
    exact ⟨_, _, ht, ht', (hsame 0 1 (by decide) (by decide)).1, by decide +kernel⟩
  · obtain ⟨first, s', -, hs', heq⟩ := hsquares _ _ _ hs
    exact ⟨first, s', hs', by rw [← heq]; exact hs⟩

end Grammar

end ChomskyNormal
