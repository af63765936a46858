import ChomskyNormal.Proofs.Rewriting
import ChomskyNormal.Proofs.Table.Slots
import ChomskyNormal.Table.Filling

/-!
Filling the table. The cell of a stretch comes to hold the positions of exactly those nonterminals
that generate the stretch; the invariant says so of all stretches filled so far.
-/

set_option autoImplicit false
set_option relaxedAutoImplicit false

namespace ChomskyNormal

namespace Grammar

open Classical in
/-- The positions of the nonterminals that generate a word, in the order of declarations. -/
noncomputable def generators (g : Grammar) (w : Text) : List Nat :=
  (g.nonterminals.zipIdx.filter fun (x, _) => g.Generates x w).map Prod.snd

variable {g : Grammar} {x : Char} {w : Text} {k : Nat}

theorem mem_generators :
    k ∈ g.generators w ↔ ∃ x, g.nonterminals[k]? = some x ∧ g.Generates x w := by
  simp only [generators, List.mem_map, List.mem_filter, decide_eq_true_eq, Prod.exists,
    List.mem_zipIdx_iff_getElem?]
  constructor
  · intro h
    obtain ⟨x, k, ⟨hk, hx⟩, rfl⟩ := h
    exact ⟨x, hk, hx⟩
  · intro h
    obtain ⟨x, hk, hx⟩ := h
    exact ⟨x, k, ⟨hk, hx⟩, rfl⟩

theorem getElem?_of_number? (h : g.number? x = some k) : g.nonterminals[k]? = some x := by
  obtain ⟨hk, hx, -⟩ := List.idxOf?_eq_some_iff.mp h
  rw [List.getElem?_eq_getElem hk, hx]

theorem exists_number? (hx : x ∈ g.nonterminals) : ∃ k, g.number? x = some k :=
  Option.isSome_iff_exists.mp (List.isSome_idxOf?.mpr hx)

private theorem mem_generators_of_number? (h : g.number? x = some k) :
    k ∈ g.generators w ↔ g.Generates x w := by
  rw [mem_generators, getElem?_of_number? h]
  constructor
  · intro h
    obtain ⟨y, hy, hw⟩ := h
    obtain rfl := Option.some.inj hy
    exact hw
  · exact fun hw => ⟨x, rfl, hw⟩

private theorem map_number_filter_producers (keep : Producer → Bool)
    (h : ∀ x k, keep ⟨k, (g.productions x).filterMap Production.letter?,
      (g.productions x).filterMap g.pair?⟩ = true ↔ g.Generates x w) :
    (g.producers.filter keep).map Producer.number = g.generators w := by
  classical
  simp only [producers, generators, List.filter_map, List.map_map]
  congr 1
  apply List.filter_congr
  rintro ⟨x, k⟩ -
  rw [Bool.eq_iff_iff, decide_eq_true_iff]
  exact h x k

private theorem mem_letters {a : Char} :
    a ∈ (g.productions x).filterMap Production.letter? ↔ .terminal a ∈ g.productions x := by
  rw [List.mem_filterMap]
  constructor
  · intro h
    obtain ⟨p, hp, ha⟩ := h
    cases p with
    | terminal b => exact Option.some.inj ha ▸ hp
    | binary b c => cases ha
  · exact fun hp => ⟨_, hp, rfl⟩

private theorem pair?_binary_eq_some {b c : Char} {i j : Nat} :
    g.pair? (.binary b c) = some (i, j) ↔ g.number? b = some i ∧ g.number? c = some j := by
  cases hb : g.number? b <;> cases hc : g.number? c <;> simp [pair?, hb, hc]

theorem WellFormed.exists_pair? (hg : g.WellFormed) {b c : Char}
    (hp : .binary b c ∈ g.productions x) :
    ∃ i j, g.number? b = some i ∧ g.number? c = some j ∧ g.pair? (.binary b c) = some (i, j) := by
  obtain ⟨hb, hc⟩ := hg.mem_nonterminals hp
  obtain ⟨i, hi⟩ := exists_number? hb
  obtain ⟨j, hj⟩ := exists_number? hc
  exact ⟨i, j, hi, hj, pair?_binary_eq_some.mpr ⟨hi, hj⟩⟩

end Grammar

namespace Producer

variable {g : Grammar} {x : Char} {u v : Text} {k : Nat} {letters : List Char}

private theorem joins_generators (hg : g.WellFormed) :
    (Producer.mk k letters ((g.productions x).filterMap g.pair?)).joins
        (g.generators u) (g.generators v) = true ↔
      ∃ b c, .binary b c ∈ g.productions x ∧ g.Generates b u ∧ g.Generates c v := by
  simp only [joins, List.any_eq_true, List.mem_filterMap, Bool.and_eq_true, List.contains_iff_mem,
    Prod.exists]
  constructor
  · intro h
    obtain ⟨i, j, ⟨p, hp, hpair⟩, hi, hj⟩ := h
    cases p with
    | terminal a => cases hpair
    | binary b c =>
      obtain ⟨hb, hc⟩ := Grammar.pair?_binary_eq_some.mp hpair
      exact ⟨b, c, hp, (Grammar.mem_generators_of_number? hb).mp hi,
        (Grammar.mem_generators_of_number? hc).mp hj⟩
  · intro h
    obtain ⟨b, c, hp, hu, hv⟩ := h
    obtain ⟨i, j, hi, hj, hpair⟩ := hg.exists_pair? hp
    exact ⟨i, j, ⟨_, hp, hpair⟩, (Grammar.mem_generators_of_number? hi).mpr hu,
      (Grammar.mem_generators_of_number? hj).mpr hv⟩

end Producer

namespace Table

variable {g : Grammar} {w : Text} {i j span count : Nat} {cells : Array (List Nat)}

private theorem letterCell_producers (g : Grammar) (a : Char) :
    letterCell g.producers a = g.generators [a] := by
  apply Grammar.map_number_filter_producers
  intro x k
  rw [Producer.makes, List.contains_iff_mem, Grammar.mem_letters, Grammar.generates_singleton]

private theorem cutCell_producers (hg : g.WellFormed) {v : Text} (hv : 2 ≤ v.length) :
    cutCell g.producers ((List.range' 1 (v.length - 1)).map fun k =>
      (g.generators (v.take k), g.generators (v.drop k))) = g.generators v := by
  apply Grammar.map_number_filter_producers
  intro x k
  simp only [List.any_map, List.any_eq_true, List.mem_range'_1, Function.comp_apply,
    Producer.joins_generators hg]
  rw [Grammar.generates_of_two_le hv]
  constructor
  · intro h
    obtain ⟨m, ⟨hm, hlt⟩, b, c, h⟩ := h
    exact ⟨m, b, c, hm, by omega, h⟩
  · intro h
    obtain ⟨m, b, c, hm, hlt, h⟩ := h
    exact ⟨m, ⟨hm, by omega⟩, b, c, h⟩

/-- The cells of all stretches shorter than `span` and of the first `count` stretches of that
length are in place. -/
structure Filled (g : Grammar) (w : Text) (span count : Nat) (cells : Array (List Nat)) : Prop where
  size : cells.size = slot w.length count span
  entry : ∀ i l, 1 ≤ l → i + l ≤ w.length → l < span ∨ l = span ∧ i < count →
    cells.getD (slot w.length i l) [] = g.generators ((w.drop i).take l)

namespace Filled

private theorem cuts (h : Filled g w span count cells) (hc : count + span ≤ w.length) :
    Table.cuts w.length cells count span =
      (List.range' 1 (((w.drop count).take span).length - 1)).map fun k =>
        (g.generators (((w.drop count).take span).take k),
          g.generators (((w.drop count).take span).drop k)) := by
  have hlen : ((w.drop count).take span).length = span := by
    rw [List.length_take, List.length_drop]
    omega
  rw [hlen, Table.cuts]
  apply List.map_congr_left
  intro k hk
  obtain ⟨hk1, hk2⟩ := List.mem_range'_1.mp hk
  have hleft : ((w.drop count).take span).take k = (w.drop count).take k := by
    rw [List.take_take, Nat.min_eq_left (by omega)]
  have hright : ((w.drop count).take span).drop k = (w.drop (count + k)).take (span - k) := by
    rw [List.drop_take, List.drop_drop]
  rw [hleft, hright, h.entry count k hk1 (by omega) (.inl (by omega)),
    h.entry (count + k) (span - k) (by omega) (by omega) (.inl (by omega))]

private theorem push (hg : g.WellFormed) (h : Filled g w span count cells) (hs : 2 ≤ span)
    (hc : count + span ≤ w.length) :
    Filled g w span (count + 1)
      (cells.push (cutCell g.producers (Table.cuts w.length cells count span))) where
  size := by rw [Array.size_push, h.size, slot_add_one]
  entry i l hl hi hdone := by
    have hcell : cutCell g.producers (Table.cuts w.length cells count span) =
        g.generators ((w.drop count).take span) := by
      rw [h.cuts hc]
      apply cutCell_producers hg
      rw [List.length_take, List.length_drop]
      omega
    rw [Array.getD_eq_getD_getElem?, Array.getElem?_push, h.size, hcell]
    by_cases hlast : l = span ∧ i = count
    · obtain ⟨rfl, rfl⟩ := hlast
      rw [if_pos rfl, Option.getD_some]
    · have hold : l < span ∨ l = span ∧ i < count := by omega
      have hlt : slot w.length i l < slot w.length count span := by
        rcases hold with hshort | ⟨rfl, hleft⟩
        · exact slot_lt_of_lt hl hi hshort (by omega) count
        · exact slot_lt_of_lt_left hleft l
      rw [if_neg (Nat.ne_of_lt hlt), ← Array.getD_eq_getD_getElem?]
      exact h.entry i l hl hi hold

end Filled

private theorem foldl_range'_invariant {α : Type} (P : Nat → α → Prop) (f : α → Nat → α)
    (n : Nat) : ∀ (s : Nat) (a : α), P s a →
      (∀ i a, s ≤ i → i < s + n → P i a → P (i + 1) (f a i)) →
      P (s + n) ((List.range' s n).foldl f a) := by
  induction n with
  | zero =>
    intro s a h0 _
    exact h0
  | succ n ih =>
    intro s a h0 step
    have hrest := ih (s + 1) (f a s) (step s a le_rfl (by omega) h0)
      fun i a hi hn => step i a (by omega) (by omega)
    rw [List.range'_succ, List.foldl_cons, ← Nat.add_assoc, Nat.add_right_comm]
    exact hrest

private theorem Filled.withSpan (hg : g.WellFormed) (h : Filled g w span 0 cells) (hs : 2 ≤ span)
    (hn : span ≤ w.length) :
    Filled g w span (w.length + 1 - span) (Table.withSpan g.producers w.length cells span) := by
  have hrow := foldl_range'_invariant (Filled g w span)
    (fun cells i => cells.push (cutCell g.producers (Table.cuts w.length cells i span)))
    (w.length + 1 - span) 0 cells h fun i cells _ hi hcells => hcells.push hg hs (by omega)
  rwa [Nat.zero_add, ← List.range_eq_range'] at hrow

private theorem Filled.next_row (h : Filled g w span (w.length + 1 - span) cells) (hs : 1 ≤ span)
    (hn : span < w.length) : Filled g w (span + 1) 0 cells where
  size := by rw [h.size, slot_row_end hs hn]
  entry i l hl hi hdone := h.entry i l hl hi (by omega)

private theorem filled_letters (g : Grammar) (hw : w ≠ []) :
    Filled g w 1 w.length (w.map (letterCell g.producers)).toArray where
  size := by
    have hlen := List.length_pos_iff.mpr hw
    simp [slot_one hlen]
  entry i l hl hi hdone := by
    have hone : l = 1 := by omega
    subst hone
    have hlt : i < w.length := by omega
    rw [slot_one (by omega), List.drop_eq_getElem_cons hlt, List.take_succ_cons, List.take_zero]
    simp [hlt, letterCell_producers]

/-- After the last length every cell is in place. -/
theorem filled_fill (hg : g.WellFormed) (hw : w ≠ []) :
    Filled g w w.length 1 (fill g.producers w) := by
  have hlen := List.length_pos_iff.mpr hw
  -- the rows are counted by the length that has just been completed
  have hrows := foldl_range'_invariant
    (fun span cells => Filled g w (span - 1) (w.length + 1 - (span - 1)) cells)
    (Table.withSpan g.producers w.length) (w.length - 1) 2 _
    (by simpa using filled_letters g hw) fun span cells hs hn hcells => by
      have hnext : Filled g w (span - 1 + 1) 0 cells := hcells.next_row (by omega) (by omega)
      rw [Nat.sub_add_cancel (by omega)] at hnext
      exact hnext.withSpan hg hs (by omega)
  have hlast : 2 + (w.length - 1) - 1 = w.length := by omega
  rw [hlast, Nat.add_sub_cancel_left] at hrows
  exact hrows

theorem mem_nonterminals_of_mem_cell {t : Table} {x : Char} (h : x ∈ t.cell i j) :
    x ∈ t.nonterminals := by
  rw [cell] at h
  split at h
  · obtain ⟨k, -, hk⟩ := List.mem_filterMap.mp h
    exact List.mem_of_getElem? hk
  · cases h

/-- Each cell holds the positions of the nonterminals that generate its stretch. -/
theorem entry_ofWord (hg : g.WellFormed) (hs : 1 ≤ span) (hi : i + span ≤ w.length) :
    (ofWord g w).entry i span = g.generators ((w.drop i).take span) := by
  have hw : w ≠ [] := List.length_pos_iff.mp (by omega)
  exact (filled_fill hg hw).entry i span hs hi (by omega)

theorem contains_ofWord (hg : g.WellFormed) (x : Char) (hij : i ≤ j) (hj : j < w.length) :
    (ofWord g w).contains i j x = true ↔ g.Generates x ((w.drop i).take (j - i + 1)) := by
  have hin : i ≤ j ∧ j < (ofWord g w).length := ⟨hij, hj⟩
  rw [contains, if_pos hin, entry_ofWord hg (by omega) (by omega), Option.any_eq_true]
  constructor
  · intro h
    obtain ⟨k, hk, hmem⟩ := h
    exact (Grammar.mem_generators_of_number? hk).mp (List.contains_iff_mem.mp hmem)
  · intro h
    obtain ⟨k, hk⟩ := Grammar.exists_number? h.mem_nonterminals
    exact ⟨k, hk, List.contains_iff_mem.mpr ((Grammar.mem_generators_of_number? hk).mpr h)⟩

theorem accepts_ofWord (hg : g.WellFormed) (w : Text) (x : Char) :
    (ofWord g w).accepts x = true ↔ g.Generates x w := by
  have hdef : (ofWord g w).accepts x = true ↔
      0 < w.length ∧ (ofWord g w).contains 0 (w.length - 1) x = true := by
    rw [accepts, Bool.and_eq_true, decide_eq_true_iff]
    rfl
  rw [hdef]
  constructor
  · intro h
    obtain ⟨hlen, hx⟩ := h
    rw [contains_ofWord hg x (Nat.zero_le _) (by omega), List.drop_zero] at hx
    rwa [List.take_of_length_le (by omega)] at hx
  · intro h
    have hlen := List.length_pos_iff.mpr h.ne_nil
    refine ⟨hlen, (contains_ofWord hg x (Nat.zero_le _) (by omega)).mpr ?_⟩
    rwa [List.drop_zero, List.take_of_length_le (by omega)]

end Table

end ChomskyNormal
