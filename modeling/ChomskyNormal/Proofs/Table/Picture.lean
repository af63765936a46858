import ChomskyNormal.Proofs.Columns
import ChomskyNormal.Proofs.Letters
import ChomskyNormal.Proofs.Table.Density
import ChomskyNormal.Table.Drawing
import Mathlib.Order.Bounds.Basic

/-!
The pyramid as a picture of its table. It has a line for each length of stretches and one for the
word, all in the same columns. The cells and the word are read back from it, for the names in them
are letters, and so no cell looks like a dash, a bar or a blank.
-/

set_option autoImplicit false
set_option relaxedAutoImplicit false

namespace ChomskyNormal

namespace Table

def bar : Text :=
  " | ".toList

def gap : Text :=
  "   ".toList

/-- A piece of a line shows the cell of a stretch: it starts in the column for it, and without the
blanks at its end it is a dash for an empty cell and the names in the cell for any other. -/
structure ShowsCell (t : Table) (i span : Nat) (line piece : Text) : Prop where
  found : (Text.pieces bar line)[i]? = some piece
  column : Text.column bar (Text.pieces bar line) i = i * (t.width + 3)
  starts : piece <+: line.drop (i * (t.width + 3))
  dash : Text.trimEnd piece = ['-'] ↔ t.cell i (i + span - 1) = []
  names : t.cell i (i + span - 1) ≠ [] → Text.trimEnd piece = t.cell i (i + span - 1)

structure ShowsSpan (t : Table) (span : Nat) (line : Text) : Prop where
  count : (Text.pieces bar line).length = t.length - span + 1
  cells : ∀ i ≤ t.length - span, ∃ piece, t.ShowsCell i span line piece

structure ShowsWord (t : Table) (foot : Text) : Prop where
  letters : ∀ (k : Nat) (c : Char), t.word[k]? = some c → foot[k * (t.width + 3)]? = some c
  blanks : ∀ (column : Nat) (c : Char), foot[column]? = some c →
    (∀ k < t.length, column ≠ k * (t.width + 3)) → c = ' '

structure Pictured (t : Table) (picture : Text) : Prop where
  count : (Text.lines picture).length = t.length + 1
  spans : ∀ k < t.length,
    ∃ line, (Text.lines picture)[k]? = some line ∧ t.ShowsSpan (t.length - k) line
  word : ∃ line, (Text.lines picture)[t.length]? = some line ∧ t.ShowsWord line
  ends : ∀ line ∈ Text.lines picture, ∀ c ∈ line.getLast?, Text.isBlank c = false

variable {t t' : Table} {picture : Text} {g : Grammar} {w : Text} {i j k m span : Nat} {c x : Char}

private theorem ShowsCell.cell_eq {line piece : Text} (h : t.ShowsCell i span line piece)
    (h' : t'.ShowsCell i span line piece) : t.cell i (i + span - 1) = t'.cell i (i + span - 1) := by
  by_cases hdash : Text.trimEnd piece = ['-']
  · rw [h.dash.mp hdash, h'.dash.mp hdash]
  · rw [← h.names fun hnil => hdash (h.dash.mpr hnil),
      h'.names fun hnil => hdash (h'.dash.mpr hnil)]

private theorem cell_eq_nil_of_not (h : ¬ (i ≤ j ∧ j < t.length)) : t.cell i j = [] :=
  if_neg h

namespace Pictured

private theorem length_eq (h : t.Pictured picture) (h' : t'.Pictured picture) :
    t.length = t'.length :=
  Nat.succ.inj (h.count.symm.trans h'.count)

private theorem cell_eq (h : t.Pictured picture) (h' : t'.Pictured picture) (i j : Nat) :
    t.cell i j = t'.cell i j := by
  have hlength := h.length_eq h'
  by_cases hin : i ≤ j ∧ j < t.length
  · -- the stretch from `i` to `j` is shown in the line that has as many lines above it
    have hspan : t.length - (t.length - (j - i + 1)) = j - i + 1 := by omega
    have hlast : i + (j - i + 1) - 1 = j := by omega
    obtain ⟨line, hline, hshows⟩ := h.spans (t.length - (j - i + 1)) (by omega)
    obtain ⟨line', hline', hshows'⟩ := h'.spans (t.length - (j - i + 1)) (by omega)
    rw [hline, Option.some.injEq] at hline'
    subst hline'
    rw [← hlength] at hshows'
    rw [hspan] at hshows hshows'
    obtain ⟨piece, hpiece⟩ := hshows.cells i (by omega)
    obtain ⟨piece', hpiece'⟩ := hshows'.cells i (by omega)
    have hfound := hpiece.found.symm.trans hpiece'.found
    rw [Option.some.injEq] at hfound
    subst hfound
    have hcell := hpiece.cell_eq hpiece'
    rwa [hlast] at hcell
  · rw [cell_eq_nil_of_not hin, cell_eq_nil_of_not (hlength ▸ hin)]

end Pictured

private theorem fields_congr (hlength : t.length = t'.length)
    (hcell : ∀ i j, t.cell i j = t'.cell i j) : t.fields = t'.fields := by
  have hfield : t.field = t'.field := by
    funext i span
    rw [field, field, hcell]
  funext span
  rw [fields, fields, hlength, hfield]

private theorem width_congr (hlength : t.length = t'.length)
    (hcell : ∀ i j, t.cell i j = t'.cell i j) : t.width = t'.width := by
  rw [width, width, spans, spans, hlength, fields_congr hlength hcell]

private theorem pyramid_congr (hword : t.word = t'.word) (hcell : ∀ i j, t.cell i j = t'.cell i j) :
    t.pyramid = t'.pyramid := by
  have hlength : t.length = t'.length := congrArg List.length hword
  have hrow : t.row = t'.row := by
    funext width span
    rw [row, row, fields_congr hlength hcell]
  have hfoot : t.foot = t'.foot := by
    funext width
    rw [foot, foot, hword]
  rw [pyramid, pyramid, spans, spans, hlength, width_congr hlength hcell, hrow, hfoot]

private theorem Pictured.word_eq (h : t.Pictured picture) (h' : t'.Pictured picture) :
    t.word = t'.word := by
  have hlength := h.length_eq h'
  have hwidth : t.width = t'.width := width_congr hlength (h.cell_eq h')
  obtain ⟨line, hline, hword⟩ := h.word
  obtain ⟨line', hline', hword'⟩ := h'.word
  rw [← hlength, hline, Option.some.injEq] at hline'
  subst hline'
  apply List.ext_getElem hlength
  intro k hk hk'
  have hletter := hword.letters k _ (List.getElem?_eq_getElem hk)
  have hletter' := hword'.letters k _ (List.getElem?_eq_getElem hk')
  rw [hwidth, hletter', Option.some.injEq] at hletter
  exact hletter.symm

private theorem length_field (t : Table) (i span : Nat) :
    (t.field i span).length = max 1 (t.cell i (i + span - 1)).length := by
  rw [field]
  split
  · rename_i hcell
    simp [hcell]
  · rename_i hcell
    simp [hcell]

private theorem length_spans (t : Table) : t.spans.length = t.length := by
  simp [spans]

private theorem getElem?_spans (hk : k < t.length) : t.spans[k]? = some (t.length - k) := by
  rw [spans, List.getElem?_reverse (by simpa using hk), List.getElem?_range' (by simp; omega),
    List.length_range', Option.some.injEq]
  omega

private theorem mem_spans : span ∈ t.spans ↔ 1 ≤ span ∧ span ≤ t.length := by
  rw [spans, List.mem_reverse, List.mem_range'_1]
  omega

private theorem isGreatest_foldl_max (l : List Nat) (m : Nat) :
    IsGreatest {n | n ∈ m :: l} (l.foldl max m) := by
  induction l generalizing m with
  | nil => simp [IsGreatest, upperBounds]
  | cons n l ih =>
    obtain ⟨hmem, hupper⟩ := ih (max m n)
    have hbound : max m n ≤ l.foldl max (max m n) := hupper List.mem_cons_self
    refine ⟨?_, ?_⟩
    · rcases List.mem_cons.mp hmem with heq | hmem
      · rw [List.foldl_cons, Set.mem_ofPred_eq, heq]
        rcases max_choice m n with h | h <;> simp [h]
      · exact List.mem_cons_of_mem m (List.mem_cons_of_mem n hmem)
    · intro k hk
      rcases List.mem_cons.mp hk with rfl | hk
      · exact (le_max_left k n).trans hbound
      · rcases List.mem_cons.mp hk with rfl | hk
        · exact (le_max_right m k).trans hbound
        · exact hupper (List.mem_cons_of_mem _ hk)

private theorem mem_field_lengths :
    m ∈ t.spans.flatMap (fun span => (t.fields span).map List.length) ↔
      ∃ i j, i ≤ j ∧ j < t.length ∧ m = max 1 (t.cell i j).length := by
  simp only [List.mem_flatMap, mem_spans, fields, List.map_map, List.mem_map, List.mem_range,
    Function.comp_apply, length_field]
  constructor
  · intro h
    obtain ⟨span, ⟨hs, hn⟩, i, hi, rfl⟩ := h
    exact ⟨i, i + span - 1, by omega, by omega, rfl⟩
  · intro h
    obtain ⟨i, j, hij, hj, rfl⟩ := h
    have hlast : i + (j - i + 1) - 1 = j := by omega
    exact ⟨j - i + 1, ⟨by omega, by omega⟩, i, by omega, by rw [hlast]⟩

private theorem one_le_width (t : Table) : 1 ≤ t.width :=
  (isGreatest_foldl_max _ 1).2 List.mem_cons_self

private theorem isGreatest_width (ht : 0 < t.length) :
    IsGreatest {m | ∃ i j, i ≤ j ∧ j < t.length ∧ m = max 1 (t.cell i j).length} t.width := by
  obtain ⟨hmem, hupper⟩ :=
    isGreatest_foldl_max (t.spans.flatMap fun span => (t.fields span).map List.length) 1
  have hbound : t.width ∈ upperBounds
      {m | ∃ i j, i ≤ j ∧ j < t.length ∧ m = max 1 (t.cell i j).length} :=
    fun m hm => hupper (List.mem_cons_of_mem 1 (mem_field_lengths.mpr hm))
  refine ⟨?_, hbound⟩
  rcases List.mem_cons.mp hmem with hone | hmem
  · -- no cell is longer than a dash, so that the first one is as long as any
    have hfirst : max 1 (t.cell 0 0).length ≤ t.width := hbound ⟨0, 0, le_rfl, ht, rfl⟩
    have hwidth : t.width = 1 := hone
    exact ⟨0, 0, le_rfl, ht, by omega⟩
  · exact mem_field_lengths.mp hmem

private theorem length_field_le_width (hs : 1 ≤ span) (hi : i + span ≤ t.length) :
    (t.field i span).length ≤ t.width := by
  rw [length_field]
  exact (isGreatest_width (by omega)).2 ⟨i, i + span - 1, by omega, by omega, rfl⟩

private theorem length_fields (hn : span ≤ t.length) :
    (t.fields span).length = t.length - span + 1 := by
  rw [fields, List.length_map, List.length_range]
  omega

private theorem getElem?_fields (hi : i + span ≤ t.length) :
    (t.fields span)[i]? = some (t.field i span) := by
  rw [fields, List.getElem?_map, List.getElem?_range (by omega), Option.map_some]

private theorem exists_of_mem_fields {f : Text} (hn : span ≤ t.length) (hf : f ∈ t.fields span) :
    ∃ i, i + span ≤ t.length ∧ t.field i span = f := by
  obtain ⟨i, hi, rfl⟩ := List.mem_map.mp hf
  rw [List.mem_range] at hi
  exact ⟨i, by omega, rfl⟩

private theorem field_of_cell_ne_nil (h : t.cell i (i + span - 1) ≠ []) :
    t.field i span = t.cell i (i + span - 1) := by
  rw [field]
  split
  · rename_i hcell
    exact absurd hcell h
  · rename_i hcell
    exact hcell.symm

private theorem foot_eq (t : Table) (width : Nat) :
    t.foot width =
      gap.intercalate ((t.word.map fun c => [c]).map fun f => f.rightpad width ' ') := by
  rw [List.map_map]
  rfl

/-- All that a table has to show are letters: its cells hold upper-case ones, its word lower-case
ones. -/
structure Lettered (t : Table) : Prop where
  cell : ∀ i j, ∀ x ∈ t.cell i j, (Symbol.nonterminal x).HasCase
  word : ∀ a ∈ t.word, (Symbol.terminal a).HasCase

private theorem lettered_ofWord (hg : g.WellFormed) (h : g.unfit? w = none) :
    (ofWord g w).Lettered where
  cell _ _ x hx := hg.isUpper x (mem_nonterminals_of_mem_cell hx)
  word a ha := hg.isLower a ((Grammar.unfit?_eq_none.mp h).1 a ha)

namespace Lettered

private theorem field_eq_dash_iff (ht : t.Lettered) (i span : Nat) :
    t.field i span = ['-'] ↔ t.cell i (i + span - 1) = [] := by
  rw [field]
  constructor
  · intro h
    split at h
    · assumption
    · rename_i x xs hcell
      have hx : x ∈ t.cell i (i + span - 1) := hcell ▸ List.mem_cons_self
      exact absurd (List.cons.inj h).1 ((ht.cell _ _ x hx).char_ne (by decide))
  · intro h
    rw [h]

private theorem eq_dash_or_hasCase (ht : t.Lettered) (hc : c ∈ t.field i span) :
    c = '-' ∨ (Symbol.nonterminal c).HasCase := by
  by_cases hcell : t.cell i (i + span - 1) = []
  · rw [(ht.field_eq_dash_iff i span).mpr hcell] at hc
    exact .inl (List.mem_singleton.mp hc)
  · rw [field_of_cell_ne_nil hcell] at hc
    exact .inr (ht.cell _ _ c hc)

private theorem notMem_field (ht : t.Lettered) (hdash : c ≠ '-') (hc : Symbol.ofChar? c = none) :
    c ∉ t.field i span := by
  intro h
  rcases ht.eq_dash_or_hasCase h with h | h
  · exact hdash h
  · exact h.char_ne hc rfl

private theorem solid_field (ht : t.Lettered) (i span : Nat) : (t.field i span).Solid where
  ne_nil := List.ne_nil_of_length_pos (by rw [length_field]; omega)
  not_blank c hc := by
    rcases ht.eq_dash_or_hasCase hc with rfl | h
    · decide
    · exact h.not_isBlank

private theorem solid_letter (ht : t.Lettered) (hc : c ∈ t.word) : Text.Solid [c] where
  ne_nil := List.cons_ne_nil c []
  not_blank _ ha := List.mem_singleton.mp ha ▸ (ht.word c hc).not_isBlank

private theorem newline_notMem_row (ht : t.Lettered) (width span : Nat) :
    '\n' ∉ t.row width span := by
  intro h
  rcases Text.mem_of_mem_intercalate_rightpad h with h | h | ⟨f, hf, h⟩
  · exact absurd h (by decide)
  · exact absurd h (by decide)
  · obtain ⟨i, -, rfl⟩ := List.mem_map.mp hf
    exact ht.notMem_field (by decide) (by decide) h

private theorem newline_notMem_foot (ht : t.Lettered) (width : Nat) : '\n' ∉ t.foot width := by
  intro h
  rw [foot_eq] at h
  rcases Text.mem_of_mem_intercalate_rightpad h with h | h | ⟨f, hf, h⟩
  · exact absurd h (by decide)
  · exact absurd h (by decide)
  · obtain ⟨c, hc, rfl⟩ := List.mem_map.mp hf
    exact (ht.word c hc).char_ne (by decide) (List.mem_singleton.mp h).symm

private theorem lines_pyramid (ht : t.Lettered) :
    Text.lines t.pyramid =
      t.spans.map (fun span => Text.trimEnd (t.row t.width span)) ++
        [Text.trimEnd (t.foot t.width)] := by
  have hlines : (t.spans.map (t.row t.width) ++ [t.foot t.width]).map Text.trimEnd =
      t.spans.map (fun span => Text.trimEnd (t.row t.width span)) ++
        [Text.trimEnd (t.foot t.width)] := by
    simp
  rw [pyramid, hlines]
  apply List.splitOn_intercalate
  · intro line hline h
    rcases List.mem_append.mp hline with hline | hline
    · obtain ⟨span, -, rfl⟩ := List.mem_map.mp hline
      exact ht.newline_notMem_row t.width span (Text.trimEnd_subset _ h)
    · rw [List.mem_singleton.mp hline] at h
      exact ht.newline_notMem_foot t.width (Text.trimEnd_subset _ h)
  · simp

private theorem exists_pieces_row (ht : t.Lettered) (hs : 1 ≤ span) (hn : span ≤ t.length) :
    ∃ ps, Text.trimEnd (t.row t.width span) = bar.intercalate ps ∧
      Text.pieces bar (bar.intercalate ps) = ps ∧
      Text.InColumns bar t.width (t.fields span) ps := by
  have hne : t.fields span ≠ [] := List.ne_nil_of_length_pos (by rw [length_fields hn]; omega)
  have hsolid : ∀ f ∈ t.fields span, f.Solid := by
    intro f hf
    obtain ⟨i, -, rfl⟩ := exists_of_mem_fields hn hf
    exact ht.solid_field i span
  have hwidth : ∀ f ∈ t.fields span, f.length ≤ t.width := by
    intro f hf
    obtain ⟨i, hi, rfl⟩ := exists_of_mem_fields hn hf
    exact length_field_le_width hs hi
  obtain ⟨ps, hline, hps⟩ := Text.exists_inColumns bar hne hsolid hwidth
  have hbar : ∀ p ∈ ps, '|' ∉ p := by
    intro p hp h
    obtain ⟨f, hf, k, rfl⟩ := hps.exists_of_mem hp
    obtain ⟨i, -, rfl⟩ := exists_of_mem_fields hn hf
    rcases List.mem_append.mp h with h | h
    · exact ht.notMem_field (by decide) (by decide) h
    · exact absurd (List.mem_replicate.mp h).2 (by decide)
  have hpsne : ps ≠ [] := List.ne_nil_of_length_pos (by rw [hps.length, length_fields hn]; omega)
  exact ⟨ps, hline, Text.pieces_intercalate (by decide : '|' ∈ bar) hbar hpsne, hps⟩

private theorem showsSpan (ht : t.Lettered) (hs : 1 ≤ span) (hn : span ≤ t.length) :
    t.ShowsSpan span (Text.trimEnd (t.row t.width span)) := by
  obtain ⟨ps, hline, hpieces, hps⟩ := ht.exists_pieces_row hs hn
  rw [hline]
  refine ⟨by rw [hpieces, hps.length, length_fields hn], ?_⟩
  intro i hi
  obtain ⟨k, hpiece⟩ := hps.part i _ (getElem?_fields (by omega))
  have hcolumn : Text.column bar ps i = i * (t.width + 3) :=
    hps.column i (by rw [length_fields hn]; omega)
  have htrim : Text.trimEnd (t.field i span ++ List.replicate k ' ') = t.field i span :=
    (ht.solid_field i span).trimEnd_append_replicate [] k
  rw [← hpieces] at hpiece hcolumn
  exact ⟨t.field i span ++ List.replicate k ' ',
    { found := hpiece
      column := hcolumn
      starts := hcolumn ▸ Text.prefix_drop_column_pieces (by decide) hpiece
      dash := by rw [htrim, ht.field_eq_dash_iff]
      names := fun hcell => by rw [htrim, field_of_cell_ne_nil hcell] }⟩

private theorem exists_pieces_foot (ht : t.Lettered) (hword : t.word ≠ []) :
    ∃ ps, Text.trimEnd (t.foot t.width) = gap.intercalate ps ∧
      Text.InColumns gap t.width (t.word.map fun c => [c]) ps := by
  have hsolid : ∀ f ∈ t.word.map fun c => [c], Text.Solid f := by
    intro f hf
    obtain ⟨c, hc, rfl⟩ := List.mem_map.mp hf
    exact ht.solid_letter hc
  have hwidth : ∀ f ∈ t.word.map fun c => [c], f.length ≤ t.width := by
    intro f hf
    obtain ⟨c, -, rfl⟩ := List.mem_map.mp hf
    exact t.one_le_width
  rw [foot_eq]
  exact Text.exists_inColumns gap (by simpa using hword) hsolid hwidth

private theorem showsWord (ht : t.Lettered) : t.ShowsWord (Text.trimEnd (t.foot t.width)) := by
  by_cases hword : t.word = []
  · have hline : Text.trimEnd (t.foot t.width) = [] := by
      rw [foot, hword]
      rfl
    rw [hline]
    exact ⟨by simp [hword], by simp⟩
  · obtain ⟨ps, hline, hps⟩ := ht.exists_pieces_foot hword
    have hpart (i : Nat) (c : Char) (hc : t.word[i]? = some c) :
        ∃ k, ps[i]? = some (c :: List.replicate k ' ') :=
      hps.part i [c] (by rw [List.getElem?_map, hc, Option.map_some])
    have hcolumn (i : Nat) (hi : i < t.length) : Text.column gap ps i = i * (t.width + 3) :=
      hps.column i (by rwa [List.length_map])
    rw [hline]
    refine ⟨?_, ?_⟩
    · intro k c hc
      obtain ⟨_, hpiece⟩ := hpart k c hc
      obtain ⟨rest, hrest⟩ := Text.prefix_drop_column gap hpiece
      have hfirst := congrArg List.head? hrest
      rw [List.head?_drop, hcolumn k (List.getElem?_eq_some_iff.mp hc).1] at hfirst
      exact hfirst.symm
    · intro column c hc hother
      rcases Text.exists_part_of_getElem? hc with hgap | ⟨i, p, o, hp, ho, rfl⟩
      · have hblanks : gap = List.replicate 3 ' ' := rfl
        rw [hblanks] at hgap
        exact (List.mem_replicate.mp hgap).2
      · have hi : i < t.length := by
          have hi := (List.getElem?_eq_some_iff.mp hp).1
          rwa [hps.length, List.length_map] at hi
        obtain ⟨k, hpiece⟩ := hpart i _ (List.getElem?_eq_getElem hi)
        rw [hp, Option.some.injEq] at hpiece
        subst hpiece
        -- a letter is only at the start of its part, and no part starts in this column
        cases o with
        | zero => exact absurd (hcolumn i hi) (hother i hi)
        | succ o =>
          rw [List.getElem?_cons_succ] at ho
          exact (List.mem_replicate.mp (List.mem_of_getElem? ho)).2

private theorem pictured (ht : t.Lettered) : t.Pictured t.pyramid where
  count := by rw [ht.lines_pyramid, List.length_append, List.length_map, length_spans,
    List.length_singleton]
  spans k hk := by
    refine ⟨_, ?_, ht.showsSpan (by omega) (Nat.sub_le t.length k)⟩
    rw [ht.lines_pyramid, List.getElem?_append_left (by simpa [length_spans] using hk),
      List.getElem?_map, getElem?_spans hk, Option.map_some]
  word := by
    refine ⟨_, ?_, ht.showsWord⟩
    rw [ht.lines_pyramid, List.getElem?_append_right (by simp [length_spans])]
    simp [length_spans]
  ends line hline c hc := by
    rw [ht.lines_pyramid] at hline
    rcases List.mem_append.mp hline with hline | hline
    · obtain ⟨span, -, rfl⟩ := List.mem_map.mp hline
      exact Text.not_isBlank_of_getLast?_trimEnd hc
    · rw [List.mem_singleton.mp hline] at hc
      exact Text.not_isBlank_of_getLast?_trimEnd hc

end Lettered

/-- Tables that have the same drawing have the same word and the same cells, and the other way
round. -/
private theorem Lettered.pyramid_eq_iff (ht : t.Lettered) (ht' : t'.Lettered) :
    t.pyramid = t'.pyramid ↔ t.word = t'.word ∧ ∀ i j, t.cell i j = t'.cell i j := by
  constructor
  · intro h
    have hpictured : t'.Pictured t.pyramid := h ▸ ht'.pictured
    exact ⟨ht.pictured.word_eq hpictured, ht.pictured.cell_eq hpictured⟩
  · intro h
    exact pyramid_congr h.1 h.2

/-- The pyramid of a table is a picture of it, drawn in the width of its longest cell. Two tables
have the same pyramid exactly when they have the same word and the same cells; over the same
nonterminals they are then equal. -/
theorem pyramid_is_faithful :
    (∀ g : Grammar, g.Reachable → ∀ w t, g.table w = .ok t →
      t.word = w ∧ t.Pictured t.pyramid ∧
      (w ≠ [] →
        IsGreatest {m | ∃ i j, i ≤ j ∧ j < w.length ∧ m = max 1 (t.cell i j).length} t.width)) ∧
    ∀ g₁ g₂ : Grammar, g₁.Reachable → g₂.Reachable → ∀ w₁ w₂ t₁ t₂,
      g₁.table w₁ = .ok t₁ → g₂.table w₂ = .ok t₂ →
      (t₁.pyramid = t₂.pyramid ↔ w₁ = w₂ ∧ ∀ i j, t₁.cell i j = t₂.cell i j) ∧
      (g₁.nonterminals = g₂.nonterminals → (t₁.pyramid = t₂.pyramid ↔ t₁ = t₂)) := by
  constructor
  · intro g hg w t h
    obtain ⟨hfit, rfl⟩ := Grammar.table_eq_ok.mp h
    exact ⟨rfl, (lettered_ofWord hg.wellFormed hfit).pictured,
      fun hw => isGreatest_width (t := ofWord g w) (List.length_pos_iff.mpr hw)⟩
  · intro g₁ g₂ hg₁ hg₂ w₁ w₂ t₁ t₂ h₁ h₂
    obtain ⟨hfit₁, rfl⟩ := Grammar.table_eq_ok.mp h₁
    obtain ⟨hfit₂, rfl⟩ := Grammar.table_eq_ok.mp h₂
    have hiff := (lettered_ofWord hg₁.wellFormed hfit₁).pyramid_eq_iff
      (lettered_ofWord hg₂.wellFormed hfit₂)
    refine ⟨hiff, fun hn => ⟨fun h => ?_, fun h => by rw [h]⟩⟩
    obtain ⟨hw, hcells⟩ := hiff.mp h
    obtain rfl : w₁ = w₂ := hw
    exact ofWord_eq_of_cells hg₁.wellFormed hg₂.wellFormed hn fun i j _ _ => hcells i j

/-- With `AB` for `T` as well, one cell of `aabb` gains a name, and the columns of the pyramid move
apart. -/
theorem balanced_pyramids :
    ∃ t t', Grammar.balanced.table "aabb".toList = .ok t ∧
      ((Call.addProduction 'T' "AB".toList).after Grammar.balanced).table "aabb".toList = .ok t' ∧
      t.Pictured "S\n- | T\n- | S | -\nA | A | B | B\na   a   b   b".toList ∧
      t'.Pictured
        "ST\nS  | T\n-  | ST | -\nA  | A  | B  | B\na    a    b    b".toList ∧
      t ≠ t' := by
  have hr := Grammar.balanced_reachable
  have ht : Grammar.balanced.table "aabb".toList = .ok (.ofWord Grammar.balanced "aabb".toList) := by
    decide +kernel
  have ht' : ((Call.addProduction 'T' "AB".toList).after Grammar.balanced).table "aabb".toList =
      .ok (.ofWord ((Call.addProduction 'T' "AB".toList).after Grammar.balanced) "aabb".toList) := by
    decide +kernel
  have hdrawn : (ofWord Grammar.balanced "aabb".toList).pyramid =
      "S\n- | T\n- | S | -\nA | A | B | B\na   a   b   b".toList := by decide +kernel
  have hdrawn' :
      (ofWord ((Call.addProduction 'T' "AB".toList).after Grammar.balanced) "aabb".toList).pyramid =
        "ST\nS  | T\n-  | ST | -\nA  | A  | B  | B\na    a    b    b".toList := by decide +kernel
  refine ⟨_, _, ht, ht', ?_, ?_, ?_⟩
  · exact hdrawn ▸ (pyramid_is_faithful.1 _ hr _ _ ht).2.1
  · exact hdrawn' ▸ (pyramid_is_faithful.1 _ (hr.after _) _ _ ht').2.1
  · have hsame := (pyramid_is_faithful.2 _ _ hr (hr.after _) _ _ _ _ ht ht').2 (by decide +kernel)
    rw [hdrawn, hdrawn'] at hsame
    exact fun h => absurd (hsame.mpr h) (by decide)

end Table

end ChomskyNormal
