import ChomskyNormal.Proofs.Table.Density
import ChomskyNormal.Table.Drawing

/-!
Tables under checks. Here a table is filled in place, in an arena that has all its slots from the
start, and is read from it: a slot outside of the arena, a position that no nonterminal has, and a
difference that falls below zero all lead to no result. No check ever fails, and what comes out is
the filled table and what is read off it.
-/

set_option autoImplicit false
set_option relaxedAutoImplicit false

namespace ChomskyNormal

namespace Table

/-- A difference, which may not fall below zero. -/
def minus? (a b : Nat) : Option Nat :=
  if b ≤ a then some (a - b) else none

def slot? (n i span : Nat) : Option Nat := do
  let rest ← minus? n span
  let double ← minus? (n * (n + 1)) ((rest + 1) * (rest + 2))
  return double / 2 + i

def read? (n : Nat) (arena : Array (List Nat)) (i span : Nat) : Option (List Nat) := do
  let k ← slot? n i span
  arena[k]?

def write? (n : Nat) (arena : Array (List Nat)) (i span : Nat) (cell : List Nat) :
    Option (Array (List Nat)) := do
  let k ← slot? n i span
  if k < arena.size then some (arena.setIfInBounds k cell) else none

def placeLetters? (ps : List Producer) (w : Text) (arena : Array (List Nat)) :
    Option (Array (List Nat)) :=
  (List.range w.length).foldlM (fun arena i => do
    let a ← w[i]?
    write? w.length arena i 1 (letterCell ps a)) arena

def cuts? (n : Nat) (arena : Array (List Nat)) (i span : Nat) :
    Option (List (List Nat × List Nat)) :=
  (List.range' 1 (span - 1)).mapM fun k => do
    let left ← read? n arena i k
    let rest ← minus? span k
    let right ← read? n arena (i + k) rest
    return (left, right)

def placeSpan? (ps : List Producer) (n : Nat) (arena : Array (List Nat)) (span : Nat) :
    Option (Array (List Nat)) := do
  let last ← minus? n span
  (List.range (last + 1)).foldlM (fun arena i => do
    let cs ← cuts? n arena i span
    write? n arena i span (cutCell ps cs)) arena

/-- Fill an arena whose slots are all empty, the cells of single characters first and then one length
after another. -/
def fill? (ps : List Producer) (w : Text) : Option (Array (List Nat)) := do
  let letters ← placeLetters? ps w (Array.replicate (size w.length) [])
  (List.range' 2 (w.length - 1)).foldlM (placeSpan? ps w.length) letters

def cell? (t : Table) (i j : Nat) : Option (List Char) :=
  if i ≤ j ∧ j < t.length then do
    let before ← minus? j i
    let ks ← read? t.length t.cells i (before + 1)
    ks.mapM fun k => t.nonterminals[k]?
  else
    some []

def contains? (t : Table) (i j : Nat) (x : Char) : Option Bool :=
  if i ≤ j ∧ j < t.length then
    match t.nonterminals.idxOf? x with
    | some k => do
        let before ← minus? j i
        let ks ← read? t.length t.cells i (before + 1)
        return ks.contains k
    | none => some false
  else
    some false

def accepts? (t : Table) (x : Char) : Option Bool :=
  if 0 < t.length then do
    let last ← minus? t.length 1
    t.contains? 0 last x
  else
    some false

def square? (t : Table) : Option Text := do
  let lines ← (List.range t.length).mapM fun i => do
    let cells ← (List.range t.length).mapM fun j => t.cell? i j
    return cells.flatten ++ ['\n']
  return lines.flatten

def field? (t : Table) (i span : Nat) : Option Text := do
  let j ← minus? (i + span) 1
  let cell ← t.cell? i j
  return if cell = [] then ['-'] else cell

def fields? (t : Table) (span : Nat) : Option (List Text) := do
  let last ← minus? t.length span
  (List.range (last + 1)).mapM fun i => t.field? i span

def width? (t : Table) : Option Nat := do
  let rows ← t.spans.mapM t.fields?
  return (rows.flatMap fun fields => fields.map List.length).foldl max 1

def row? (t : Table) (width span : Nat) : Option Text := do
  let fields ← t.fields? span
  return " | ".toList.intercalate (fields.map fun f => f.rightpad width ' ')

def pyramid? (t : Table) : Option Text := do
  let width ← t.width?
  let rows ← t.spans.mapM (t.row? width)
  return Text.unlines ((rows ++ [t.foot width]).map Text.trimEnd)

/-- Whatever is read off a table is read within its bounds. -/
structure ReadWithinBounds (t : Table) : Prop where
  cell : ∀ i j, t.cell? i j = some (t.cell i j)
  contains : ∀ i j x, t.contains? i j x = some (t.contains i j x)
  accepts : ∀ x, t.accepts? x = some (t.accepts x)
  square : t.square? = some t.square
  pyramid : t.pyramid? = some t.pyramid

/-- A sound table has a cell for each slot, and its cells hold only positions of nonterminals. -/
structure Sound (t : Table) : Prop where
  size : t.cells.size = size t.length
  bounded : ∀ ks ∈ t.cells, ∀ k ∈ ks, k < t.nonterminals.length

variable {n i j k span count : Nat} {arena cells : Array (List Nat)} {ps : List Producer} {w : Text}

private theorem minus?_eq_some {a b : Nat} (h : b ≤ a) : minus? a b = some (a - b) := if_pos h

private theorem slot?_eq_some (hs : 1 ≤ span) (hn : span ≤ n) (i : Nat) :
    slot? n i span = some (slot n i span) := by
  have hle : (n - span + 1) * (n - span + 2) ≤ n * (n + 1) :=
    Nat.mul_le_mul (by omega) (by omega)
  rw [slot?, minus?_eq_some hn, Option.bind_eq_bind, Option.bind_some, minus?_eq_some hle]
  rfl

/-- A stretch that is longer than the word has no slot. -/
example : slot? 3 0 4 = none := rfl

private theorem read?_eq_some (hs : 1 ≤ span) (hn : span ≤ n) (h : slot n i span < arena.size) :
    read? n arena i span = some (arena.getD (slot n i span) []) := by
  rw [read?, slot?_eq_some hs hn, Option.bind_eq_bind, Option.bind_some,
    Array.getD_eq_getD_getElem?, Array.getElem?_eq_getElem h, Option.getD_some]

/-- An arena in which the first cells have been placed. -/
def arenaOf (n : Nat) (cells : Array (List Nat)) : Array (List Nat) :=
  cells ++ Array.replicate (size n - cells.size) []

private theorem arenaOf_empty (n : Nat) : arenaOf n #[] = Array.replicate (size n) [] := by
  simp [arenaOf]

private theorem arenaOf_of_size (h : cells.size = size n) : arenaOf n cells = cells := by
  simp [arenaOf, h]

private theorem read?_arenaOf (hs : 1 ≤ span) (hn : span ≤ n) (h : slot n i span < cells.size) :
    read? n (arenaOf n cells) i span = some (cells.getD (slot n i span) []) := by
  have hsize : slot n i span < (arenaOf n cells).size := by
    rw [arenaOf, Array.size_append]
    omega
  rw [read?_eq_some hs hn hsize, Array.getD_eq_getD_getElem?, arenaOf,
    Array.getElem?_append_left h, ← Array.getD_eq_getD_getElem?]

private theorem write?_arenaOf (hs : 1 ≤ span) (hi : i + span ≤ n) (h : cells.size = slot n i span)
    (cell : List Nat) :
    write? n (arenaOf n cells) i span cell = some (arenaOf n (cells.push cell)) := by
  have hlt : cells.size < size n := h ▸ slot_lt_size hs hi
  have hsize : (arenaOf n cells).size = size n := by
    rw [arenaOf, Array.size_append, Array.size_replicate]
    omega
  have hset : (arenaOf n cells).setIfInBounds cells.size cell = arenaOf n (cells.push cell) := by
    obtain ⟨m, hm⟩ : ∃ m, size n - cells.size = m + 1 := ⟨size n - cells.size - 1, by omega⟩
    have hm' : size n - (cells.push cell).size = m := by
      rw [Array.size_push]
      omega
    rw [arenaOf, arenaOf, hm, hm']
    apply Array.ext'
    simp [List.replicate_succ]
  rw [write?, slot?_eq_some hs (by omega), Option.bind_eq_bind, Option.bind_some, hsize, ← h,
    if_pos hlt, hset]

private theorem mapM_eq_some_map {α β : Type} {f? : α → Option β} {f : α → β} {l : List α}
    (h : ∀ a ∈ l, f? a = some (f a)) : l.mapM f? = some (l.map f) := by
  induction l with
  | nil => rfl
  | cons a l ih =>
    rw [List.mapM_cons, h a List.mem_cons_self, ih fun b hb => h b (List.mem_cons_of_mem a hb)]
    rfl

private theorem mapM_eq_some_filterMap {α β : Type} {f? : α → Option β} {l : List α}
    (h : ∀ a ∈ l, (f? a).isSome) : l.mapM f? = some (l.filterMap f?) := by
  induction l with
  | nil => rfl
  | cons a l ih =>
    obtain ⟨b, hb⟩ := Option.isSome_iff_exists.mp (h a List.mem_cons_self)
    rw [List.mapM_cons, hb, ih fun c hc => h c (List.mem_cons_of_mem a hc),
      List.filterMap_cons_some hb]
    rfl

private theorem foldlM_range'_eq_some {α β : Type} (P : Nat → α → Prop) (view : α → β)
    (f : α → Nat → α) (f? : β → Nat → Option β) (n : Nat) : ∀ (s : Nat) (a : α), P s a →
      (∀ i a, s ≤ i → i < s + n → P i a → f? (view a) i = some (view (f a i)) ∧ P (i + 1) (f a i)) →
      (List.range' s n).foldlM f? (view a) = some (view ((List.range' s n).foldl f a)) ∧
        P (s + n) ((List.range' s n).foldl f a) := by
  induction n with
  | zero =>
    intro s a h0 _
    exact ⟨rfl, h0⟩
  | succ n ih =>
    intro s a h0 step
    obtain ⟨hfirst, hnext⟩ := step s a le_rfl (by omega) h0
    have hrest := ih (s + 1) (f a s) hnext fun i a hi hn => step i a (by omega) (by omega)
    rw [List.range'_succ, List.foldlM_cons, List.foldl_cons, hfirst, ← Nat.add_assoc,
      Nat.add_right_comm]
    exact hrest

private theorem placeLetters?_arenaOf (ps : List Producer) (w : Text) :
    placeLetters? ps w (arenaOf w.length #[]) =
      some (arenaOf w.length (w.map (letterCell ps)).toArray) := by
  -- the cells after some rounds are those of as many characters
  obtain ⟨hloop, hlast⟩ := foldlM_range'_eq_some
    (fun i cells => cells = ((w.take i).map (letterCell ps)).toArray) (arenaOf w.length)
    (fun _ i => ((w.take (i + 1)).map (letterCell ps)).toArray)
    (fun arena i => do
      let a ← w[i]?
      write? w.length arena i 1 (letterCell ps a))
    w.length 0 #[] (by rw [List.take_zero]; rfl) (by
      rintro i cells - hi rfl
      rw [Nat.zero_add] at hi
      refine ⟨?_, rfl⟩
      have hsize : ((w.take i).map (letterCell ps)).toArray.size = slot w.length i 1 := by
        rw [slot_one (by omega), List.size_toArray, List.length_map, List.length_take]
        omega
      have hnext : (w.take (i + 1)).map (letterCell ps) =
          (w.take i).map (letterCell ps) ++ [letterCell ps w[i]] := by
        rw [List.take_succ_eq_append_getElem hi, List.map_append, List.map_singleton]
      rw [List.getElem?_eq_getElem hi, Option.bind_eq_bind, Option.bind_some,
        write?_arenaOf le_rfl (by omega) hsize, List.push_toArray, hnext])
  rw [Nat.zero_add, List.take_length] at hlast
  rw [placeLetters?, List.range_eq_range', hloop, hlast]

private theorem cuts?_arenaOf (hc : count + span ≤ n) (h : cells.size = slot n count span) :
    cuts? n (arenaOf n cells) count span = some (cuts n cells count span) := by
  apply mapM_eq_some_map
  intro k hk
  obtain ⟨hk1, hk2⟩ := List.mem_range'_1.mp hk
  have hleft : slot n count k < cells.size :=
    h ▸ slot_lt_of_lt hk1 (by omega) (by omega) (by omega) count
  have hright : slot n (count + k) (span - k) < cells.size :=
    h ▸ slot_lt_of_lt (by omega) (by omega) (by omega) (by omega) count
  rw [read?_arenaOf hk1 (by omega) hleft, minus?_eq_some (by omega)]
  simp only [Option.bind_eq_bind, Option.bind_some]
  rw [read?_arenaOf (by omega) (by omega) hright]
  rfl

private theorem placeSpan?_arenaOf (ps : List Producer) (hs : 1 ≤ span) (hn : span ≤ n)
    (h : cells.size = slot n 0 span) :
    placeSpan? ps n (arenaOf n cells) span = some (arenaOf n (withSpan ps n cells span)) ∧
      (withSpan ps n cells span).size = slot n (n + 1 - span) span := by
  have hlast : n - span + 1 = n + 1 - span := by omega
  obtain ⟨hloop, hsize⟩ := foldlM_range'_eq_some (fun i cells => cells.size = slot n i span)
    (arenaOf n) (fun cells i => cells.push (cutCell ps (cuts n cells i span)))
    (fun arena i => do
      let cs ← cuts? n arena i span
      write? n arena i span (cutCell ps cs))
    (n + 1 - span) 0 cells h (by
      intro i cells _ hi hcells
      refine ⟨?_, by rw [Array.size_push, hcells, slot_add_one]⟩
      rw [cuts?_arenaOf (by omega) hcells, Option.bind_eq_bind, Option.bind_some]
      exact write?_arenaOf hs (by omega) hcells _)
  rw [placeSpan?, minus?_eq_some hn, Option.bind_eq_bind, Option.bind_some, hlast, withSpan,
    List.range_eq_range']
  rw [Nat.zero_add] at hsize
  exact ⟨hloop, hsize⟩

/-- Filling an arena under checks ends in the cells of the table, one in each slot. -/
private theorem fill?_eq_some (ps : List Producer) (w : Text) : fill? ps w = some (fill ps w) := by
  rw [fill?, ← arenaOf_empty, placeLetters?_arenaOf, Option.bind_eq_bind, Option.bind_some]
  by_cases hw : w = []
  · subst hw
    rfl
  · have hlen : 1 ≤ w.length := List.length_pos_iff.mpr hw
    -- the rows are counted by the length that has just been completed
    obtain ⟨hloop, hsize⟩ := foldlM_range'_eq_some
      (fun span cells => cells.size = slot w.length (w.length + 1 - (span - 1)) (span - 1))
      (arenaOf w.length) (withSpan ps w.length) (placeSpan? ps w.length) (w.length - 1) 2
      (w.map (letterCell ps)).toArray (by simp [slot_one hlen]) (by
        intro span cells hs hn hcells
        have hrow := slot_row_end (by omega : 1 ≤ span - 1) (by omega : span - 1 < w.length)
        rw [Nat.sub_add_cancel (by omega)] at hrow
        exact placeSpan?_arenaOf ps (by omega) (by omega) (hcells.trans hrow))
    have hlast : 2 + (w.length - 1) - 1 = w.length := by omega
    rw [hlast, Nat.add_sub_cancel_left, slot_last hlen] at hsize
    rw [hloop, arenaOf_of_size hsize]
    rfl

private theorem sound_ofWord {g : Grammar} (hg : g.WellFormed) (w : Text) : (ofWord g w).Sound where
  size := size_cells hg w
  bounded ks hks k hk := by
    obtain ⟨m, hm⟩ := Array.mem_iff_getElem?.mp hks
    obtain ⟨hlt, -⟩ := Array.getElem?_eq_some_iff.mp hm
    obtain ⟨i, l, hl, hi, rfl⟩ := exists_slot (size_cells hg w ▸ hlt)
    obtain rfl := Option.some.inj ((getElem?_cells (t := ofWord g w) hlt).symm.trans hm)
    rw [entry_ofWord hg hl hi] at hk
    obtain ⟨x, hx, -⟩ := Grammar.mem_generators.mp hk
    exact (List.getElem?_eq_some_iff.mp hx).1

namespace Sound

variable {t : Table}

private theorem read?_eq_some (ht : t.Sound) (hs : 1 ≤ span) (hi : i + span ≤ t.length) :
    read? t.length t.cells i span = some (t.entry i span) :=
  Table.read?_eq_some hs (by omega) (ht.size ▸ slot_lt_size hs hi)

private theorem lt_of_mem_entry (ht : t.Sound) (hs : 1 ≤ span) (hi : i + span ≤ t.length)
    (hk : k ∈ t.entry i span) : k < t.nonterminals.length := by
  have hlt : slot t.length i span < t.cells.size := ht.size ▸ slot_lt_size hs hi
  exact ht.bounded _ (Array.mem_of_getElem? (getElem?_cells hlt)) k hk

private theorem cell?_eq_some (ht : t.Sound) (i j : Nat) : t.cell? i j = some (t.cell i j) := by
  by_cases hin : i ≤ j ∧ j < t.length
  · have hs : 1 ≤ j - i + 1 := by omega
    have hi : i + (j - i + 1) ≤ t.length := by omega
    rw [cell?, cell, if_pos hin, if_pos hin, minus?_eq_some hin.1, Option.bind_eq_bind,
      Option.bind_some, ht.read?_eq_some hs hi, Option.bind_eq_bind, Option.bind_some]
    apply mapM_eq_some_filterMap
    intro k hk
    rw [List.getElem?_eq_getElem (ht.lt_of_mem_entry hs hi hk), Option.isSome_some]
  · rw [cell?, cell, if_neg hin, if_neg hin]

private theorem contains?_eq_some (ht : t.Sound) (i j : Nat) (x : Char) :
    t.contains? i j x = some (t.contains i j x) := by
  by_cases hin : i ≤ j ∧ j < t.length
  · have hs : 1 ≤ j - i + 1 := by omega
    have hi : i + (j - i + 1) ≤ t.length := by omega
    rw [contains?, contains, if_pos hin, if_pos hin]
    cases t.nonterminals.idxOf? x with
    | none => rfl
    | some k =>
      simp only [minus?_eq_some hin.1, ht.read?_eq_some hs hi, Option.bind_eq_bind,
        Option.bind_some]
      rfl
  · rw [contains?, contains, if_neg hin, if_neg hin]

private theorem accepts?_eq_some (ht : t.Sound) (x : Char) : t.accepts? x = some (t.accepts x) := by
  by_cases hlen : 0 < t.length
  · rw [accepts?, accepts, if_pos hlen, minus?_eq_some hlen, Option.bind_eq_bind, Option.bind_some,
      ht.contains?_eq_some, decide_eq_true hlen, Bool.true_and]
  · rw [accepts?, accepts, if_neg hlen, decide_eq_false hlen, Bool.false_and]

private theorem square?_eq_some (ht : t.Sound) : t.square? = some t.square := by
  have hline (i : Nat) : (do
      let cells ← (List.range t.length).mapM fun j => t.cell? i j
      return cells.flatten ++ ['\n']) =
      some ((List.range t.length).flatMap (fun j => t.cell i j) ++ ['\n']) := by
    rw [mapM_eq_some_map fun j _ => ht.cell?_eq_some i j, List.flatMap_def]
    rfl
  rw [square?, mapM_eq_some_map fun i _ => hline i, square, List.flatMap_def]
  rfl

private theorem field?_eq_some (ht : t.Sound) (hs : 1 ≤ span) (i : Nat) :
    t.field? i span = some (t.field i span) := by
  rw [field?, minus?_eq_some (by omega), Option.bind_eq_bind, Option.bind_some, ht.cell?_eq_some,
    field]
  cases t.cell i (i + span - 1) <;> rfl

private theorem fields?_eq_some (ht : t.Sound) (hs : 1 ≤ span) (hn : span ≤ t.length) :
    t.fields? span = some (t.fields span) := by
  have hlast : t.length - span + 1 = t.length + 1 - span := by omega
  rw [fields?, minus?_eq_some hn, Option.bind_eq_bind, Option.bind_some, hlast,
    mapM_eq_some_map fun i _ => ht.field?_eq_some hs i]
  rfl

private theorem fields?_eq_some_of_mem (ht : t.Sound) (hspan : span ∈ t.spans) :
    t.fields? span = some (t.fields span) := by
  obtain ⟨hs, hn⟩ := List.mem_range'_1.mp (List.mem_reverse.mp hspan)
  exact ht.fields?_eq_some hs (by omega)

private theorem pyramid?_eq_some (ht : t.Sound) : t.pyramid? = some t.pyramid := by
  have hwidth : t.width? = some t.width := by
    rw [width?, mapM_eq_some_map fun span => ht.fields?_eq_some_of_mem, width]
    simp [List.flatMap_map]
  have hrow (span : Nat) (hspan : span ∈ t.spans) :
      t.row? t.width span = some (t.row t.width span) := by
    rw [row?, ht.fields?_eq_some_of_mem hspan]
    rfl
  rw [pyramid?, hwidth, Option.bind_eq_bind, Option.bind_some, mapM_eq_some_map hrow]
  rfl

private theorem readWithinBounds (ht : t.Sound) : t.ReadWithinBounds where
  cell := ht.cell?_eq_some
  contains := ht.contains?_eq_some
  accepts := ht.accepts?_eq_some
  square := ht.square?_eq_some
  pyramid := ht.pyramid?_eq_some

end Sound

end Table

namespace Grammar

variable {g : Grammar} {w : Text} {t : Table}

/-- A cell lists the nonterminals that it contains in the order of declarations, each once; outside of
the triangle there are none, and a word that is not empty is accepted for those in the cell of the
whole word. Positions in cells are positions of nonterminals. Filling the arena of the table, and
reading cells, verdicts and drawings off it, stays within bounds and takes no difference that falls
below zero. -/
theorem table_stays_within_bounds (hg : g.Reachable) (h : g.table w = .ok t) :
    (∀ i j, t.cell i j = g.nonterminals.filter (fun x => t.contains i j x) ∧
      (t.cell i j).Nodup ∧ ∀ x, x ∈ t.cell i j ↔ t.contains i j x = true) ∧
    (∀ i j, j < i ∨ w.length ≤ j → t.cell i j = [] ∧ ∀ x, t.contains i j x = false) ∧
    (∀ x, t.accepts x = true ↔ 0 < w.length ∧ x ∈ t.cell 0 (w.length - 1)) ∧
    (∀ ks ∈ t.cells, ∀ k ∈ ks, k < g.nonterminals.length) ∧
    Table.fill? g.producers w = some t.cells ∧ t.ReadWithinBounds := by
  have hwf := hg.wellFormed
  obtain ⟨-, rfl⟩ := table_eq_ok.mp h
  have hsound := Table.sound_ofWord hwf w
  refine ⟨?_, ?_, ?_, hsound.bounded, Table.fill?_eq_some g.producers w, hsound.readWithinBounds⟩
  · intro i j
    refine ⟨Table.cell_ofWord hwf w i j, ?_, fun x => Table.mem_cell_ofWord hwf⟩
    rw [Table.cell_ofWord hwf]
    exact hwf.nonterminals_nodup.filter _
  · intro i j hout
    have hin : ¬ (i ≤ j ∧ j < (Table.ofWord g w).length) := by
      rintro ⟨hij, hj⟩
      have hj : j < w.length := hj
      omega
    exact ⟨if_neg hin, fun x => if_neg hin⟩
  · intro x
    rw [Table.mem_cell_ofWord hwf, Table.accepts, Bool.and_eq_true, decide_eq_true_iff]
    rfl

/-- Under checks the arena of `aabb` is filled as the table is, and drawn as it is. The part `ab` has
`S` in its cell, and no cell lies below the diagonal. -/
theorem balanced_stays_within_bounds :
    balanced.Reachable ∧ ∃ t, balanced.table "aabb".toList = .ok t ∧
      Table.fill? balanced.producers "aabb".toList = some t.cells ∧
      t.pyramid? = some t.pyramid ∧ t.cell 1 2 = ['S'] ∧ t.contains 1 2 'S' = true ∧
      t.cell 2 1 = [] := by
  have ht : balanced.table "aabb".toList = .ok (.ofWord balanced "aabb".toList) := by
    decide +kernel
  obtain ⟨hviews, hout, -, -, hfill, hread⟩ := table_stays_within_bounds balanced_reachable ht
  have hcell : (Table.ofWord balanced "aabb".toList).cell 1 2 = ['S'] := by decide +kernel
  refine ⟨balanced_reachable, _, ht, hfill, hread.pyramid, hcell, ?_, (hout 2 1 (by decide)).1⟩
  rw [← (hviews 1 2).2.2, hcell]
  exact List.mem_cons_self

end Grammar

end ChomskyNormal
