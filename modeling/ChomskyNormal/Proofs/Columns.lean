import ChomskyNormal.Proofs.Joining
import ChomskyNormal.Text
import Mathlib.Data.List.DropRight

/-!
Texts laid out in columns. Parts are padded to one width and joined by a separator, and blanks at
the end are cut off; the parts come apart again at the separators, each in the column it was put in.
-/

set_option autoImplicit false
set_option relaxedAutoImplicit false

namespace ChomskyNormal.Text

/-- The pieces of a text between the places where a separator stands, found from the left. As many
characters as the number says are passed over first, for they belong to a separator. -/
def piecesFrom (sep : Text) : Nat → Text → List Text
  | _, [] => [[]]
  | skip + 1, _ :: t => piecesFrom sep skip t
  | 0, c :: t =>
      if sep.isPrefixOf (c :: t) then [] :: piecesFrom sep (sep.length - 1) t
      else (piecesFrom sep 0 t).modifyHead (c :: ·)

/-- The pieces of a text between the places where a separator stands. -/
def pieces (sep t : Text) : List Text :=
  piecesFrom sep 0 t

/-- Where a piece starts in the text that is cut into pieces: behind the pieces before it, each with
its separator. -/
def column (sep : Text) (ps : List Text) (i : Nat) : Nat :=
  ((ps.take i).flatMap fun p => p ++ sep).length

variable {sep p t u f : Text} {ps : List Text} {c m : Char} {i k width : Nat}

private theorem piecesFrom_ne_nil (sep : Text) (k : Nat) (t : Text) : piecesFrom sep k t ≠ [] := by
  fun_induction piecesFrom sep k t with
  | case1 => simp
  | case2 _ _ _ ih => exact ih
  | case3 => simp
  | case4 _ _ _ ih => simpa using ih

private theorem intercalate_piecesFrom (hsep : sep ≠ []) (k : Nat) (t : Text) :
    sep.intercalate (piecesFrom sep k t) = t.drop k := by
  fun_induction piecesFrom sep k t with
  | case1 k => simp
  | case2 skip c t ih => rw [ih, List.drop_succ_cons]
  | case3 c t hprefix ih =>
    -- a separator starts here, and the characters passed over are the rest of it
    rw [List.intercalate_cons_of_ne_nil (piecesFrom_ne_nil sep _ t), ih, List.nil_append,
      List.drop_zero]
    obtain ⟨rest, hrest⟩ := List.isPrefixOf_iff_prefix.mp hprefix
    obtain ⟨b, sep', rfl⟩ := List.exists_cons_of_ne_nil hsep
    rw [List.cons_append, List.cons.injEq] at hrest
    obtain ⟨rfl, rfl⟩ := hrest
    simp
  | case4 c t _ ih =>
    obtain ⟨first, rest, hpieces⟩ := List.exists_cons_of_ne_nil (piecesFrom_ne_nil sep 0 t)
    rw [hpieces] at ih ⊢
    rw [List.modifyHead_cons, List.drop_zero, ← List.drop_zero (l := t), ← ih]
    cases rest with
    | nil => simp
    | cons second rest =>
      have hrest : second :: rest ≠ [] := List.cons_ne_nil second rest
      rw [List.intercalate_cons_of_ne_nil hrest, List.intercalate_cons_of_ne_nil hrest]
      simp only [List.cons_append]

@[simp] theorem column_zero (sep : Text) (ps : List Text) : column sep ps 0 = 0 := by
  simp [column]

private theorem column_cons (sep first : Text) (ps : List Text) (i : Nat) :
    column sep (first :: ps) (i + 1) = (first ++ sep).length + column sep ps i := by
  rw [column, List.take_succ_cons, List.flatMap_cons, List.length_append, column]

theorem prefix_drop_column (sep : Text) (h : ps[i]? = some p) :
    p <+: (sep.intercalate ps).drop (column sep ps i) := by
  induction ps generalizing i with
  | nil => cases h
  | cons first ps ih =>
    cases i with
    | zero =>
      obtain rfl : first = p := by simpa using h
      by_cases hps : ps = []
      · simp [hps]
      · rw [List.intercalate_cons_of_ne_nil hps, column_zero, List.drop_zero, List.append_assoc]
        exact List.prefix_append first _
    | succ i =>
      rw [List.getElem?_cons_succ] at h
      have hps : ps ≠ [] := List.ne_nil_of_mem (List.mem_of_getElem? h)
      rw [List.intercalate_cons_of_ne_nil hps, column_cons, List.drop_length_add_append]
      exact ih h

private theorem intercalate_pieces (hsep : sep ≠ []) (t : Text) :
    sep.intercalate (pieces sep t) = t :=
  (intercalate_piecesFrom hsep 0 t).trans List.drop_zero

theorem prefix_drop_column_pieces (hsep : sep ≠ []) (h : (pieces sep t)[i]? = some p) :
    p <+: t.drop (column sep (pieces sep t) i) := by
  have hprefix := prefix_drop_column sep h
  rwa [intercalate_pieces hsep] at hprefix

private theorem piecesFrom_length (sep u t : Text) :
    piecesFrom sep u.length (u ++ t) = piecesFrom sep 0 t := by
  induction u with
  | nil => rfl
  | cons c u ih => rw [List.length_cons, List.cons_append, piecesFrom, ih]

private theorem pieces_of_notMem (hm : m ∈ sep) (hp : m ∉ p) : pieces sep p = [p] := by
  induction p with
  | nil => rfl
  | cons c p ih =>
    have hno : ¬ sep.isPrefixOf (c :: p) = true :=
      fun h => hp ((List.isPrefixOf_iff_prefix.mp h).subset hm)
    rw [pieces, piecesFrom, if_neg hno, ← pieces, ih fun h => hp (List.mem_cons_of_mem c h)]
    rfl

private theorem not_prefix_append (hm : m ∈ sep) (hp : m ∉ p) (hne : p ≠ []) (t : Text) :
    ¬ sep <+: p ++ (sep ++ t) := by
  intro h
  obtain ⟨rest, hrest⟩ := h
  have hleft : (sep ++ rest).idxOf m = sep.idxOf m := List.idxOf_append_of_mem hm
  have hright : (p ++ (sep ++ t)).idxOf m = p.length + sep.idxOf m := by
    rw [List.idxOf_append_of_notMem hp, List.idxOf_append_of_mem hm]
  have hlength : 0 < p.length := List.length_pos_iff.mpr hne
  rw [hrest] at hleft
  omega

private theorem pieces_append (hm : m ∈ sep) (hp : m ∉ p) (t : Text) :
    pieces sep (p ++ (sep ++ t)) = p :: pieces sep t := by
  induction p with
  | nil =>
    obtain ⟨b, sep', rfl⟩ := List.exists_cons_of_ne_nil (List.ne_nil_of_mem hm)
    have hprefix : (b :: sep').isPrefixOf (b :: (sep' ++ t)) = true :=
      List.isPrefixOf_iff_prefix.mpr (List.prefix_append (b :: sep') t)
    rw [List.nil_append, List.cons_append, pieces, piecesFrom, if_pos hprefix, List.length_cons,
      Nat.add_sub_cancel, piecesFrom_length, pieces]
  | cons c p ih =>
    have hno : ¬ sep.isPrefixOf (c :: (p ++ (sep ++ t))) = true :=
      fun h => not_prefix_append hm hp (List.cons_ne_nil c p) t (List.isPrefixOf_iff_prefix.mp h)
    rw [List.cons_append, pieces, piecesFrom, if_neg hno, ← pieces,
      ih fun h => hp (List.mem_cons_of_mem c h), List.modifyHead_cons]

/-- Parts that lack a character of the separator come apart again. -/
theorem pieces_intercalate (hm : m ∈ sep) (hps : ∀ p ∈ ps, m ∉ p) (hne : ps ≠ []) :
    pieces sep (sep.intercalate ps) = ps := by
  induction ps with
  | nil => exact absurd rfl hne
  | cons p ps ih =>
    have hp := hps p List.mem_cons_self
    by_cases hnil : ps = []
    · rw [hnil, List.intercalate_singleton, pieces_of_notMem hm hp]
    · rw [List.intercalate_cons_of_ne_nil hnil, List.append_assoc, pieces_append hm hp,
        ih (fun q hq => hps q (List.mem_cons_of_mem p hq)) hnil]

private theorem column_of_length (hps : ∀ p ∈ ps.take i, p.length = width) (hi : i ≤ ps.length) :
    column sep ps i = i * (width + sep.length) := by
  induction ps generalizing i with
  | nil =>
    obtain rfl : i = 0 := Nat.le_zero.mp hi
    simp
  | cons first ps ih =>
    cases i with
    | zero => simp
    | succ i =>
      have hfirst : first.length = width := hps first (by simp)
      have hrest : ∀ p ∈ ps.take i, p.length = width :=
        fun p hp => hps p (List.mem_cons_of_mem first hp)
      rw [column_cons, ih hrest (Nat.le_of_succ_le_succ hi), List.length_append, hfirst,
        Nat.succ_mul, Nat.add_comm]

theorem exists_part_of_getElem? (h : (sep.intercalate ps)[k]? = some c) :
    c ∈ sep ∨ ∃ i p o, ps[i]? = some p ∧ p[o]? = some c ∧ k = column sep ps i + o := by
  induction ps generalizing k with
  | nil => simp at h
  | cons first ps ih =>
    by_cases hps : ps = []
    · rw [hps, List.intercalate_singleton] at h
      exact .inr ⟨0, first, k, rfl, h, by simp⟩
    · -- the character is in the first part, in the separator behind it, or in what is joined on
      rw [List.intercalate_cons_of_ne_nil hps, List.append_assoc, List.getElem?_append] at h
      split at h
      · exact .inr ⟨0, first, k, rfl, h, by simp⟩
      · rw [List.getElem?_append] at h
        split at h
        · exact .inl (List.mem_of_getElem? h)
        · rcases ih h with hsep | ⟨i, p, o, hp, hc, hk⟩
          · exact .inl hsep
          · refine .inr ⟨i + 1, p, o, hp, hc, ?_⟩
            rw [column_cons, List.length_append]
            omega

structure Solid (f : Text) : Prop where
  ne_nil : f ≠ []
  not_blank : ∀ c ∈ f, isBlank c = false

private theorem trimEnd_append_of_isBlank (t : Text) (hu : ∀ c ∈ u, isBlank c = true) :
    trimEnd (t ++ u) = trimEnd t := by
  rw [trimEnd, List.reverse_append, List.dropWhile_append_of_pos (by simpa using hu), trimEnd]

private theorem Solid.trimEnd_append (hf : f.Solid) (t : Text) : trimEnd (t ++ f) = t ++ f := by
  refine List.rdropWhile_eq_self_iff.mpr fun h => ?_
  rw [List.getLast_append_of_ne_nil h hf.ne_nil, hf.not_blank _ (List.getLast_mem hf.ne_nil)]
  exact Bool.false_ne_true

theorem Solid.trimEnd_append_replicate (hf : f.Solid) (t : Text) (k : Nat) :
    trimEnd (t ++ (f ++ List.replicate k ' ')) = t ++ f := by
  have hpad : ∀ c ∈ List.replicate k ' ', isBlank c = true := by
    intro c hc
    rw [(List.mem_replicate.mp hc).2]
    decide
  rw [← List.append_assoc, trimEnd_append_of_isBlank _ hpad, hf.trimEnd_append t]

theorem not_isBlank_of_getLast?_trimEnd (h : c ∈ (trimEnd t).getLast?) : isBlank c = false := by
  obtain ⟨hne, rfl⟩ := List.mem_getLast?_eq_getLast h
  exact Bool.eq_false_iff.mpr (List.rdropWhile_last_not isBlank t hne)

theorem trimEnd_subset (t : Text) : trimEnd t ⊆ t :=
  (List.rdropWhile_prefix isBlank (l := t)).subset

/-- Parts that are set in columns: blanks may follow each part, and the columns are as far apart as
the width and the separator make them. -/
structure InColumns (sep : Text) (width : Nat) (fs ps : List Text) : Prop where
  length : ps.length = fs.length
  part : ∀ (i : Nat) (f : Text), fs[i]? = some f → ∃ k, ps[i]? = some (f ++ List.replicate k ' ')
  column : ∀ i < fs.length, column sep ps i = i * (width + sep.length)

variable {fs : List Text} {last : Text}

theorem InColumns.exists_of_mem (h : InColumns sep width fs ps) (hp : p ∈ ps) :
    ∃ f ∈ fs, ∃ k, p = f ++ List.replicate k ' ' := by
  obtain ⟨i, hi, rfl⟩ := List.mem_iff_getElem.mp hp
  have hi' : i < fs.length := h.length ▸ hi
  have hf : fs[i]? = some fs[i] := List.getElem?_eq_getElem hi'
  obtain ⟨k, hpart⟩ := h.part i _ hf
  rw [List.getElem?_eq_getElem hi, Option.some.injEq] at hpart
  exact ⟨_, List.mem_of_getElem? hf, k, hpart⟩

def padded (width : Nat) (fs : List Text) (last : Text) : List Text :=
  fs.map (fun f => f.rightpad width ' ') ++ [last]

private theorem length_padded : (padded width fs last).length = fs.length + 1 := by
  simp [padded]

private theorem getElem?_padded (h : (fs ++ [last])[i]? = some f) :
    ∃ k, (padded width fs last)[i]? = some (f ++ List.replicate k ' ') := by
  by_cases hi : i < fs.length
  · rw [List.getElem?_append_left hi] at h
    refine ⟨width - f.length, ?_⟩
    rw [padded, List.getElem?_append_left (by simpa using hi), List.getElem?_map, h,
      Option.map_some, List.rightpad]
  · rw [List.getElem?_append_right (by omega)] at h
    refine ⟨0, ?_⟩
    rw [padded, List.getElem?_append_right (by simpa using hi), List.length_map, h]
    simp

private theorem column_padded (hfs : ∀ f ∈ fs, f.length ≤ width) (hi : i ≤ fs.length) :
    column sep (padded width fs last) i = i * (width + sep.length) := by
  apply column_of_length
  · intro p hp
    rw [padded, List.take_append_of_le_length (by simpa using hi)] at hp
    obtain ⟨f, hf, rfl⟩ := List.mem_map.mp (List.mem_of_mem_take hp)
    simp [List.rightpad, hfs f hf]
  · rw [length_padded]
    omega

private theorem trimEnd_intercalate (sep : Text) (width : Nat) (fs : List Text)
    (hlast : last.Solid) :
    trimEnd (sep.intercalate ((fs ++ [last]).map fun f => f.rightpad width ' ')) =
      sep.intercalate (padded width fs last) := by
  rw [List.map_append, List.map_singleton, padded, Joining.intercalate_concat,
    Joining.intercalate_concat, List.rightpad, hlast.trimEnd_append_replicate]

/-- Parts that are padded, joined and cut off at the end are set in columns. -/
theorem exists_inColumns (sep : Text) (hne : fs ≠ []) (hsolid : ∀ f ∈ fs, f.Solid)
    (hwidth : ∀ f ∈ fs, f.length ≤ width) :
    ∃ ps, trimEnd (sep.intercalate (fs.map fun f => f.rightpad width ' ')) = sep.intercalate ps ∧
      InColumns sep width fs ps := by
  obtain ⟨front, last, rfl⟩ := (List.eq_nil_or_concat' fs).resolve_left hne
  have hlast : last ∈ front ++ [last] := List.mem_append_right _ List.mem_cons_self
  refine ⟨padded width front last, trimEnd_intercalate sep width front (hsolid last hlast), ?_⟩
  refine ⟨?_, ?_, ?_⟩
  · rw [length_padded, List.length_append, List.length_singleton]
  · exact fun i f h => getElem?_padded h
  · intro i hi
    rw [List.length_append, List.length_singleton] at hi
    exact column_padded (fun f hf => hwidth f (List.mem_append_left _ hf)) (by omega)

theorem mem_of_mem_intercalate_rightpad
    (h : c ∈ sep.intercalate (fs.map fun f => f.rightpad width ' ')) :
    c ∈ sep ∨ c = ' ' ∨ ∃ f ∈ fs, c ∈ f := by
  rcases Joining.mem_of_mem_intercalate h with h | ⟨p, hp, h⟩
  · exact .inl h
  · obtain ⟨f, hf, rfl⟩ := List.mem_map.mp hp
    rcases List.mem_append.mp h with h | h
    · exact .inr (.inr ⟨f, hf, h⟩)
    · exact .inr (.inl (List.mem_replicate.mp h).2)

end ChomskyNormal.Text
