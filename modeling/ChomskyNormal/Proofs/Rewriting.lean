import ChomskyNormal.Derivation
import ChomskyNormal.Proofs.Grammar.WellFormed
import Mathlib.Logic.Relation

/-!
Rewriting of sentential forms. A nonterminal generates a word by rewriting exactly when some
derivation tree with that root has that word, so that words can be taken apart at the root.
-/

set_option autoImplicit false
set_option relaxedAutoImplicit false

namespace ChomskyNormal

open Relation (TransGen)

namespace Grammar

/-- One rewriting step: one occurrence of a nonterminal, anywhere in the form, gives way to the
right-hand side of one of its productions. -/
inductive Rewrites (g : Grammar) : List Symbol → List Symbol → Prop where
  | step (before after : List Symbol) {x : Char} {p : Production} (hp : p ∈ g.productions x) :
      Rewrites g (before ++ .nonterminal x :: after) (before ++ p.symbols ++ after)

/-- A nonterminal generates a word when one or more steps lead from it to exactly the word. -/
def Generates (g : Grammar) (x : Char) (w : Text) : Prop :=
  TransGen g.Rewrites [.nonterminal x] (w.map .terminal)

end Grammar

variable {g : Grammar} {x a : Char} {w : Text}

namespace Grammar.Rewrites

variable {s s' : List Symbol}

private theorem append_left (h : g.Rewrites s s') (front : List Symbol) :
    g.Rewrites (front ++ s) (front ++ s') := by
  cases h with
  | step before after hp =>
    simpa only [List.append_assoc] using Rewrites.step (front ++ before) after hp

private theorem append_right (h : g.Rewrites s s') (back : List Symbol) :
    g.Rewrites (s ++ back) (s' ++ back) := by
  cases h with
  | step before after hp =>
    simpa only [List.append_assoc, List.cons_append] using Rewrites.step before (after ++ back) hp

end Grammar.Rewrites

namespace Derivation

theorem Follows.generates {t : Derivation} (ht : t.Follows g) : g.Generates t.root t.word := by
  induction t with
  | leaf x a => exact TransGen.single (Grammar.Rewrites.step [] [] ht)
  | node x left right ihl ihr =>
    obtain ⟨hp, hl, hr⟩ := ht
    have first : TransGen g.Rewrites [.nonterminal x]
        [.nonterminal left.root, .nonterminal right.root] :=
      TransGen.single (Grammar.Rewrites.step [] [] hp)
    have second : TransGen g.Rewrites ([.nonterminal left.root] ++ [.nonterminal right.root])
        (left.word.map .terminal ++ [.nonterminal right.root]) :=
      (ihl hl).lift (· ++ [.nonterminal right.root]) fun _ _ h => h.append_right _
    have third : TransGen g.Rewrites (left.word.map .terminal ++ [.nonterminal right.root])
        (left.word.map .terminal ++ right.word.map .terminal) :=
      (ihr hr).lift (left.word.map Symbol.terminal ++ ·) fun _ _ h => h.append_left _
    rw [Grammar.Generates, word, List.map_append]
    exact first.trans (second.trans third)

/-- A sentential form over a row of trees, one for each nonterminal, whose words together with the
terminals of the form make up a word. -/
inductive Row (g : Grammar) : List Symbol → Text → Prop where
  | nil : Row g [] []
  | terminal (a : Char) {s : List Symbol} {w : Text} : Row g s w → Row g (.terminal a :: s) (a :: w)
  | tree {t : Derivation} {s : List Symbol} {w : Text} :
      t.Follows g → Row g s w → Row g (.nonterminal t.root :: s) (t.word ++ w)

namespace Row

variable {s s' : List Symbol}

private theorem word (w : Text) : Row g (w.map .terminal) w := by
  induction w with
  | nil => exact .nil
  | cons a w ih => exact .terminal a ih

private theorem append {v : Text} (hs : Row g s w) (hs' : Row g s' v) :
    Row g (s ++ s') (w ++ v) := by
  induction hs with
  | nil => exact hs'
  | terminal a _ ih => exact .terminal a ih
  | tree ht _ ih =>
    rw [List.append_assoc]
    exact .tree ht ih

private theorem of_append (h : Row g (s ++ s') w) :
    ∃ u v, w = u ++ v ∧ Row g s u ∧ Row g s' v := by
  induction s generalizing w with
  | nil => exact ⟨[], w, rfl, .nil, h⟩
  | cons first s ih =>
    rw [List.cons_append] at h
    cases h with
    | terminal a rest =>
      obtain ⟨u, v, rfl, hu, hv⟩ := ih rest
      exact ⟨a :: u, v, rfl, .terminal a hu, hv⟩
    | @tree t _ _ ht rest =>
      obtain ⟨u, v, rfl, hu, hv⟩ := ih rest
      exact ⟨t.word ++ u, v, by rw [List.append_assoc], .tree ht hu, hv⟩

private theorem of_symbols {p : Production} (hp : p ∈ g.productions x) (h : Row g p.symbols w) :
    Row g [.nonterminal x] w := by
  cases p with
  | terminal a =>
    cases h with
    | terminal _ rest =>
      cases rest
      exact .tree (t := .leaf x a) hp .nil
  | binary b c =>
    cases h with
    | @tree l _ _ hl rest =>
      cases rest with
      | @tree r _ _ hr rest =>
        cases rest
        have whole : Row g [.nonterminal x] ((Derivation.node x l r).word ++ []) :=
          .tree (t := .node x l r) ⟨hp, hl, hr⟩ .nil
        simpa only [Derivation.word, List.append_nil] using whole

private theorem of_rewrites (h : g.Rewrites s s') (hs' : Row g s' w) : Row g s w := by
  cases h with
  | step before after hp =>
    rw [List.append_assoc] at hs'
    obtain ⟨u, _, rfl, hu, hrest⟩ := hs'.of_append
    obtain ⟨v, z, rfl, hv, hz⟩ := hrest.of_append
    exact hu.append ((of_symbols hp hv).append hz)

private theorem of_transGen (h : TransGen g.Rewrites s (w.map .terminal)) : Row g s w := by
  induction h using TransGen.head_induction_on with
  | single step => exact of_rewrites step (word w)
  | head step _ ih => exact of_rewrites step ih

end Row

end Derivation

namespace Grammar

/-- A nonterminal generates the words of the derivation trees under it and no others. -/
theorem generates_iff_exists_tree :
    g.Generates x w ↔ ∃ t : Derivation, t.Follows g ∧ t.root = x ∧ t.word = w := by
  constructor
  · intro h
    cases Derivation.Row.of_transGen h with
    | @tree t _ _ ht rest =>
      cases rest
      exact ⟨t, ht, rfl, by rw [List.append_nil]⟩
  · intro h
    obtain ⟨t, ht, rfl, rfl⟩ := h
    exact ht.generates

private theorem generates_iff :
    g.Generates x w ↔
      (∃ a, .terminal a ∈ g.productions x ∧ w = [a]) ∨
      ∃ b c u v, .binary b c ∈ g.productions x ∧ g.Generates b u ∧ g.Generates c v ∧
        w = u ++ v := by
  simp only [generates_iff_exists_tree]
  constructor
  · intro h
    obtain ⟨t, ht, rfl, rfl⟩ := h
    cases t with
    | leaf x a => exact .inl ⟨a, ht, rfl⟩
    | node x l r =>
      exact .inr ⟨l.root, r.root, l.word, r.word, ht.1, ⟨l, ht.2.1, rfl, rfl⟩,
        ⟨r, ht.2.2, rfl, rfl⟩, rfl⟩
  · intro h
    rcases h with ⟨a, hp, rfl⟩ | ⟨b, c, u, v, hp, ⟨l, hl, rfl, rfl⟩, ⟨r, hr, rfl, rfl⟩, rfl⟩
    · exact ⟨.leaf x a, hp, rfl, rfl⟩
    · exact ⟨.node x l r, ⟨hp, hl, hr⟩, rfl, rfl⟩

end Grammar

namespace Derivation

theorem word_ne_nil (t : Derivation) : t.word ≠ [] := by
  induction t with
  | leaf x a => simp [word]
  | node x l r ihl _ => simp [word, ihl]

theorem Follows.root_mem {t : Derivation} (ht : t.Follows g) : t.root ∈ g.nonterminals := by
  cases t with
  | leaf x a => exact Grammar.mem_nonterminals_of_mem_productions ht
  | node x l r => exact Grammar.mem_nonterminals_of_mem_productions ht.1

theorem Follows.mem_terminals {t : Derivation} (hg : g.WellFormed) (ht : t.Follows g) :
    ∀ a ∈ t.word, a ∈ g.terminals := by
  induction t with
  | leaf x b =>
    intro a ha
    obtain rfl := List.mem_singleton.mp ha
    exact hg.mem_terminals ht
  | node x l r ihl ihr =>
    intro a ha
    rcases List.mem_append.mp ha with ha | ha
    · exact ihl ht.2.1 a ha
    · exact ihr ht.2.2 a ha

end Derivation

namespace Grammar.Generates

theorem ne_nil (h : g.Generates x w) : w ≠ [] := by
  obtain ⟨t, -, -, rfl⟩ := generates_iff_exists_tree.mp h
  exact t.word_ne_nil

theorem mem_nonterminals (h : g.Generates x w) : x ∈ g.nonterminals := by
  obtain ⟨t, ht, rfl, -⟩ := generates_iff_exists_tree.mp h
  exact ht.root_mem

theorem mem_terminals (hg : g.WellFormed) (h : g.Generates x w) : ∀ c ∈ w, c ∈ g.terminals := by
  obtain ⟨t, ht, -, rfl⟩ := generates_iff_exists_tree.mp h
  exact ht.mem_terminals hg

end Grammar.Generates

namespace Grammar

theorem generates_singleton : g.Generates x [a] ↔ .terminal a ∈ g.productions x := by
  rw [generates_iff]
  constructor
  · intro h
    rcases h with ⟨b, hp, hb⟩ | ⟨b, c, u, v, -, hu, hv, hw⟩
    · obtain rfl := List.singleton_inj.mp hb
      exact hp
    · rcases List.singleton_eq_append_iff.mp hw with ⟨rfl, -⟩ | ⟨-, rfl⟩
      · exact absurd rfl hu.ne_nil
      · exact absurd rfl hv.ne_nil
  · intro hp
    exact .inl ⟨a, hp, rfl⟩

theorem generates_of_two_le (hw : 2 ≤ w.length) :
    g.Generates x w ↔
      ∃ k b c, 0 < k ∧ k < w.length ∧ .binary b c ∈ g.productions x ∧
        g.Generates b (w.take k) ∧ g.Generates c (w.drop k) := by
  rw [generates_iff]
  constructor
  · intro h
    rcases h with ⟨a, -, rfl⟩ | ⟨b, c, u, v, hp, hu, hv, rfl⟩
    · simp at hw
    · have hul := List.length_pos_iff.mpr hu.ne_nil
      have hvl := List.length_pos_iff.mpr hv.ne_nil
      refine ⟨u.length, b, c, hul, ?_, hp, ?_, ?_⟩
      · rw [List.length_append]
        omega
      · rwa [List.take_left]
      · rwa [List.drop_left]
  · intro h
    obtain ⟨k, b, c, -, -, hp, hu, hv⟩ := h
    exact .inr ⟨b, c, _, _, hp, hu, hv, (List.take_append_drop k w).symm⟩

end Grammar

end ChomskyNormal
