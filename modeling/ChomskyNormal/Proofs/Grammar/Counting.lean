import ChomskyNormal.Proofs.Grammar.WellFormed
import ChomskyNormal.Proofs.Letters
import Mathlib.Data.List.Perm.Subperm
import Mathlib.Data.List.ProdSigma

/-!
How many productions a nonterminal can have. There are only so many letters of either case, so
that the distinct productions made of them are far fewer than there are 32-bit numbers.
-/

set_option autoImplicit false
set_option relaxedAutoImplicit false

namespace ChomskyNormal

/-- The code points from the first of a band to its last, those that its step leaves out
included. -/
def Band.between (b : Band) : List Nat :=
  List.range' b.first (b.last + 1 - b.first)

namespace CharClass

def room (k : CharClass) : Nat :=
  (k.flatMap Band.between).length

private theorem length_le_room {k : CharClass} {cs : List Char} (hnodup : cs.Nodup)
    (hcs : ∀ c ∈ cs, k.has c) : cs.length ≤ k.room := by
  have hcodes : (cs.map Char.toNat).Nodup :=
    hnodup.map fun _ _ h => Char.toNat_inj.mp h
  have hsubset : cs.map Char.toNat ⊆ k.flatMap Band.between := by
    intro n hn
    obtain ⟨c, hc, rfl⟩ := List.mem_map.mp hn
    obtain ⟨b, hb, hbc⟩ := exists_band_of_hasCode (hcs c hc)
    simp only [Band.has, Bool.and_eq_true, decide_eq_true_eq] at hbc
    refine List.mem_flatMap.mpr ⟨b, hb, List.mem_range'_1.mpr ?_⟩
    omega
  have hlength := (List.subperm_of_subset hcodes hsubset).length_le
  rwa [List.length_map] at hlength

private theorem room_uppercase : uppercase.room ≤ 10000 := by decide +kernel

private theorem room_lowercase : lowercase.room ≤ 10000 := by decide +kernel

end CharClass

namespace Grammar.WellFormed

variable {g : Grammar}

private theorem length_productions_le (hg : g.WellFormed) (x : Char) :
    (g.productions x).length ≤
      g.terminals.length + g.nonterminals.length * g.nonterminals.length := by
  have hsubset : g.productions x ⊆ g.terminals.map .terminal ++
      (g.nonterminals ×ˢ g.nonterminals).map fun bc => .binary bc.1 bc.2 := by
    intro p hp
    cases p with
    | terminal a => exact List.mem_append_left _ (List.mem_map_of_mem (hg.mem_terminals hp))
    | binary b c =>
      have hbc : (b, c) ∈ g.nonterminals ×ˢ g.nonterminals :=
        List.mem_product.mpr (hg.mem_nonterminals hp)
      exact List.mem_append_right _ (List.mem_map.mpr ⟨(b, c), hbc, rfl⟩)
  have hlength := (List.subperm_of_subset (hg.productions_nodup x) hsubset).length_le
  rwa [List.length_append, List.length_map, List.length_map, List.length_product] at hlength

theorem length_productions_lt (hg : g.WellFormed) (x : Char) :
    (g.productions x).length < UInt32.size := by
  have hupper : g.nonterminals.length ≤ 10000 :=
    Nat.le_trans (CharClass.length_le_room hg.nonterminals_nodup hg.isUpper)
      CharClass.room_uppercase
  have hlower : g.terminals.length ≤ 10000 :=
    Nat.le_trans (CharClass.length_le_room hg.terminals_nodup hg.isLower)
      CharClass.room_lowercase
  calc
    (g.productions x).length ≤
        g.terminals.length + g.nonterminals.length * g.nonterminals.length :=
      hg.length_productions_le x
    _ ≤ 10000 + 10000 * 10000 := Nat.add_le_add hlower (Nat.mul_le_mul hupper hupper)
    _ < UInt32.size := by decide

end Grammar.WellFormed

end ChomskyNormal
