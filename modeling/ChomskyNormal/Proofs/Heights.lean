import ChomskyNormal.Height
import ChomskyNormal.Proofs.Rewriting
import Mathlib.Data.List.Perm.Subperm
import Mathlib.Logic.Function.Iterate
import Mathlib.Order.Lattice.Nat

/-!
The heights that are settled on are the least heights of derivations. What is known is always the
height of some derivation; each pass reaches derivations one level higher; and the least heights
leave no gaps, so there are no more levels than nonterminals.
-/

set_option autoImplicit false
set_option relaxedAutoImplicit false

namespace ChomskyNormal

namespace Heights

variable {g : Grammar} {h h' h'' : Heights} {x : Char} {p : Production} {n : Nat}

/-- Heights are at least as good as others when they know everything the others know, and nothing
to be higher. -/
def Dominates (h' h : Heights) : Prop :=
  ∀ x n, h.lookup x = some n → ∃ m ≤ n, h'.lookup x = some m

private theorem Dominates.refl (h : Heights) : Dominates h h := by
  intro x n hn
  exact ⟨n, Nat.le_refl n, hn⟩

private theorem Dominates.trans (hab : Dominates h'' h') (hbc : Dominates h' h) :
    Dominates h'' h := by
  intro x n hn
  obtain ⟨m, hmn, hm⟩ := hbc x n hn
  obtain ⟨k, hkm, hk⟩ := hab x m hm
  exact ⟨k, Nat.le_trans hkm hmn, hk⟩

theorem ofProduction_binary_eq_some {b c : Char} :
    h.ofProduction (.binary b c) = some n ↔
      ∃ m k, h.lookup b = some m ∧ h.lookup c = some k ∧ 1 + max m k = n := by
  rw [ofProduction]
  cases h.lookup b with
  | none => simp
  | some m =>
    cases h.lookup c with
    | none => simp
    | some k => simp

private theorem Dominates.ofProduction (hd : Dominates h' h) (hn : h.ofProduction p = some n) :
    ∃ m ≤ n, h'.ofProduction p = some m := by
  cases p with
  | terminal a => exact ⟨n, Nat.le_refl n, hn⟩
  | binary b c =>
    obtain ⟨m, k, hm, hk, rfl⟩ := ofProduction_binary_eq_some.mp hn
    obtain ⟨m', hm', hb⟩ := hd b m hm
    obtain ⟨k', hk', hc⟩ := hd c k hk
    exact ⟨1 + max m' k', by omega, ofProduction_binary_eq_some.mpr ⟨m', k', hb, hc, rfl⟩⟩

private theorem least_eq_some :
    h.least g x = some n ↔ (∃ p ∈ g.productions x, h.ofProduction p = some n) ∧
      ∀ p ∈ g.productions x, ∀ m, h.ofProduction p = some m → n ≤ m := by
  rw [least, List.min?_eq_some_iff]
  simp only [List.mem_filterMap]
  constructor
  · intro hmin
    exact ⟨hmin.1, fun p hp m hm => hmin.2 m ⟨p, hp, hm⟩⟩
  · intro hmin
    refine ⟨hmin.1, ?_⟩
    intro m hm
    obtain ⟨p, hp, hm⟩ := hm
    exact hmin.2 p hp m hm

theorem exists_min?_le {l : List Nat} (hn : n ∈ l) : ∃ m ≤ n, l.min? = some m := by
  obtain ⟨m, hm⟩ := Option.isSome_iff_exists.mp (List.isSome_min?_of_mem hn)
  exact ⟨m, (List.min?_eq_some_iff.mp hm).2 n hn, hm⟩

private theorem exists_least (hp : p ∈ g.productions x) (hn : h.ofProduction p = some n) :
    ∃ m ≤ n, h.least g x = some m :=
  exists_min?_le (List.mem_filterMap.mpr ⟨p, hp, hn⟩)

theorem visit_cases (g : Grammar) (h : Heights) (x : Char) :
    (visit g h x = h ∧ ∀ n, h.least g x = some n → ∃ m ≤ n, h.lookup x = some m) ∨
    ∃ n, h.least g x = some n ∧ visit g h x = (x, n) :: h ∧
      ∀ m, h.lookup x = some m → n < m := by
  rw [visit]
  cases hn : h.least g x with
  | none => exact .inl ⟨rfl, by simp⟩
  | some n =>
    cases hm : h.lookup x with
    | none => exact .inr ⟨n, rfl, by simp [improves, hm], by simp⟩
    | some m =>
      by_cases hlt : n < m
      · exact .inr ⟨n, rfl, by simp [improves, hm, hlt], by simpa using hlt⟩
      · refine .inl ⟨by simp [improves, hm, hlt], ?_⟩
        intro k hk
        obtain rfl := Option.some.inj hk
        exact ⟨m, Nat.le_of_not_lt hlt, rfl⟩

private theorem dominates_visit (g : Grammar) (h : Heights) (x : Char) :
    Dominates (visit g h x) h := by
  rcases visit_cases g h x with ⟨hsame, _⟩ | ⟨n, _, hnew, hlt⟩
  · rw [hsame]
    exact .refl h
  · rw [hnew]
    intro y m hm
    by_cases hy : y = x
    · subst hy
      exact ⟨n, Nat.le_of_lt (hlt m hm), by simp⟩
    · exact ⟨m, Nat.le_refl m, by rwa [Grammar.lookup_cons_of_ne hy]⟩

private theorem dominates_foldl_visit (g : Grammar) (xs : List Char) (h : Heights) :
    Dominates (xs.foldl (visit g) h) h := by
  induction xs generalizing h with
  | nil => exact .refl h
  | cons x xs ih => exact (ih (visit g h x)).trans (dominates_visit g h x)

private theorem exists_lookup_visit (hp : p ∈ g.productions x) (hn : h.ofProduction p = some n) :
    ∃ m ≤ n, (visit g h x).lookup x = some m := by
  obtain ⟨k, hkn, hk⟩ := exists_least hp hn
  rcases visit_cases g h x with ⟨hsame, hknown⟩ | ⟨k', hk', hnew, _⟩
  · obtain ⟨m, hmk, hm⟩ := hknown k hk
    exact ⟨m, Nat.le_trans hmk hkn, hsame.symm ▸ hm⟩
  · obtain rfl := Option.some.inj (hk.symm.trans hk')
    exact ⟨k, hkn, by simp [hnew]⟩

private theorem exists_lookup_pass (hp : p ∈ g.productions x) (hn : h.ofProduction p = some n) :
    ∃ m ≤ n, (pass g h).lookup x = some m := by
  have hx : x ∈ g.nonterminals := Grammar.mem_nonterminals_of_mem_productions hp
  obtain ⟨before, after, hsplit⟩ := List.append_of_mem hx
  have hpass : pass g h = after.foldl (visit g) (visit g (before.foldl (visit g) h) x) := by
    rw [pass, hsplit, List.foldl_append, List.foldl_cons]
  obtain ⟨k, hkn, hk⟩ := (dominates_foldl_visit g before h).ofProduction hn
  obtain ⟨m, hmk, hm⟩ := exists_lookup_visit hp hk
  obtain ⟨m', hm'm, hm'⟩ := dominates_foldl_visit g after _ x m hm
  exact ⟨m', by omega, hpass ▸ hm'⟩

def Realized (g : Grammar) (h : Heights) : Prop :=
  ∀ x n, h.lookup x = some n → ∃ t : Derivation, t.Follows g ∧ t.root = x ∧ t.height = n

theorem Realized.visit (hr : Realized g h) (x : Char) : Realized g (visit g h x) := by
  rcases visit_cases g h x with ⟨hsame, _⟩ | ⟨n, hleast, hnew, _⟩
  · rw [hsame]
    exact hr
  · rw [hnew]
    intro y m hm
    by_cases hy : y = x
    · subst hy
      obtain rfl : n = m := by simpa using hm
      obtain ⟨p, hp, hn⟩ := (least_eq_some.mp hleast).1
      cases p with
      | terminal a =>
        obtain rfl : 1 = n := by simpa [ofProduction] using hn
        exact ⟨.leaf y a, hp, rfl, rfl⟩
      | binary b c =>
        obtain ⟨k, k', hk, hk', rfl⟩ := ofProduction_binary_eq_some.mp hn
        obtain ⟨left, hleft, rfl, rfl⟩ := hr b k hk
        obtain ⟨right, hright, rfl, rfl⟩ := hr c k' hk'
        exact ⟨.node y left right, ⟨hp, hleft, hright⟩, rfl, rfl⟩
    · rw [Grammar.lookup_cons_of_ne hy] at hm
      exact hr y m hm

private theorem Realized.foldl_visit (hr : Realized g h) (xs : List Char) :
    Realized g (xs.foldl (Heights.visit g) h) := by
  induction xs generalizing h with
  | nil => exact hr
  | cons x xs ih => exact ih (hr.visit x)

private theorem realized_iterate_pass (g : Grammar) (k : Nat) : Realized g ((pass g)^[k] []) := by
  induction k with
  | zero =>
    intro x n hn
    cases hn
  | succ k ih =>
    rw [Function.iterate_succ_apply']
    exact ih.foldl_visit g.nonterminals

private theorem exists_lookup_iterate_pass {t : Derivation} (ht : t.Follows g) {k : Nat}
    (hk : t.height ≤ k) : ∃ n ≤ t.height, ((pass g)^[k] []).lookup t.root = some n := by
  induction t generalizing k with
  | leaf x a =>
    obtain ⟨k, rfl⟩ := Nat.exists_eq_add_of_le' hk
    rw [Derivation.height, Function.iterate_succ_apply']
    exact exists_lookup_pass ht rfl
  | node x left right ihl ihr =>
    obtain ⟨hp, hleft, hright⟩ := ht
    rw [Derivation.height] at hk
    obtain ⟨k, rfl⟩ : ∃ k', k = k' + 1 := ⟨k - 1, by omega⟩
    obtain ⟨m, hm, hb⟩ := @ihl hleft k (by omega)
    obtain ⟨m', hm', hc⟩ := @ihr hright k (by omega)
    have hn := ofProduction_binary_eq_some.mpr ⟨m, m', hb, hc, rfl⟩
    obtain ⟨n, hle, hlookup⟩ := exists_lookup_pass hp hn
    rw [Function.iterate_succ_apply']
    exact ⟨n, by rw [Derivation.height]; omega, hlookup⟩

theorem settle_eq_iterate (g : Grammar) (n : Nat) (h : Heights) :
    settle g n h = (pass g)^[n] h := by
  induction n generalizing h with
  | zero => rfl
  | succ n ih =>
    rw [settle, Function.iterate_succ_apply]
    by_cases hfix : pass g h = h
    · rw [if_pos hfix, hfix, Function.iterate_fixed hfix]
    · rw [if_neg hfix, ih]

end Heights

namespace Grammar

variable {g : Grammar} {x : Char} {n m : Nat}

/-- The least height of the derivations that start from a nonterminal. -/
def LeastHeight (g : Grammar) (x : Char) (n : Nat) : Prop :=
  IsLeast {m | ∃ t : Derivation, t.Follows g ∧ t.root = x ∧ t.height = m} n

theorem exists_leastHeight {t : Derivation} (ht : t.Follows g) :
    ∃ n ≤ t.height, g.LeastHeight t.root n := by
  have hmem : t.height ∈
      {m | ∃ u : Derivation, u.Follows g ∧ u.root = t.root ∧ u.height = m} := ⟨t, ht, rfl, rfl⟩
  exact ⟨_, Nat.sInf_le hmem, Nat.sInf_mem ⟨_, hmem⟩, fun m hm => Nat.sInf_le hm⟩

namespace LeastHeight

private theorem le_height (h : g.LeastHeight x n) {t : Derivation} (ht : t.Follows g)
    (hx : t.root = x) : n ≤ t.height :=
  h.2 ⟨t, ht, hx, rfl⟩

theorem mem_nonterminals (h : g.LeastHeight x n) : x ∈ g.nonterminals := by
  obtain ⟨t, ht, rfl, _⟩ := h.1
  exact ht.root_mem

theorem pos (h : g.LeastHeight x n) : 0 < n := by
  obtain ⟨t, _, _, rfl⟩ := h.1
  cases t <;> simp only [Derivation.height] <;> omega

private theorem exists_pred (h : g.LeastHeight x (n + 2)) : ∃ y, g.LeastHeight y (n + 1) := by
  obtain ⟨t, ht, rfl, hheight⟩ := h.1
  cases t with
  | leaf x a =>
    rw [Derivation.height] at hheight
    omega
  | node x left right =>
    obtain ⟨hp, hleft, hright⟩ := ht
    obtain ⟨m, hm, hleast⟩ := exists_leastHeight hleft
    obtain ⟨m', hm', hleast'⟩ := exists_leastHeight hright
    rw [Derivation.height] at hheight
    -- putting lowest derivations below the root cannot get below the least height
    have hle : n + 2 ≤ 1 + max m m' := by
      obtain ⟨l, hl, hlroot, rfl⟩ := hleast.1
      obtain ⟨r, hr, hrroot, rfl⟩ := hleast'.1
      apply h.le_height (t := .node x l r) ⟨?_, hl, hr⟩ rfl
      rw [hlroot, hrroot]
      exact hp
    rcases Nat.le_total m m' with hmm | hmm
    · exact ⟨right.root, (by omega : m' = n + 1) ▸ hleast'⟩
    · exact ⟨left.root, (by omega : m = n + 1) ▸ hleast⟩

private theorem exists_chain (h : g.LeastHeight x n) :
    ∃ ys : List Char, ys.Nodup ∧ ys.length = n ∧ ∀ y ∈ ys, ∃ m ≤ n, g.LeastHeight y m := by
  induction n generalizing x with
  | zero => exact ⟨[], by simp⟩
  | succ n ih =>
    obtain ⟨ys, hnodup, hlength, hys⟩ : ∃ ys : List Char, ys.Nodup ∧ ys.length = n ∧
        ∀ y ∈ ys, ∃ m ≤ n, g.LeastHeight y m := by
      cases n with
      | zero => exact ⟨[], by simp⟩
      | succ n =>
        obtain ⟨y, hy⟩ := h.exists_pred
        exact ih hy
    have hx : x ∉ ys := by
      intro hmem
      obtain ⟨m, hm, hleast⟩ := hys x hmem
      have heq : m = n + 1 := hleast.unique h
      omega
    refine ⟨x :: ys, List.nodup_cons.mpr ⟨hx, hnodup⟩, by rw [List.length_cons, hlength], ?_⟩
    intro y hy
    rcases List.mem_cons.mp hy with rfl | hy
    · exact ⟨n + 1, Nat.le_refl _, h⟩
    · obtain ⟨m, hm, hleast⟩ := hys y hy
      exact ⟨m, by omega, hleast⟩

theorem le_length (h : g.LeastHeight x n) : n ≤ g.nonterminals.length := by
  obtain ⟨ys, hnodup, rfl, hys⟩ := h.exists_chain
  have hsubset : ys ⊆ g.nonterminals := by
    intro y hy
    obtain ⟨m, _, hleast⟩ := hys y hy
    exact hleast.mem_nonterminals
  exact (List.subperm_of_subset hnodup hsubset).length_le

end LeastHeight

/-- As many passes as there are nonterminals know all least heights, and nothing else. -/
theorem lookup_iterate_pass {k : Nat} (hk : g.nonterminals.length ≤ k) :
    ((Heights.pass g)^[k] []).lookup x = some n ↔ g.LeastHeight x n := by
  have hreach {m : Nat} (h : g.LeastHeight x m) :
      ∃ m' ≤ m, ((Heights.pass g)^[k] []).lookup x = some m' := by
    have hle : m ≤ k := Nat.le_trans h.le_length hk
    obtain ⟨t, ht, rfl, rfl⟩ := h.1
    exact Heights.exists_lookup_iterate_pass ht hle
  constructor
  · intro hn
    obtain ⟨t, ht, rfl, rfl⟩ := Heights.realized_iterate_pass g k x n hn
    obtain ⟨m, hm, hleast⟩ := exists_leastHeight ht
    obtain ⟨m', hm', hlookup⟩ := hreach hleast
    obtain rfl := Option.some.inj (hn.symm.trans hlookup)
    exact (by omega : m = t.height) ▸ hleast
  · intro h
    obtain ⟨m, hm, hlookup⟩ := hreach h
    obtain ⟨t, ht, hx, rfl⟩ := Heights.realized_iterate_pass g k x m hlookup
    have hle := h.le_height ht hx
    rw [hlookup, Nat.le_antisymm hm hle]

/-- The settled heights are the least heights. -/
theorem lookup_heights : g.heights.lookup x = some n ↔ g.LeastHeight x n := by
  rw [heights, Heights.settle_eq_iterate]
  exact lookup_iterate_pass (Nat.le_succ _)

theorem exists_lookup_heights_iff :
    (∃ n, g.heights.lookup x = some n) ↔ ∃ w, g.Generates x w := by
  constructor
  · intro h
    obtain ⟨n, hn⟩ := h
    obtain ⟨t, ht, rfl, _⟩ := (lookup_heights.mp hn).1
    exact ⟨t.word, ht.generates⟩
  · intro h
    obtain ⟨w, hw⟩ := h
    obtain ⟨t, ht, rfl, _⟩ := generates_iff_exists_tree.mp hw
    obtain ⟨n, _, hn⟩ := exists_leastHeight ht
    exact ⟨n, lookup_heights.mpr hn⟩

end Grammar

end ChomskyNormal
