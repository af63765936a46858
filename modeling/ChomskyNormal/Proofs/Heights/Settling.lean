import ChomskyNormal.Proofs.Grammar.Inclusion
import ChomskyNormal.Proofs.Heights

/-!
How heights settle. Passes are made until one changes nothing; no bound on their number is set
beforehand. Once all least heights are known nothing better can be found, so the passes end, and
what they end with is known of the productions alone, whatever their order.
-/

set_option autoImplicit false
set_option relaxedAutoImplicit false

namespace ChomskyNormal

namespace Heights

/-- Passes are made until one changes nothing. The number counts all passes, that one included. -/
inductive SettlesIn (g : Grammar) : Heights → Nat → Heights → Prop where
  | still {h : Heights} (hfix : pass g h = h) : SettlesIn g h 1 h
  | again {h h' : Heights} {n : Nat} (hchange : pass g h ≠ h)
      (rest : SettlesIn g (pass g h) n h') : SettlesIn g h (n + 1) h'

variable {g : Grammar} {h h' : Heights} {k n : Nat}

private theorem exists_settlesIn (hfix : pass g ((pass g)^[k] h) = (pass g)^[k] h) :
    ∃ n ≤ k + 1, SettlesIn g h n ((pass g)^[k] h) := by
  induction k generalizing h with
  | zero => exact ⟨1, Nat.le_refl 1, .still hfix⟩
  | succ k ih =>
    rw [Function.iterate_succ_apply] at hfix ⊢
    by_cases hstill : pass g h = h
    · -- no more passes are made, for they would all change nothing
      rw [hstill, Function.iterate_fixed hstill]
      exact ⟨1, by omega, .still hstill⟩
    · obtain ⟨n, hn, hrest⟩ := ih hfix
      exact ⟨n + 1, by omega, .again hstill hrest⟩

private theorem SettlesIn.settle_eq (hs : SettlesIn g h n h') {allowed : Nat} (hn : n ≤ allowed) :
    settle g allowed h = h' := by
  induction hs generalizing allowed with
  | still hfix => rw [settle_eq_iterate, Function.iterate_fixed hfix]
  | again hchange _ ih =>
    obtain ⟨allowed, rfl⟩ := Nat.exists_eq_add_of_le' (Nat.one_le_of_lt hn)
    rw [settle, if_neg hchange, ih (by omega)]

private theorem visit_eq_self (hleast : ∀ x n, h.lookup x = some n ↔ g.LeastHeight x n) (x : Char) :
    visit g h x = h := by
  rcases visit_cases g h x with ⟨hsame, _⟩ | ⟨n, _, hnew, hlt⟩
  · exact hsame
  · have hrealized : Realized g (visit g h x) := by
      apply Realized.visit
      intro y m hm
      exact ((hleast y m).mp hm).1
    -- a better height would be that of a derivation lower than the lowest one
    obtain ⟨t, ht, rfl, rfl⟩ := hrealized x n (by simp [hnew])
    obtain ⟨m, hm, htm⟩ := Grammar.exists_leastHeight ht
    have hbelow := hlt m ((hleast t.root m).mpr htm)
    omega

private theorem pass_eq_self (hleast : ∀ x n, h.lookup x = some n ↔ g.LeastHeight x n) :
    pass g h = h := by
  have hvisits (xs : List Char) : xs.foldl (visit g) h = h := by
    induction xs with
    | nil => rfl
    | cons x xs ih => rw [List.foldl_cons, visit_eq_self hleast, ih]
  exact hvisits g.nonterminals

private theorem exists_settlesIn_heights (g : Grammar) :
    ∃ n ≤ g.nonterminals.length + 1, SettlesIn g [] n g.heights := by
  have hfix : pass g ((pass g)^[g.nonterminals.length] []) = (pass g)^[g.nonterminals.length] [] :=
    pass_eq_self fun x n => Grammar.lookup_iterate_pass (Nat.le_refl _)
  obtain ⟨n, hn, hsettles⟩ := exists_settlesIn hfix
  refine ⟨n, hn, ?_⟩
  rwa [Grammar.heights, hsettles.settle_eq hn]

end Heights

namespace Grammar

variable {g g' : Grammar} {x : Char} {n : Nat}

private theorem Within.leastHeight_iff (h : Within g g') (h' : Within g' g) :
    g.LeastHeight x n ↔ g'.LeastHeight x n := by
  have hfollows (t : Derivation) : t.Follows g ↔ t.Follows g' := ⟨h.follows, h'.follows⟩
  simp only [LeastHeight, hfollows]

/-- The passes over the nonterminals end after one for each of them and one more at the latest.
Then exactly the nonterminals that derive some word have heights, each the least height of its
derivations. So heights depend on no order, neither of the nonterminals nor of their productions. -/
theorem heights_settle_on_least (g : Grammar) :
    (∃ n ≤ g.nonterminals.length + 1, Heights.SettlesIn g [] n g.heights) ∧
    (∀ x, (∃ n, g.heights.lookup x = some n) ↔ ∃ w, g.Generates x w) ∧
    (∀ x n, g.heights.lookup x = some n ↔
      IsLeast {m | ∃ t : Derivation, t.Follows g ∧ t.root = x ∧ t.height = m} n) ∧
    ∀ g', Within g g' → Within g' g → ∀ x, g'.heights.lookup x = g.heights.lookup x := by
  refine ⟨Heights.exists_settlesIn_heights g, fun x => exists_lookup_heights_iff,
    fun x n => lookup_heights, ?_⟩
  intro g' h h' x
  apply Option.ext
  intro n
  rw [lookup_heights, lookup_heights, h.leastHeight_iff h']

/-- In `balanced` and `shuffled` heights settle alike: `S` is two high, `T` three, and `L` derives
no word. -/
theorem balanced_heights_settle :
    (∃ n ≤ 6, Heights.SettlesIn balanced [] n balanced.heights) ∧
      (∀ x, shuffled.heights.lookup x = balanced.heights.lookup x) ∧
      shuffled.heights ≠ balanced.heights ∧ shuffled.heights.lookup 'T' = some 3 ∧
      ¬ ∃ w, balanced.Generates 'L' w := by
  obtain ⟨hsettles, hproductive, -, horder⟩ := heights_settle_on_least balanced
  have hlength : balanced.nonterminals.length = 5 := by decide +kernel
  rw [hlength] at hsettles
  have hsame := horder shuffled (by decide +kernel) (by decide +kernel)
  have hbarren : balanced.heights.lookup 'L' = none := by decide +kernel
  refine ⟨hsettles, hsame, by decide +kernel, ?_, ?_⟩
  · rw [hsame]
    decide +kernel
  · rw [← hproductive, hbarren]
    simp

end Grammar

end ChomskyNormal
