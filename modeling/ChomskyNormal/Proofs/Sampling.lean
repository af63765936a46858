import ChomskyNormal.Draws
import ChomskyNormal.Proofs.Heights
import ChomskyNormal.Proofs.Membership
import ChomskyNormal.Sampling

/-!
Random words. Whatever is chosen, a nonterminal that derives some word is grown into a derivation,
because every option leads to nonterminals that derive words, and the lowest option to lower ones.
-/

set_option autoImplicit false
set_option relaxedAutoImplicit false

namespace ChomskyNormal

def Chooser.InRange {σ : Type} (choose : Chooser σ) : Prop :=
  ∀ n s, 0 < n → (choose n s).1 < n

theorem Draws.choose_inRange : Chooser.InRange Draws.choose := by
  have hwithin (n : Nat) (hn : 0 < n) (tries : Nat) (d : Draws) :
      (chooseWithin n tries d).1 < n := by
    induction tries generalizing d with
    | zero => exact hn
    | succ tries ih =>
      have hdraw : d.next.1.toNat < UInt32.size := d.next.1.toNat_lt
      have hhigh : d.next.1.toNat * n / UInt32.size < n := by
        rw [Nat.div_lt_iff_lt_mul (by decide), Nat.mul_comm n]
        exact Nat.mul_lt_mul_of_pos_right hdraw hn
      rw [chooseWithin]
      by_cases hkept : d.next.1.toNat * n % UInt32.size ≤ zone n
      · simpa only [hkept, if_true] using hhigh
      · simpa only [hkept, if_false] using ih d.next.2
  intro n d hn
  exact hwithin n hn _ d

namespace Sampling

variable {g : Grammar} {h : Heights} {x : Char} {p : Production} {n : Nat}

theorem mem_options :
    (p, n) ∈ options g h x ↔ p ∈ g.productions x ∧ h.ofProduction p = some n := by
  simp [options, List.mem_filterMap]

theorem exists_lowest {ps : List (Production × Nat)} (hp : (p, n) ∈ ps) :
    ∃ q, ∃ m ≤ n, lowest ps = some q ∧ (q, m) ∈ ps := by
  obtain ⟨m, hmn, hmin⟩ := Heights.exists_min?_le (List.mem_map_of_mem (f := Prod.snd) hp)
  obtain ⟨o, ho, hom⟩ := List.mem_map.mp (List.min?_mem hmin)
  cases hfind : ps.find? fun p => p.2 = m with
  | none =>
    have hno := List.find?_eq_none.mp hfind o ho
    simp [hom] at hno
  | some q =>
    have heq : q.2 = m := by simpa using List.find?_some hfind
    refine ⟨q.1, m, hmn, by simp [lowest, hmin, hfind], ?_⟩
    exact heq ▸ List.mem_of_find?_eq_some hfind

theorem exists_option (hx : g.heights.lookup x = some n) :
    ∃ p, ∃ m ≤ n, (p, m) ∈ options g g.heights x := by
  obtain ⟨t, ht, rfl, rfl⟩ := (Grammar.lookup_heights.mp hx).1
  cases t with
  | leaf x a => exact ⟨.terminal a, 1, Nat.le_refl _, mem_options.mpr ⟨ht, rfl⟩⟩
  | node x left right =>
    obtain ⟨hp, hleft, hright⟩ := ht
    obtain ⟨m, hm, hleast⟩ := Grammar.exists_leastHeight hleft
    obtain ⟨m', hm', hleast'⟩ := Grammar.exists_leastHeight hright
    refine ⟨.binary left.root right.root, 1 + max m m', ?_, mem_options.mpr ⟨hp, ?_⟩⟩
    · rw [Derivation.height]
      omega
    · exact Heights.ofProduction_binary_eq_some.mpr
        ⟨m, m', Grammar.lookup_heights.mpr hleast, Grammar.lookup_heights.mpr hleast', rfl⟩

theorem exists_finish {fuel : Nat} (hx : g.heights.lookup x = some n) (hn : n ≤ fuel) :
    ∃ t : Derivation, finish g g.heights fuel x = some t ∧ t.Follows g ∧ t.root = x := by
  induction fuel generalizing x n with
  | zero =>
    have hpos := (Grammar.lookup_heights.mp hx).pos
    omega
  | succ fuel ih =>
    obtain ⟨p, m, hm, hp⟩ := exists_option hx
    obtain ⟨q, k, hk, hq, hmem⟩ := exists_lowest hp
    obtain ⟨hprod, hheight⟩ := mem_options.mp hmem
    rw [finish, hq]
    cases q with
    | terminal a => exact ⟨.leaf x a, rfl, hprod, rfl⟩
    | binary b c =>
      obtain ⟨i, j, hi, hj, rfl⟩ := Heights.ofProduction_binary_eq_some.mp hheight
      obtain ⟨left, hleft, hfl, rfl⟩ := ih hi (by omega)
      obtain ⟨right, hright, hfr, rfl⟩ := ih hj (by omega)
      simp only [hleft, hright]
      exact ⟨.node x left right, rfl, ⟨hprod, hfl, hfr⟩, rfl⟩

theorem exists_grow {σ : Type} {choose : Chooser σ} (hchoose : choose.InRange)
    (hx : g.heights.lookup x = some n) (depth : Nat) (s : σ) :
    ∃ t s', grow choose g g.heights depth x s = (some t, s') ∧ t.Follows g ∧ t.root = x := by
  induction depth generalizing x n s with
  | zero =>
    obtain ⟨t, ht, hfollows, hroot⟩ := exists_finish hx (Nat.le_refl n)
    exact ⟨t, s, by rw [grow, hx, Option.getD_some, ht], hfollows, hroot⟩
  | succ depth ih =>
    obtain ⟨p, m, _, hp⟩ := exists_option hx
    rw [grow]
    cases hoptions : options g g.heights x with
    | nil =>
      rw [hoptions] at hp
      cases hp
    | cons o os =>
      have hlt : (choose (os.length + 1) s).1 < (o :: os).length :=
        hchoose (os.length + 1) s (Nat.succ_pos _)
      obtain ⟨⟨q, k⟩, hq⟩ : ∃ q, (o :: os)[(choose (os.length + 1) s).1]? = some q :=
        ⟨_, List.getElem?_eq_getElem hlt⟩
      have hmem : (q, k) ∈ options g g.heights x := hoptions ▸ List.mem_of_getElem? hq
      obtain ⟨hprod, hheight⟩ := mem_options.mp hmem
      simp only [hq]
      cases q with
      | terminal a => exact ⟨.leaf x a, _, rfl, hprod, rfl⟩
      | binary b c =>
        obtain ⟨i, j, hi, hj, _⟩ := Heights.ofProduction_binary_eq_some.mp hheight
        obtain ⟨left, s', hleft, hfl, rfl⟩ := ih hi (choose (os.length + 1) s).2
        obtain ⟨right, s'', hright, hfr, rfl⟩ := ih hj s'
        simp only [hleft, hright]
        exact ⟨.node x left right, s'', rfl, ⟨hprod, hfl, hfr⟩, rfl⟩

end Sampling

namespace Grammar

section Outcomes

variable {σ : Type} {choose : Chooser σ} {g g' : Grammar} {x : Char} {w : Text} {s s' : σ}

/-- A nonterminal is not declared, or derives no word, or a word that it derives is grown. -/
private theorem sampleFrom_cases (hchoose : choose.InRange) (g : Grammar) (x : Char) (depth : Nat)
    (s : σ) :
    (x ∉ g.nonterminals ∧ g.sampleFrom choose depth x s = .error (.undefined x)) ∨
    (x ∈ g.nonterminals ∧ (¬ ∃ w, g.Generates x w) ∧
      g.sampleFrom choose depth x s = .error (.barren x)) ∨
    ∃ w s', g.Generates x w ∧ g.sampleFrom choose depth x s = .ok (w, s') := by
  by_cases hx : x ∈ g.nonterminals
  · cases hn : g.heights.lookup x with
    | none =>
      refine .inr (.inl ⟨hx, ?_, ?_⟩)
      · intro hw
        obtain ⟨n, hn'⟩ := exists_lookup_heights_iff.mpr hw
        cases hn.symm.trans hn'
      · rw [sampleFrom, sampleTree, if_pos hx, hn]
        rfl
    | some n =>
      obtain ⟨t, s', ht, hfollows, rfl⟩ := Sampling.exists_grow hchoose hn depth s
      refine .inr (.inr ⟨t.word, s', hfollows.generates, ?_⟩)
      rw [sampleFrom, sampleTree, if_pos hx]
      simp only [hn, ht]
      rfl
  · refine .inl ⟨hx, ?_⟩
    rw [sampleFrom, sampleTree, if_neg hx]
    rfl

private theorem sampleFrom_eq_undefined (hchoose : choose.InRange) {depth : Nat} :
    g.sampleFrom choose depth x s = .error (.undefined x) ↔ x ∉ g.nonterminals := by
  rcases sampleFrom_cases hchoose g x depth s with ⟨hx, hout⟩ | ⟨hx, _, hout⟩ | ⟨w, s', hw, hout⟩
  · simp [hout, hx]
  · simp [hout, hx]
  · simp [hout, hw.mem_nonterminals]

theorem sampleFrom_eq_barren (hchoose : choose.InRange) {depth : Nat} :
    g.sampleFrom choose depth x s = .error (.barren x) ↔
      x ∈ g.nonterminals ∧ ¬ ∃ w, g.Generates x w := by
  rcases sampleFrom_cases hchoose g x depth s with ⟨hx, hout⟩ | ⟨hx, hno, hout⟩ | ⟨w, s', hw, hout⟩
  · simp [hout, hx]
  · exact ⟨fun _ => ⟨hx, hno⟩, fun _ => hout⟩
  · rw [hout]
    constructor
    · intro h
      cases h
    · intro h
      exact absurd ⟨w, hw⟩ h.2

private theorem generates_of_sampleFrom (hchoose : choose.InRange) {depth : Nat}
    (h : g.sampleFrom choose depth x s = .ok (w, s')) : g.Generates x w := by
  rcases sampleFrom_cases hchoose g x depth s with ⟨_, hout⟩ | ⟨_, _, hout⟩ | ⟨v, s'', hv, hout⟩
  · cases hout.symm.trans h
  · cases hout.symm.trans h
  · obtain ⟨rfl, rfl⟩ := Prod.mk.inj (Except.ok.inj (hout.symm.trans h))
    exact hv

theorem exists_sampleFrom_iff (hchoose : choose.InRange) {depth : Nat} :
    (∃ w s', g.sampleFrom choose depth x s = .ok (w, s')) ↔ ∃ w, g.Generates x w := by
  constructor
  · intro h
    obtain ⟨w, s', h⟩ := h
    exact ⟨w, generates_of_sampleFrom hchoose h⟩
  · intro h
    rcases sampleFrom_cases hchoose g x depth s with ⟨hx, _⟩ | ⟨_, hno, _⟩ | ⟨w, s', _, hout⟩
    · obtain ⟨w, hw⟩ := h
      exact absurd hw.mem_nonterminals hx
    · exact absurd h hno
    · exact ⟨w, s', hout⟩

theorem sampleIn_eq_error {file : Text} {asked : Option Char} {depth : Nat} {e : SampleFault} :
    g.sampleIn choose file asked depth s = .error ⟨.whole file, e⟩ ↔
      g.sample choose asked depth s = .error e := by
  rw [sampleIn]
  cases g.sample choose asked depth s <;> simp [Except.mapError]

theorem sampleIn_eq_ok {file : Text} {asked : Option Char} {depth : Nat} {r : Text × σ} :
    g.sampleIn choose file asked depth s = .ok r ↔ g.sample choose asked depth s = .ok r := by
  rw [sampleIn]
  cases g.sample choose asked depth s <;> simp [Except.mapError]

theorem sample_some {depth : Nat} :
    g.sample choose (some x) depth s = g.sampleFrom choose depth x s := rfl

theorem sample_none_of_start {depth : Nat} (hx : g.start = some x) :
    g.sample choose none depth s = g.sampleFrom choose depth x s := by
  rw [sample, origin, hx]
  rfl

theorem sample_none_eq_noStart (hchoose : choose.InRange) {depth : Nat} :
    g.sample choose none depth s = .error .noStart ↔ g.start = none := by
  cases hx : g.start with
  | none =>
    rw [sample, origin, hx]
    exact ⟨fun _ => rfl, fun _ => rfl⟩
  | some x =>
    rw [sample_none_of_start hx]
    rcases sampleFrom_cases hchoose g x depth s with ⟨_, hout⟩ | ⟨_, _, hout⟩ | ⟨w, s', _, hout⟩
    all_goals simp [hout]

private theorem follows_setStart {t : Derivation} (h : t.Follows g) :
    t.Follows { g with start := some x } := by
  induction t with
  | leaf y a => exact h
  | node y left right ihl ihr => exact ⟨h.1, ihl h.2.1, ihr h.2.2⟩

private theorem exists_derives_of_generates (hg : g.WellFormed) (h : g.Generates x w) :
    ∃ g', g.setStart x = .ok g' ∧ g'.derives w = .ok true := by
  have hstart := setStart_eq_ok.mpr ⟨h.mem_nonterminals, rfl⟩
  refine ⟨_, hstart, ?_⟩
  obtain ⟨t, ht, hroot, hword⟩ := generates_iff_exists_tree.mp h
  apply (derives_eq_true_iff (hg.setStart h.mem_nonterminals)).mpr
  exact ⟨x, rfl, generates_iff_exists_tree.mpr ⟨t, follows_setStart ht, hroot, hword⟩⟩

/-- Growing a word fails with a fault of the file as a whole, for a nonterminal that is not declared
or derives no word, and succeeds in all other cases, whatever the depth and the choices are. A word
that is grown is not empty, is made of declared terminals and belongs to the language. Without a
nonterminal asked for, the start symbol is taken. -/
theorem sampleIn_outcome (hchoose : choose.InRange) (hg : g.Reachable) (file : Text)
    (depth : Nat) (s : σ) :
    (∀ x,
      (g.sampleIn choose file (some x) depth s = .error ⟨.whole file, .undefined x⟩ ↔
        x ∉ g.nonterminals) ∧
      (g.sampleIn choose file (some x) depth s = .error ⟨.whole file, .barren x⟩ ↔
        x ∈ g.nonterminals ∧ ¬ ∃ w, g.Generates x w) ∧
      ((∃ w s', g.sampleIn choose file (some x) depth s = .ok (w, s')) ↔
        ∃ w, g.Generates x w) ∧
      (∀ w s', g.sampleIn choose file (some x) depth s = .ok (w, s') →
        w ≠ [] ∧ (∀ c ∈ w, c ∈ g.terminals) ∧ g.Generates x w ∧
          ∃ g', g.setStart x = .ok g' ∧ g'.derives w = .ok true) ∧
      ∀ n, g.heights.lookup x = some n →
        (Sampling.grow choose g g.heights depth x s).1 ≠ none) ∧
    (g.sampleIn choose file none depth s = .error ⟨.whole file, .noStart⟩ ↔ g.start = none) ∧
    ∀ x, g.start = some x →
      g.sampleIn choose file none depth s = g.sampleIn choose file (some x) depth s := by
  have hwf := hg.wellFormed
  refine ⟨?_, ?_, ?_⟩
  · intro x
    simp only [sampleIn_eq_error, sampleIn_eq_ok, sample_some]
    refine ⟨sampleFrom_eq_undefined hchoose, sampleFrom_eq_barren hchoose,
      exists_sampleFrom_iff hchoose, ?_, ?_⟩
    · intro w s' h
      have hw := generates_of_sampleFrom hchoose h
      exact ⟨hw.ne_nil, hw.mem_terminals hwf, hw, exists_derives_of_generates hwf hw⟩
    · intro n hn
      obtain ⟨t, s', ht, _⟩ := Sampling.exists_grow hchoose hn depth s
      simp [ht]
  · rw [sampleIn_eq_error]
    exact sample_none_eq_noStart hchoose
  · intro x hx
    rw [sampleIn, sampleIn, sample_none_of_start hx, sample_some]

/-- From `balanced` a word grows under `S`; `L` derives none, and `Z` is not declared. -/
theorem balanced_sampleIn :
    Chooser.InRange Draws.choose ∧ balanced.Reachable ∧
      (∃ w s', balanced.sampleIn Draws.choose "g".toList (some 'S') 3 (.start [7, 0x80000000] 5) =
        .ok (w, s')) ∧
      balanced.sampleIn Draws.choose "g".toList (some 'L') 3 (.start [7, 0x80000000] 5) =
        .error ⟨.whole "g".toList, .barren 'L'⟩ ∧
      balanced.sampleIn Draws.choose "g".toList (some 'Z') 3 (.start [7, 0x80000000] 5) =
        .error ⟨.whole "g".toList, .undefined 'Z'⟩ := by
  have hout := (sampleIn_outcome Draws.choose_inRange balanced_reachable "g".toList 3
    (.start [7, 0x80000000] 5)).1
  have hword : ∃ w, balanced.Generates 'S' w :=
    exists_lookup_heights_iff.mp ⟨2, by decide +kernel⟩
  have hbarren : ¬ ∃ w, balanced.Generates 'L' w := by
    rw [← exists_lookup_heights_iff]
    have hnone : balanced.heights.lookup 'L' = none := by decide +kernel
    simp [hnone]
  refine ⟨Draws.choose_inRange, balanced_reachable, ?_, ?_, ?_⟩
  · exact (hout 'S').2.2.1.mpr hword
  · exact (hout 'L').2.1.mpr ⟨by decide +kernel, hbarren⟩
  · exact (hout 'Z').1.mpr (by decide +kernel)

end Outcomes

end Grammar

end ChomskyNormal
