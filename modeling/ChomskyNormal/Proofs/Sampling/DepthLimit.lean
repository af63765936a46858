import ChomskyNormal.Proofs.Sampling
import Mathlib.Order.ConditionallyCompleteLattice.Basic

/-!
What the depth limit does. Growth is described node by node, from the root at depth zero on: above
the limit a production is chosen, from the limit on the lowest one is taken. Below the limit each
step therefore lowers the height, so growth ends; and above it there are only so many nodes.
-/

set_option autoImplicit false
set_option relaxedAutoImplicit false

namespace ChomskyNormal

namespace Derivation

/-- The subtrees whose roots lie at a depth, from left to right; the root of the whole derivation
lies at depth zero. -/
def atDepth : Nat → Derivation → List Derivation
  | 0, t => [t]
  | _ + 1, leaf _ _ => []
  | k + 1, node _ left right => atDepth k left ++ atDepth k right

private theorem height_pos (t : Derivation) : 0 < t.height := by
  cases t <;> simp only [height] <;> omega

private theorem length_word_le (t : Derivation) : t.word.length ≤ 2 ^ (t.height - 1) := by
  induction t with
  | leaf x a => exact Nat.le_refl 1
  | node x left right ihl ihr =>
    have hl := left.height_pos
    have hr := right.height_pos
    have hleft : 2 ^ (left.height - 1) ≤ 2 ^ (max left.height right.height - 1) :=
      Nat.pow_le_pow_right (by omega) (by omega)
    have hright : 2 ^ (right.height - 1) ≤ 2 ^ (max left.height right.height - 1) :=
      Nat.pow_le_pow_right (by omega) (by omega)
    have hlevel : (node x left right).height - 1 = max left.height right.height - 1 + 1 := by
      rw [height]
      omega
    rw [hlevel, Nat.pow_succ, word, List.length_append]
    omega

end Derivation

namespace Sampling

variable {σ : Type} {choose : Chooser σ} {g : Grammar} {h : Heights} {limit depth : Nat} {x : Char}
  {s s' : σ} {t : Derivation} {asked : List Nat} {p : Production} {k m n H : Nat}

/-- How the production at a node is found: above the limit an option is asked for, which is noted
with the depth of the node; from the limit on the lowest option is taken, and nothing is asked. -/
inductive Takes (choose : Chooser σ) (g : Grammar) (h : Heights) (limit depth : Nat) (x : Char) :
    σ → Production → List Nat → σ → Prop where
  | chosen {s s' : σ} {p : Production} {k m : Nat} (hdepth : depth < limit)
      (hchoose : choose (options g h x).length s = (k, s'))
      (hp : (options g h x)[k]? = some (p, m)) : Takes choose g h limit depth x s p [depth] s'
  | lowest {s : σ} {p : Production} (hdepth : limit ≤ depth)
      (hp : lowest (options g h x) = some p) : Takes choose g h limit depth x s p [] s

/-- The growth of a derivation under a node at some depth, with the depths of all nodes at which a
choice is asked for: the node first, then its left part, then its right one. -/
inductive Grows (choose : Chooser σ) (g : Grammar) (h : Heights) (limit : Nat) :
    Nat → Char → σ → Derivation → List Nat → σ → Prop where
  | leaf {depth : Nat} {x a : Char} {s s' : σ} {asked : List Nat}
      (hp : Takes choose g h limit depth x s (.terminal a) asked s') :
      Grows choose g h limit depth x s (.leaf x a) asked s'
  | node {depth : Nat} {x b c : Char} {s s₁ s₂ s₃ : σ} {left right : Derivation}
      {asked askedLeft askedRight : List Nat}
      (hp : Takes choose g h limit depth x s (.binary b c) asked s₁)
      (hleft : Grows choose g h limit (depth + 1) b s₁ left askedLeft s₂)
      (hright : Grows choose g h limit (depth + 1) c s₂ right askedRight s₃) :
      Grows choose g h limit depth x s (.node x left right) (asked ++ (askedLeft ++ askedRight)) s₃

private theorem Takes.exists_option (hp : Takes choose g h limit depth x s p asked s') :
    ∃ m, (p, m) ∈ options g h x := by
  cases hp with
  | chosen _ _ hp => exact ⟨_, List.mem_of_getElem? hp⟩
  | lowest _ hp =>
    cases hoptions : options g h x with
    | nil => simp [hoptions, Sampling.lowest] at hp
    | cons o os =>
      obtain ⟨q, m, _, hq, hmem⟩ := exists_lowest (List.mem_cons_self (a := o) (l := os))
      rw [hoptions, hq] at hp
      obtain rfl := Option.some.inj hp
      exact ⟨m, hmem⟩

private theorem Takes.asked_lt (hp : Takes choose g h limit depth x s p asked s') :
    ∀ k ∈ asked, k < limit := by
  cases hp with
  | chosen hdepth => simpa using hdepth
  | lowest => simp

private theorem Takes.lowest_eq (hp : Takes choose g h limit depth x s p asked s')
    (hdepth : limit ≤ depth) : Sampling.lowest (options g h x) = some p := by
  cases hp with
  | chosen hlt => omega
  | lowest _ hp => exact hp

private theorem exists_tree_of_option (hp : (p, m) ∈ options g g.heights x) :
    ∃ t : Derivation, t.Follows g ∧ t.root = x ∧ t.height = m := by
  obtain ⟨hprod, hheight⟩ := mem_options.mp hp
  cases p with
  | terminal a =>
    obtain rfl := Option.some.inj hheight
    exact ⟨.leaf x a, hprod, rfl, rfl⟩
  | binary b c =>
    obtain ⟨i, j, hi, hj, rfl⟩ := Heights.ofProduction_binary_eq_some.mp hheight
    obtain ⟨left, hleft, rfl, rfl⟩ := (Grammar.lookup_heights.mp hi).1
    obtain ⟨right, hright, rfl, rfl⟩ := (Grammar.lookup_heights.mp hj).1
    exact ⟨.node x left right, ⟨hprod, hleft, hright⟩, rfl, rfl⟩

private theorem leastHeight_of_lowest (hlowest : lowest (options g g.heights x) = some p)
    (hp : (p, m) ∈ options g g.heights x) : g.LeastHeight x m := by
  obtain ⟨t, ht, rfl, rfl⟩ := exists_tree_of_option hp
  obtain ⟨n, hn, hleast⟩ := Grammar.exists_leastHeight ht
  obtain ⟨q, k, hk, hq⟩ := exists_option (Grammar.lookup_heights.mpr hleast)
  obtain ⟨q', m, hm, hq', hmem⟩ := exists_lowest hq
  obtain rfl := Option.some.inj (hlowest.symm.trans hq')
  -- one production gives one height
  have hsame := Option.some.inj ((mem_options.mp hp).2.symm.trans (mem_options.mp hmem).2)
  have heq : n = t.height := by omega
  exact heq ▸ hleast

namespace Grows

private theorem root_eq (hg : Grows choose g h limit depth x s t asked s') : t.root = x := by
  cases hg <;> rfl

private theorem follows (hg : Grows choose g h limit depth x s t asked s') : t.Follows g := by
  induction hg with
  | leaf hp =>
    obtain ⟨m, hm⟩ := hp.exists_option
    exact (mem_options.mp hm).1
  | node hp hleft hright ihl ihr =>
    obtain ⟨m, hm⟩ := hp.exists_option
    refine ⟨?_, ihl, ihr⟩
    rw [hleft.root_eq, hright.root_eq]
    exact (mem_options.mp hm).1

/-- From the limit on what grows is as low as can be. -/
private theorem leastHeight (hg : Grows choose g g.heights limit depth x s t asked s')
    (hdepth : limit ≤ depth) : g.LeastHeight x t.height := by
  induction hg with
  | leaf hp =>
    obtain ⟨m, hm⟩ := hp.exists_option
    obtain rfl := Option.some.inj (mem_options.mp hm).2
    exact leastHeight_of_lowest (hp.lowest_eq hdepth) hm
  | node hp _ _ ihl ihr =>
    obtain ⟨m, hm⟩ := hp.exists_option
    have hleast := leastHeight_of_lowest (hp.lowest_eq hdepth) hm
    obtain ⟨i, j, hi, hj, rfl⟩ := Heights.ofProduction_binary_eq_some.mp (mem_options.mp hm).2
    obtain rfl := (Grammar.lookup_heights.mp hi).unique (ihl (by omega))
    obtain rfl := (Grammar.lookup_heights.mp hj).unique (ihr (by omega))
    exact hleast

private theorem leastHeight_atDepth (hg : Grows choose g g.heights limit depth x s t asked s')
    (hk : limit ≤ depth + k) : ∀ u ∈ t.atDepth k, g.LeastHeight u.root u.height := by
  induction k generalizing depth x s t asked s' with
  | zero =>
    intro u hu
    obtain rfl := List.mem_singleton.mp hu
    rw [hg.root_eq]
    exact hg.leastHeight hk
  | succ k ih =>
    intro u hu
    cases hg with
    | leaf => cases hu
    | node _ hleft hright =>
      rcases List.mem_append.mp hu with hu | hu
      · exact ih hleft (by omega) u hu
      · exact ih hright (by omega) u hu

private theorem height_le (hg : Grows choose g g.heights limit depth x s t asked s')
    (hH : ∀ y n, g.LeastHeight y n → n ≤ H) : t.height ≤ limit - depth + H := by
  induction hg with
  | @leaf depth x a s s' asked hp =>
    by_cases hdepth : limit ≤ depth
    · have hleast := hH x _ ((Grows.leaf hp).leastHeight hdepth)
      omega
    · rw [Derivation.height]
      omega
  | @node depth x b c _ _ _ _ left right _ _ _ hp hleft hright ihl ihr =>
    by_cases hdepth : limit ≤ depth
    · have hleast := hH x _ ((Grows.node hp hleft hright).leastHeight hdepth)
      omega
    · rw [Derivation.height]
      omega

private theorem asked_lt (hg : Grows choose g h limit depth x s t asked s') :
    ∀ k ∈ asked, k < limit := by
  induction hg with
  | leaf hp => exact hp.asked_lt
  | node hp _ _ ihl ihr =>
    intro k hk
    rcases List.mem_append.mp hk with hk | hk
    · exact hp.asked_lt k hk
    · rcases List.mem_append.mp hk with hk | hk
      · exact ihl k hk
      · exact ihr k hk

/-- Above the limit there are no more nodes than in a full tree. -/
private theorem length_asked_lt (hg : Grows choose g h limit depth x s t asked s') :
    asked.length < 2 ^ (limit - depth) := by
  induction hg with
  | @leaf depth x a s s' asked hp =>
    cases hp with
    | chosen hdepth => exact Nat.one_lt_two_pow (by omega)
    | lowest => exact Nat.two_pow_pos _
  | @node depth x b c _ _ _ _ left right asked _ _ hp _ _ ihl ihr =>
    rw [List.length_append, List.length_append]
    cases hp with
    | chosen hdepth =>
      obtain ⟨m, hm⟩ : ∃ m, limit - depth = m + 1 := ⟨limit - depth - 1, by omega⟩
      have hm' : limit - (depth + 1) = m := by omega
      rw [hm'] at ihl ihr
      rw [hm, Nat.pow_succ, List.length_singleton]
      omega
    | lowest hdepth =>
      have hzero : limit - depth = 0 := by omega
      have hzero' : limit - (depth + 1) = 0 := by omega
      rw [hzero'] at ihl ihr
      rw [hzero]
      simp only [List.length_nil]
      omega

end Grows

private theorem grows_of_finish {fuel : Nat} (ht : finish g h fuel x = some t)
    (hdepth : limit ≤ depth) : Grows choose g h limit depth x s t [] s := by
  induction fuel generalizing depth x t with
  | zero => cases ht
  | succ fuel ih =>
    rw [finish] at ht
    cases hp : lowest (options g h x) with
    | none => simp [hp] at ht
    | some p =>
      cases p with
      | terminal a =>
        obtain rfl : Derivation.leaf x a = t := by simpa [hp] using ht
        exact .leaf (.lowest hdepth hp)
      | binary b c =>
        cases hleft : finish g h fuel b with
        | none => simp [hp, hleft] at ht
        | some left =>
          cases hright : finish g h fuel c with
          | none => simp [hp, hleft, hright] at ht
          | some right =>
            obtain rfl : Derivation.node x left right = t := by simpa [hp, hleft, hright] using ht
            exact .node (.lowest hdepth hp) (ih hleft (by omega)) (ih hright (by omega))

private theorem grow_cases (ht : grow choose g h (n + 1) x s = (some t, s')) :
    ∃ k p m s₁, choose (options g h x).length s = (k, s₁) ∧ (options g h x)[k]? = some (p, m) ∧
      ((∃ a, p = .terminal a ∧ t = .leaf x a ∧ s' = s₁) ∨
      ∃ b c left right s₂, p = .binary b c ∧ t = .node x left right ∧
        grow choose g h n b s₁ = (some left, s₂) ∧ grow choose g h n c s₂ = (some right, s')) := by
  rw [grow] at ht
  cases hoptions : options g h x with
  | nil => simp [hoptions] at ht
  | cons o os =>
    simp only [hoptions] at ht
    cases hp : (o :: os)[(choose (os.length + 1) s).1]? with
    | none => simp [hp] at ht
    | some pm =>
      obtain ⟨p, m⟩ := pm
      refine ⟨_, p, m, _, rfl, hp, ?_⟩
      simp only [hp] at ht
      cases p with
      | terminal a =>
        obtain ⟨rfl, rfl⟩ : Derivation.leaf x a = t ∧ _ = s' := by simpa using ht
        exact .inl ⟨a, rfl, rfl, rfl⟩
      | binary b c =>
        right
        dsimp only at ht
        rcases hleft : grow choose g h n b (choose (os.length + 1) s).2 with ⟨_ | left, s₂⟩
        · simp [hleft] at ht
        · rcases hright : grow choose g h n c s₂ with ⟨_ | right, s₃⟩
          · simp [hleft, hright] at ht
          · obtain ⟨rfl, rfl⟩ : Derivation.node x left right = t ∧ s₃ = s' := by
              simpa [hleft, hright] using ht
            exact ⟨b, c, left, right, s₂, rfl, rfl, hleft, hright⟩

private theorem exists_grows (ht : grow choose g h n x s = (some t, s'))
    (hlimit : limit = depth + n) : ∃ asked, Grows choose g h limit depth x s t asked s' := by
  induction n generalizing depth x s t s' with
  | zero =>
    rw [grow] at ht
    obtain ⟨hfinish, rfl⟩ := Prod.mk.inj ht
    exact ⟨[], grows_of_finish hfinish (by omega)⟩
  | succ n ih =>
    obtain ⟨k, p, m, s₁, hchoose, hk, hcases⟩ := grow_cases ht
    have hdepth : depth < limit := by omega
    rcases hcases with ⟨a, rfl, rfl, rfl⟩ | ⟨b, c, left, right, s₂, rfl, rfl, hleft, hright⟩
    · exact ⟨_, .leaf (.chosen hdepth hchoose hk)⟩
    · obtain ⟨askedLeft, hleft⟩ : ∃ asked, Grows choose g h limit (depth + 1) b s₁ left asked s₂ :=
        ih hleft (by omega)
      obtain ⟨askedRight, hright⟩ :
          ∃ asked, Grows choose g h limit (depth + 1) c s₂ right asked s' := ih hright (by omega)
      exact ⟨_, .node (.chosen hdepth hchoose hk) hleft hright⟩

end Sampling

namespace Grammar

variable {g : Grammar} {x : Char} {n : Nat}

private theorem LeastHeight.exists_greatest (h : g.LeastHeight x n) :
    ∃ H, IsGreatest {m | ∃ y, g.LeastHeight y m} H := by
  have hbounded : BddAbove {m | ∃ y, g.LeastHeight y m} := by
    refine ⟨g.nonterminals.length, ?_⟩
    rintro m ⟨y, hy⟩
    exact hy.le_length
  exact ⟨_, Nat.sSup_mem ⟨n, x, h⟩ hbounded, fun m hm => le_csSup hbounded hm⟩

private theorem exists_sampleFrom_zero (h : g.LeastHeight x n) :
    ∃ w, ∀ {σ : Type} (choose : Chooser σ) (s : σ), g.sampleFrom choose 0 x s = .ok (w, s) := by
  have hx := lookup_heights.mpr h
  obtain ⟨t, ht, _⟩ := Sampling.exists_finish hx (Nat.le_refl n)
  refine ⟨t.word, ?_⟩
  intro σ choose s
  rw [sampleFrom, sampleTree, if_pos h.mem_nonterminals, hx]
  simp only [Sampling.grow, hx, Option.getD_some, ht]
  rfl

/-- Whatever is chosen, growth under a nonterminal that derives some word ends with a derivation.
At each node from the depth limit on, the derivation below it is as low as can be. So its height
exceeds the limit at most by the greatest of all least heights, which bounds its word; and choices
are asked for only above the limit, at most as many as a full tree of that height has nodes. With a
limit of zero no choice is asked for, and all sources give the same word. -/
theorem growth_is_bounded (hx : ∃ w, g.Generates x w) (limit : Nat) :
    (∃ H, IsGreatest {n | ∃ y, g.LeastHeight y n} H ∧
      ∀ {σ : Type} (choose : Chooser σ), choose.InRange → ∀ s : σ, ∃ t asked s',
        Sampling.Grows choose g g.heights limit 0 x s t asked s' ∧
        g.sampleTree choose limit x s = .ok (t, s') ∧
        g.sampleFrom choose limit x s = .ok (t.word, s') ∧
        t.Follows g ∧ t.root = x ∧
        (∀ k, limit ≤ k → ∀ u ∈ t.atDepth k, g.LeastHeight u.root u.height) ∧
        t.height ≤ limit + H ∧
        1 ≤ t.word.length ∧ t.word.length ≤ 2 ^ (limit + H - 1) ∧
        asked.length ≤ 2 ^ limit - 1 ∧ ∀ k ∈ asked, k < limit) ∧
    ∃ w, ∀ {σ : Type} (choose : Chooser σ) (s : σ), g.sampleFrom choose 0 x s = .ok (w, s) := by
  obtain ⟨n, hn⟩ := exists_lookup_heights_iff.mpr hx
  have hleast := lookup_heights.mp hn
  obtain ⟨H, hH⟩ := hleast.exists_greatest
  refine ⟨⟨H, hH, ?_⟩, exists_sampleFrom_zero hleast⟩
  intro σ choose hchoose s
  obtain ⟨t, s', ht, hfollows, hroot⟩ := Sampling.exists_grow hchoose hn limit s
  obtain ⟨asked, hgrows⟩ := Sampling.exists_grows ht (Nat.zero_add limit).symm
  have htree : g.sampleTree choose limit x s = .ok (t, s') := by
    rw [sampleTree, if_pos hleast.mem_nonterminals, hn]
    simp only [ht]
  have hheight : t.height ≤ limit + H := hgrows.height_le fun y m hm => hH.2 ⟨y, hm⟩
  have hword : t.word.length ≤ 2 ^ (limit + H - 1) :=
    Nat.le_trans t.length_word_le (Nat.pow_le_pow_right (by omega) (by omega))
  refine ⟨t, asked, s', hgrows, htree, ?_, hfollows, hroot, ?_, hheight,
    List.length_pos_iff.mpr t.word_ne_nil, hword, Nat.le_sub_one_of_lt hgrows.length_asked_lt,
    hgrows.asked_lt⟩
  · rw [sampleFrom, htree]
    rfl
  · intro k hk
    exact hgrows.leastHeight_atDepth (by omega)

/-- In `balanced` no least height exceeds three, so that two levels of choices make words of at most
sixteen characters out of at most three choices. -/
theorem balanced_growth_is_bounded :
    (∃ w, balanced.Generates 'S' w) ∧ Chooser.InRange Draws.choose ∧
      (∀ s, ∃ t asked s',
        Sampling.Grows Draws.choose balanced balanced.heights 2 0 'S' s t asked s' ∧
        balanced.sampleFrom Draws.choose 2 'S' s = .ok (t.word, s') ∧
        t.height ≤ 5 ∧ t.word.length ≤ 16 ∧ asked.length ≤ 3) ∧
      ∃ w, ∀ s, balanced.sampleFrom Draws.choose 0 'S' s = .ok (w, s) := by
  have hword : ∃ w, balanced.Generates 'S' w :=
    exists_lookup_heights_iff.mp ⟨2, by decide +kernel⟩
  obtain ⟨⟨H, hH, hgrowth⟩, w, hw⟩ := growth_is_bounded hword 2
  have hle : H ≤ 3 := by
    obtain ⟨y, hy⟩ := hH.1
    have hall : ∀ entry ∈ balanced.heights, entry.2 ≤ 3 := by decide +kernel
    obtain ⟨before, after, hsplit, -⟩ := List.lookup_eq_some_iff.mp (lookup_heights.mpr hy)
    exact hall (y, H) (by simp [hsplit])
  refine ⟨hword, Draws.choose_inRange, ?_, w, fun s => hw Draws.choose s⟩
  intro s
  obtain ⟨t, asked, s', hgrows, -, hsample, -, -, -, hheight, -, hlength, hasked, -⟩ :=
    hgrowth Draws.choose Draws.choose_inRange s
  have hpow : 2 ^ (2 + H - 1) ≤ 2 ^ 4 := Nat.pow_le_pow_right (by omega) (by omega)
  exact ⟨t, asked, s', hgrows, hsample, by omega, by omega, hasked⟩

end Grammar

end ChomskyNormal
