import ChomskyNormal.Proofs.Grammar.Counting
import ChomskyNormal.Proofs.Sampling

/-!
Draws that steer the growth of a word. Every derivation within the depth has its own list of draws,
one for each node from the left, and from these exactly that derivation grows. So no word of the
language is missed.
-/

set_option autoImplicit false
set_option relaxedAutoImplicit false

namespace ChomskyNormal

namespace Draws

/-- The least draw whose product with the number of alternatives has the high half sought. -/
def toward (n k : Nat) : UInt32 :=
  UInt32.ofNat ((k * UInt32.size + (n - 1)) / n)

private theorem toNat_toward_mul {n k : Nat} (hk : k < n) (hn : n ≤ UInt32.size) :
    k * UInt32.size ≤ (toward n k).toNat * n ∧ (toward n k).toNat * n < k * UInt32.size + n := by
  have hpos : 0 < n := Nat.zero_lt_of_lt hk
  have hle : (k * UInt32.size + (n - 1)) / n * n ≤ k * UInt32.size + (n - 1) :=
    Nat.div_mul_le_self _ _
  have hlt : k * UInt32.size + (n - 1) < (k * UInt32.size + (n - 1)) / n * n + n :=
    Nat.lt_div_mul_add hpos
  have hblock : k * UInt32.size + UInt32.size ≤ UInt32.size * n := by
    rw [← Nat.succ_mul, Nat.mul_comm UInt32.size]
    exact Nat.mul_le_mul_right _ hk
  have hsmall : (k * UInt32.size + (n - 1)) / n < UInt32.size := by
    rw [Nat.div_lt_iff_lt_mul hpos]
    omega
  have htoNat : (toward n k).toNat = (k * UInt32.size + (n - 1)) / n :=
    UInt32.toNat_ofNat_of_lt' hsmall
  rw [htoNat]
  omega

private theorem sub_one_le_zone (n : Nat) : n - 1 ≤ zone n := by
  rw [zone, Nat.shiftLeft_eq]
  exact Nat.sub_le_sub_right (Nat.le_mul_of_pos_right n (Nat.two_pow_pos _)) 1

/-- The low half is kept, so that the draw is not thrown away. -/
private theorem choose_toward {n k : Nat} (hk : k < n) (hn : n ≤ UInt32.size) (rest : List UInt32)
    (state : UInt64) (taken : Nat) :
    choose n ⟨toward n k :: rest, state, taken⟩ = (k, ⟨rest, state, taken + 1⟩) := by
  obtain ⟨hlo, hhi⟩ := toNat_toward_mul hk hn
  have hhigh : (toward n k).toNat * n / UInt32.size = k := by
    apply Nat.div_eq_of_lt_le hlo
    rw [Nat.succ_mul]
    omega
  have hlow : (toward n k).toNat * n % UInt32.size ≤ zone n := by
    have hzone := sub_one_le_zone n
    rw [Nat.mod_eq_sub_div_mul, hhigh]
    omega
  have htries : (toward n k :: rest).length + UInt64.size = (rest.length + UInt64.size) + 1 := by
    rw [List.length_cons]
    omega
  rw [choose, htries, chooseWithin]
  simp only [next, hlow, if_true, hhigh]

end Draws

namespace Sampling

def pick (ps : List (Production × Nat)) (p : Production) : UInt32 :=
  Draws.toward ps.length (ps.findIdx fun q => q.1 = p)

/-- The draws that steer the growth of a derivation: one for its root, then those for the left part
and those for the right one. -/
def drawsFor (g : Grammar) (h : Heights) : Derivation → List UInt32
  | .leaf x a => [pick (options g h x) (.terminal a)]
  | .node x left right =>
      pick (options g h x) (.binary left.root right.root) ::
        (drawsFor g h left ++ drawsFor g h right)

variable {g : Grammar} {x : Char} {depth : Nat}

private theorem choose_pick {ps : List (Production × Nat)} {p : Production} {m : Nat}
    (hp : (p, m) ∈ ps)
    (hlength : ps.length ≤ UInt32.size) (rest : List UInt32) (state : UInt64) (taken : Nat) :
    ∃ k m', Draws.choose ps.length ⟨pick ps p :: rest, state, taken⟩ =
      (k, ⟨rest, state, taken + 1⟩) ∧ ps[k]? = some (p, m') := by
  have hlt : ps.findIdx (fun q => q.1 = p) < ps.length :=
    List.findIdx_lt_length_of_exists ⟨(p, m), hp, by simp⟩
  have hfound : (ps[ps.findIdx fun q => q.1 = p]).1 = p := by
    simpa using List.findIdx_getElem (w := hlt)
  refine ⟨_, (ps[ps.findIdx fun q => q.1 = p]).2,
    Draws.choose_toward hlt hlength rest state taken, ?_⟩
  rw [List.getElem?_eq_getElem hlt]
  exact congrArg some (Prod.ext hfound rfl)

private theorem length_options_le (hg : g.WellFormed) (h : Heights) (x : Char) :
    (options g h x).length ≤ UInt32.size := by
  have hproductions := hg.length_productions_lt x
  have hfilter : (options g h x).length ≤ (g.productions x).length :=
    List.length_filterMap_le _ _
  omega

section Grow

variable {σ : Type} {choose : Chooser σ} {h : Heights} {k m : Nat} {s s₁ s₂ s₃ : σ}

private theorem grow_leaf {a : Char} (hchoose : choose (options g h x).length s = (k, s₁))
    (hk : (options g h x)[k]? = some (.terminal a, m)) :
    grow choose g h (depth + 1) x s = (some (.leaf x a), s₁) := by
  rw [grow]
  cases hoptions : options g h x with
  | nil =>
    rw [hoptions] at hk
    cases hk
  | cons o os =>
    rw [hoptions, List.length_cons] at hchoose
    rw [hoptions] at hk
    simp only [hchoose, hk]

private theorem grow_node {b c : Char} {left right : Derivation}
    (hchoose : choose (options g h x).length s = (k, s₁))
    (hk : (options g h x)[k]? = some (.binary b c, m))
    (hleft : grow choose g h depth b s₁ = (some left, s₂))
    (hright : grow choose g h depth c s₂ = (some right, s₃)) :
    grow choose g h (depth + 1) x s = (some (.node x left right), s₃) := by
  rw [grow]
  cases hoptions : options g h x with
  | nil =>
    rw [hoptions] at hk
    cases hk
  | cons o os =>
    rw [hoptions, List.length_cons] at hchoose
    rw [hoptions] at hk
    simp only [hchoose, hk, hleft, hright]

end Grow

private theorem option_of_leaf {a : Char} (ht : (Derivation.leaf x a).Follows g) :
    (.terminal a, 1) ∈ options g g.heights x :=
  mem_options.mpr ⟨ht, rfl⟩

private theorem exists_option_of_node {left right : Derivation}
    (ht : (Derivation.node x left right).Follows g) :
    ∃ m, (.binary left.root right.root, m) ∈ options g g.heights x := by
  obtain ⟨hp, hleft, hright⟩ := ht
  obtain ⟨m, _, hm⟩ := Grammar.exists_leastHeight hleft
  obtain ⟨k, _, hk⟩ := Grammar.exists_leastHeight hright
  have hheight := Heights.ofProduction_binary_eq_some.mpr
    ⟨m, k, Grammar.lookup_heights.mpr hm, Grammar.lookup_heights.mpr hk, rfl⟩
  exact ⟨1 + max m k, mem_options.mpr ⟨hp, hheight⟩⟩

/-- From the draws of a derivation within the depth that derivation grows, and no other draw is
taken. -/
private theorem grow_drawsFor (hg : g.WellFormed) {t : Derivation} (ht : t.Follows g)
    (hdepth : t.height ≤ depth) (rest : List UInt32) (state : UInt64) (taken : Nat) :
    grow Draws.choose g g.heights depth t.root ⟨drawsFor g g.heights t ++ rest, state, taken⟩ =
      (some t, ⟨rest, state, taken + (drawsFor g g.heights t).length⟩) := by
  induction t generalizing depth rest taken with
  | leaf x a =>
    obtain ⟨depth, rfl⟩ := Nat.exists_eq_add_of_le' hdepth
    obtain ⟨k, m, hchoose, hk⟩ :=
      choose_pick (option_of_leaf ht) (length_options_le hg _ x) rest state taken
    exact grow_leaf hchoose hk
  | node x left right ihl ihr =>
    obtain ⟨n, hoption⟩ := exists_option_of_node ht
    obtain ⟨-, hleft, hright⟩ := ht
    rw [Derivation.height] at hdepth
    obtain ⟨depth, rfl⟩ : ∃ d, depth = d + 1 := ⟨depth - 1, by omega⟩
    -- the first draw picks the production, the next ones grow the left part, the others the right
    obtain ⟨k, m, hchoose, hk⟩ := choose_pick hoption (length_options_le hg _ x)
      (drawsFor g g.heights left ++ (drawsFor g g.heights right ++ rest)) state taken
    have hl := @ihl depth hleft (by omega) (drawsFor g g.heights right ++ rest) (taken + 1)
    have hr := @ihr depth hright (by omega) rest
      (taken + 1 + (drawsFor g g.heights left).length)
    have hcount : taken + 1 + (drawsFor g g.heights left).length +
        (drawsFor g g.heights right).length =
        taken + (drawsFor g g.heights (.node x left right)).length := by
      simp only [drawsFor, List.length_cons, List.length_append]
      omega
    rw [← hcount, drawsFor, List.cons_append, List.append_assoc]
    exact grow_node hchoose hk hl hr

end Sampling

private theorem Derivation.height_le_length (t : Derivation) : t.height ≤ t.word.length := by
  induction t with
  | leaf x a => exact Nat.le_refl 1
  | node x left right ihl ihr =>
    have hl := List.length_pos_iff.mpr left.word_ne_nil
    have hr := List.length_pos_iff.mpr right.word_ne_nil
    rw [height, word, List.length_append]
    omega

namespace Grammar

variable {g : Grammar} {depth : Nat}

private theorem sampleFrom_drawsFor (hg : g.WellFormed) {t : Derivation} (ht : t.Follows g)
    (hdepth : t.height ≤ depth) (seed : UInt64) :
    g.sampleFrom Draws.choose depth t.root (.start (Sampling.drawsFor g g.heights t) seed) =
      .ok (t.word, ⟨[], seed, (Sampling.drawsFor g g.heights t).length⟩) := by
  obtain ⟨n, _, hleast⟩ := exists_leastHeight ht
  have hgrow := Sampling.grow_drawsFor hg ht hdepth [] seed 0
  rw [List.append_nil, Nat.zero_add] at hgrow
  rw [sampleFrom, sampleTree, if_pos ht.root_mem, lookup_heights.mpr hleast]
  simp only [Draws.start, hgrow]
  rfl

/-- Every word that a nonterminal derives by a derivation within the depth is grown from some
draws, all of which are used up; and every word of the language is grown from some draws if the
depth is at least the length of the word. -/
theorem sampleIn_misses_no_word (hg : g.Reachable) (file : Text) (depth : Nat) :
    (∀ x ∈ g.nonterminals, ∀ w,
      (∃ t : Derivation, t.Follows g ∧ t.root = x ∧ t.word = w ∧ t.height ≤ depth) →
      ∃ draws : List UInt32, ∀ seed,
        g.sampleIn Draws.choose file (some x) depth (.start draws seed) =
          .ok (w, ⟨[], seed, draws.length⟩)) ∧
    ∀ w, g.derives w = .ok true → w.length ≤ depth →
      ∃ draws : List UInt32, ∀ seed,
        g.sampleIn Draws.choose file none depth (.start draws seed) =
          .ok (w, ⟨[], seed, draws.length⟩) := by
  have hwf := hg.wellFormed
  constructor
  · intro x _ w h
    obtain ⟨t, ht, rfl, rfl, hdepth⟩ := h
    refine ⟨Sampling.drawsFor g g.heights t, ?_⟩
    intro seed
    rw [sampleIn_eq_ok, sample_some]
    exact sampleFrom_drawsFor hwf ht hdepth seed
  · intro w hw hlength
    obtain ⟨x, hstart, hgen⟩ := (derives_eq_true_iff hwf).mp hw
    obtain ⟨t, ht, rfl, rfl⟩ := generates_iff_exists_tree.mp hgen
    refine ⟨Sampling.drawsFor g g.heights t, ?_⟩
    intro seed
    rw [sampleIn_eq_ok, sample_none_of_start hstart]
    exact sampleFrom_drawsFor hwf ht (Nat.le_trans t.height_le_length hlength) seed

/-- From `balanced` the word `aabb` grows at a depth of its length, and `abb` from `T` at the depth
of its only derivation. -/
theorem balanced_misses_no_word :
    balanced.Reachable ∧ balanced.derives "aabb".toList = .ok true ∧
      (∃ draws : List UInt32, ∀ seed,
        balanced.sampleIn Draws.choose "g".toList none 4 (.start draws seed) =
          .ok ("aabb".toList, ⟨[], seed, draws.length⟩)) ∧
      ∃ draws : List UInt32, ∀ seed,
        balanced.sampleIn Draws.choose "g".toList (some 'T') 3 (.start draws seed) =
          .ok ("abb".toList, ⟨[], seed, draws.length⟩) := by
  have hderives : balanced.derives "aabb".toList = .ok true := by decide +kernel
  have hfollows : (Derivation.node 'T' (.node 'S' (.leaf 'A' 'a') (.leaf 'B' 'b'))
      (.leaf 'B' 'b')).Follows balanced := by
    simp only [Derivation.Follows, Derivation.root]
    decide +kernel
  refine ⟨balanced_reachable, hderives, ?_, ?_⟩
  · exact (sampleIn_misses_no_word balanced_reachable _ 4).2 _ hderives (by decide)
  · exact (sampleIn_misses_no_word balanced_reachable _ 3).1 'T' (by decide +kernel) _
      ⟨_, hfollows, rfl, rfl, by decide⟩

end Grammar

end ChomskyNormal
