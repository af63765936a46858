import ChomskyNormal.Proofs.Joining
import ChomskyNormal.Proofs.RuleFile.Scanning
import ChomskyNormal.RuleFile.Rule

/-!
Rules and the lines that spell them. A rule has one row of tokens, and a line is read as the rule
exactly when it spells these tokens in the right case, whatever blanks stand around them.
-/

set_option autoImplicit false
set_option relaxedAutoImplicit false

namespace ChomskyNormal

namespace Production

def tokens (p : Production) : List Token :=
  p.symbols.map Token.letter

private theorem tokens_ne_nil (p : Production) : p.tokens ≠ [] := by
  simp [tokens, p.symbols_ne_nil]

theorem bar_notMem_tokens (p : Production) : Token.bar ∉ p.tokens := by
  simp [tokens]

end Production

namespace Rule

def tokensOf (ps : List Production) : List Token :=
  [Token.bar].intercalate (ps.map Production.tokens)

def tokens (r : Rule) : List Token :=
  .letter (.nonterminal r.head) :: .define :: tokensOf r.alternatives

def Cased (r : Rule) : Prop :=
  Symbol.isUpper r.head ∧ ∀ p ∈ r.alternatives, ∀ s ∈ p.symbols, s.HasCase

/-- A line spells a rule when it consists of the rule's tokens, blanks aside, in the right case. -/
def SpelledBy (r : Rule) (line : Text) : Prop :=
  r.Cased ∧ Spaced (r.tokens.map Token.text) line

variable {r : Rule} {ts : List Token} {ss : List Symbol} {p : Production} {ps : List Production}

theorem symbols_eq_ok : symbols ts = .ok ss ↔ ts = ss.map Token.letter := by
  induction ts generalizing ss with
  | nil =>
    rw [symbols, Except.ok.injEq, eq_comm, eq_comm (b := ss.map _), List.map_eq_nil_iff]
  | cons k ts ih =>
    cases k with
    | define => cases ss <;> simp [symbols]
    | bar => cases ss <;> simp [symbols]
    | letter s =>
      rw [symbols]
      constructor
      · intro h
        obtain ⟨rest, hrest, rfl⟩ := map_eq_ok_iff.mp h
        rw [ih.mp hrest, List.map_cons]
      · intro h
        obtain ⟨s', rest, rfl, hs, hrest⟩ := List.map_eq_cons_iff.mp h.symm
        cases hs
        rw [ih.mpr hrest.symm]
        rfl

private theorem ofSymbols_eq_ok : ofSymbols ss = .ok p ↔ ss = p.symbols := by
  rw [← Production.ofSymbols?_eq_some_iff, ofSymbols]
  cases Production.ofSymbols? ss <;> simp

theorem alternative_eq_ok : alternative ts = .ok p ↔ ts = p.tokens := by
  simp only [alternative, bind_eq_ok_iff, symbols_eq_ok, ofSymbols_eq_ok]
  constructor
  · intro h
    obtain ⟨ss, hts, rfl⟩ := h
    exact hts
  · intro h
    exact ⟨p.symbols, h, rfl⟩

private theorem mapM_alternative_eq_ok {pieces : List (List Token)} :
    pieces.mapM alternative = .ok ps ↔ pieces = ps.map Production.tokens := by
  induction pieces generalizing ps with
  | nil =>
    rw [List.mapM_nil, eq_comm (b := ps.map _), List.map_eq_nil_iff]
    exact ⟨fun h => (Except.ok.inj h).symm, fun h => congrArg Except.ok h.symm⟩
  | cons piece pieces ih =>
    rw [List.mapM_cons]
    constructor
    · intro h
      obtain ⟨p, hp, h⟩ := bind_eq_ok_iff.mp h
      obtain ⟨rest, hrest, h⟩ := bind_eq_ok_iff.mp h
      cases h
      rw [List.map_cons, ← alternative_eq_ok.mp hp, ← ih.mp hrest]
    · intro h
      obtain ⟨p, rest, rfl, hp, hrest⟩ := List.map_eq_cons_iff.mp h.symm
      rw [alternative_eq_ok.mpr hp.symm, ih.mpr hrest.symm]
      rfl

private theorem tokensOf_eq_nil_iff : tokensOf ps = [] ↔ ps = [] := by
  cases ps with
  | nil => simp [tokensOf]
  | cons p ps => cases ps <;> simp [tokensOf, p.tokens_ne_nil]

private theorem alternativesOf_eq_ok : alternativesOf ts = .ok ps ↔ ts = tokensOf ps := by
  unfold alternativesOf
  split
  · rename_i h
    subst h
    rw [Except.ok.injEq, eq_comm, eq_comm (b := tokensOf ps), tokensOf_eq_nil_iff]
  · rename_i h
    rw [mapM_alternative_eq_ok]
    constructor
    · intro hsplit
      rw [tokensOf, ← hsplit, List.intercalate_splitOn]
    · rintro rfl
      have hps : ps ≠ [] := fun hps => h (tokensOf_eq_nil_iff.mpr hps)
      apply List.splitOn_intercalate
      · intro piece hpiece
        obtain ⟨p, -, rfl⟩ := List.mem_map.mp hpiece
        exact p.bar_notMem_tokens
      · simpa using hps

private theorem ofTokens_eq_ok : ofTokens ts = .ok r ↔ ts = r.tokens := by
  constructor
  · intro h
    unfold ofTokens at h
    split at h
    · cases h
    · obtain ⟨ps, hps, rfl⟩ := map_eq_ok_iff.mp h
      rw [tokens, alternativesOf_eq_ok.mp hps]
    · cases h
    · cases h
  · rintro rfl
    rw [tokens, ofTokens, alternativesOf_eq_ok.mpr rfl]
    rfl

private theorem signsApart_of_define_notMem (h : Token.define ∉ ts) : Token.SignsApart ts := by
  induction ts with
  | nil => exact List.isChain_nil
  | cons k ts ih =>
    have hk : k ≠ .define := fun hk => h (hk ▸ List.mem_cons_self)
    have hts := ih fun hmem => h (List.mem_cons_of_mem k hmem)
    cases ts with
    | nil => exact List.isChain_singleton k
    | cons l ts => exact List.isChain_cons_cons.mpr ⟨fun hd => absurd hd hk, hts⟩

private theorem mem_tokensOf {k : Token} (h : k ∈ tokensOf ps) :
    k = .bar ∨ ∃ p ∈ ps, ∃ s ∈ p.symbols, k = .letter s := by
  rcases Joining.mem_of_mem_intercalate h with h | ⟨l, hl, hk⟩
  · exact .inl (List.mem_singleton.mp h)
  · obtain ⟨p, hp, rfl⟩ := List.mem_map.mp hl
    obtain ⟨s, hs, rfl⟩ := List.mem_map.mp hk
    exact .inr ⟨p, hp, s, hs, rfl⟩

private theorem letter_mem_tokensOf {s : Symbol} (hp : p ∈ ps) (hs : s ∈ p.symbols) :
    .letter s ∈ tokensOf ps :=
  Joining.mem_intercalate (List.mem_map_of_mem hp) (List.mem_map_of_mem hs)

private theorem signsApart_tokens (r : Rule) : Token.SignsApart r.tokens := by
  have hnot : Token.define ∉ tokensOf r.alternatives := by
    intro h
    rcases mem_tokensOf h with h | ⟨p, -, s, -, h⟩ <;> cases h
  refine List.isChain_cons_cons.mpr ⟨by simp, ?_⟩
  cases hrest : tokensOf r.alternatives with
  | nil => exact List.isChain_singleton _
  | cons k ts =>
    rw [hrest] at hnot
    refine List.isChain_cons_cons.mpr ⟨?_, signsApart_of_define_notMem hnot⟩
    rintro - rfl
    exact hnot List.mem_cons_self

private theorem cased_tokens_iff : Token.Cased r.tokens ↔ r.Cased := by
  constructor
  · intro h
    refine ⟨h (.nonterminal r.head) List.mem_cons_self, ?_⟩
    intro p hp s hs
    exact h s (List.mem_cons_of_mem _ (List.mem_cons_of_mem _ (letter_mem_tokensOf hp hs)))
  · rintro ⟨hhead, halts⟩ s hs
    simp only [tokens, List.mem_cons, Token.letter.injEq, reduceCtorEq, false_or] at hs
    rcases hs with rfl | hs
    · exact hhead
    · rcases mem_tokensOf hs with h | ⟨p, hp, s', hs', h⟩
      · cases h
      · cases h
        exact halts p hp s hs'

/-- A line is read as a rule exactly when it spells the rule. -/
theorem ofLine_eq_ok {line : Text} : ofLine line = .ok r ↔ r.SpelledBy line := by
  rw [ofLine, bind_eq_ok_iff]
  constructor
  · intro h
    obtain ⟨ts, hts, h⟩ := h
    obtain rfl := ofTokens_eq_ok.mp h
    obtain ⟨hspaced, hcased⟩ := Token.spaced_of_scan hts
    exact ⟨cased_tokens_iff.mp hcased, hspaced⟩
  · intro h
    obtain ⟨hcased, hspaced⟩ := h
    have hscan : Token.scan line = .ok r.tokens :=
      Token.scan_of_spaced hspaced r.tokens rfl (cased_tokens_iff.mpr hcased) (signsApart_tokens r)
    exact ⟨r.tokens, hscan, ofTokens_eq_ok.mpr rfl⟩

end Rule

end ChomskyNormal
