import ChomskyNormal.Proofs.RuleFile.Offences
import ChomskyNormal.Proofs.RuleFile.Reading

/-!
Faults of single lines. A line that holds a rule but spells none has exactly one fault: that of its
leftmost offence; or else, of its tokens, a missing head, a missing sign of definition, or the fault
of the first alternative that is none.
-/

set_option autoImplicit false
set_option relaxedAutoImplicit false

namespace ChomskyNormal

namespace Rule

/-- What is wrong with the tokens of an alternative: there is a sign of definition among them, or
they are symbols that make up no right-hand side. -/
inductive BadAlternative : List Token → Fault → Prop where
  | sign {ts : List Token} (hbar : Token.bar ∉ ts) (hsign : Token.define ∈ ts) :
      BadAlternative ts .extraSign
  | shape {ss : List Symbol} (hshape : ∀ p : Production, ss ≠ p.symbols) :
      BadAlternative (ss.map .letter) (.refused (.notNormal (ss.map Symbol.char)))

/-- What is wrong with tokens that make up no rule: they begin with no nonterminal, or it is not
followed by a sign of definition, or of the alternatives behind the sign the first one that is none
has a fault. -/
inductive Blames : List Token → Fault → Prop where
  | head {k : Token} {ts : List Token} (hk : ∀ x, k ≠ .letter (.nonterminal x)) :
      Blames (k :: ts) .badHead
  | sign {x : Char} {ts : List Token} (hsign : ts.head? ≠ some .define) :
      Blames (.letter (.nonterminal x) :: ts) .missingSign
  | alternative {x : Char} {good : List Production} {bad ts : List Token}
      {more : List (List Token)} {e : Fault}
      (hts : ts = [Token.bar].intercalate (good.map Production.tokens ++ bad :: more))
      (hne : ts ≠ []) (hmore : ∀ piece ∈ more, Token.bar ∉ piece) (hbad : BadAlternative bad e) :
      Blames (.letter (.nonterminal x) :: .define :: ts) e

/-- What is wrong with a line that spells no rule: its leftmost offence, or if it has none, what is
wrong with its tokens. -/
inductive LineFault (line : Text) : Fault → Prop where
  | scanning {e : Fault} (h : Token.FirstOffence line e) : LineFault line e
  | parsing {ts : List Token} {e : Fault} (hclean : ∀ e', ¬ Token.FirstOffence line e')
      (hcased : Token.Cased ts) (hspaced : Spaced (ts.map Token.text) line) (h : Blames ts e) :
      LineFault line e

variable {ts : List Token} {ss : List Symbol} {e : Fault} {line : Text}

private theorem symbols_eq_error_iff (hbar : Token.bar ∉ ts) :
    symbols ts = .error e ↔ Token.define ∈ ts ∧ e = .extraSign := by
  induction ts with
  | nil => simp [symbols]
  | cons k ts ih =>
    have hrest : Token.bar ∉ ts := fun h => hbar (List.mem_cons_of_mem k h)
    cases k with
    | define => simp [symbols, eq_comm]
    | bar => exact absurd List.mem_cons_self hbar
    | letter s => rw [symbols, map_eq_error_iff, ih hrest]; simp

private theorem ofSymbols_eq_error_iff :
    ofSymbols ss = .error e ↔
      (∀ p : Production, ss ≠ p.symbols) ∧ e = .refused (.notNormal (ss.map Symbol.char)) := by
  simp only [ne_eq, ← Production.ofSymbols?_eq_some_iff, ofSymbols]
  cases Production.ofSymbols? ss <;> simp [eq_comm]

private theorem alternative_eq_error_iff (hbar : Token.bar ∉ ts) :
    alternative ts = .error e ↔ BadAlternative ts e := by
  simp only [alternative, bind_eq_error_iff, symbols_eq_error_iff hbar, symbols_eq_ok,
    ofSymbols_eq_error_iff]
  constructor
  · intro h
    rcases h with ⟨hsign, rfl⟩ | ⟨ss, rfl, hshape, rfl⟩
    · exact .sign hbar hsign
    · exact .shape hshape
  · intro h
    cases h with
    | sign _ hsign => exact .inl ⟨hsign, rfl⟩
    | shape hshape => exact .inr ⟨_, rfl, hshape, rfl⟩

private theorem BadAlternative.bar_notMem (h : BadAlternative ts e) : Token.bar ∉ ts := by
  cases h with
  | sign hbar _ => exact hbar
  | shape _ => simp

private theorem mapM_alternative_eq_error_iff {pieces : List (List Token)} :
    pieces.mapM alternative = .error e ↔
      ∃ (good : List Production) (bad : List Token) (more : List (List Token)),
        pieces = good.map Production.tokens ++ bad :: more ∧ alternative bad = .error e := by
  induction pieces with
  | nil =>
    rw [List.mapM_nil]
    constructor
    · intro h
      cases h
    · intro h
      obtain ⟨good, bad, more, heq, -⟩ := h
      simp at heq
  | cons piece pieces ih =>
    rw [List.mapM_cons]
    constructor
    · intro h
      rcases bind_eq_error_iff.mp h with h | ⟨p, hp, h⟩
      · exact ⟨[], piece, pieces, rfl, h⟩
      · rcases bind_eq_error_iff.mp h with h | ⟨ps, -, h⟩
        · obtain ⟨good, bad, more, rfl, hbad⟩ := ih.mp h
          obtain rfl := alternative_eq_ok.mp hp
          exact ⟨p :: good, bad, more, rfl, hbad⟩
        · cases h
    · intro h
      obtain ⟨good, bad, more, heq, hbad⟩ := h
      cases good with
      | nil =>
        obtain ⟨rfl, rfl⟩ := List.cons.inj heq
        exact bind_eq_error_iff.mpr (.inl hbad)
      | cons p good =>
        obtain ⟨rfl, rfl⟩ := List.cons.inj heq
        have hrest := ih.mpr ⟨good, bad, more, rfl, hbad⟩
        exact bind_eq_error_iff.mpr
          (.inr ⟨p, alternative_eq_ok.mpr rfl, bind_eq_error_iff.mpr (.inl hrest)⟩)

private theorem alternativesOf_eq_error_iff :
    alternativesOf ts = .error e ↔
      ∃ (good : List Production) (bad : List Token) (more : List (List Token)),
        ts = [Token.bar].intercalate (good.map Production.tokens ++ bad :: more) ∧ ts ≠ [] ∧
          (∀ piece ∈ more, Token.bar ∉ piece) ∧ BadAlternative bad e := by
  unfold alternativesOf
  split
  · rename_i hnil
    simp [hnil]
  · rename_i hne
    rw [mapM_alternative_eq_error_iff]
    constructor
    · intro h
      obtain ⟨good, bad, more, hsplit, hbad⟩ := h
      have hpieces : ∀ piece ∈ good.map Production.tokens ++ bad :: more, Token.bar ∉ piece := by
        intro piece hpiece
        exact Joining.notMem_of_mem_splitOn (hsplit ▸ hpiece)
      have hbar : Token.bar ∉ bad := hpieces bad (by simp)
      refine ⟨good, bad, more, ?_, hne, ?_, (alternative_eq_error_iff hbar).mp hbad⟩
      · rw [← hsplit, List.intercalate_splitOn]
      · intro piece hpiece
        exact hpieces piece (by simp [hpiece])
    · intro h
      obtain ⟨good, bad, more, hts, -, hmore, hbad⟩ := h
      refine ⟨good, bad, more, ?_, (alternative_eq_error_iff hbad.bar_notMem).mpr hbad⟩
      rw [hts]
      apply List.splitOn_intercalate
      · intro piece hpiece
        rcases List.mem_append.mp hpiece with hpiece | hpiece
        · obtain ⟨p, -, rfl⟩ := List.mem_map.mp hpiece
          exact p.bar_notMem_tokens
        · rcases List.mem_cons.mp hpiece with rfl | hpiece
          · exact hbad.bar_notMem
          · exact hmore piece hpiece
      · simp

private theorem ofTokens_eq_error_iff (hne : ts ≠ []) : ofTokens ts = .error e ↔ Blames ts e := by
  constructor
  · intro h
    unfold ofTokens at h
    split at h
    · exact absurd rfl hne
    · rw [map_eq_error_iff, alternativesOf_eq_error_iff] at h
      obtain ⟨good, bad, more, hts, hbehind, hmore, hbad⟩ := h
      exact .alternative hts hbehind hmore hbad
    · rename_i hsign
      cases h
      refine .sign ?_
      intro hhead
      obtain ⟨us, rfl⟩ := List.head?_eq_some_iff.mp hhead
      exact hsign us rfl
    · rename_i k us _ hletter
      cases h
      refine .head ?_
      rintro x rfl
      exact hletter x rfl
  · intro h
    cases h with
    | @head k us hk =>
      cases k with
      | define => rfl
      | bar => rfl
      | letter s =>
        cases s with
        | terminal a => rfl
        | nonterminal x => exact absurd rfl (hk x)
    | @sign x us hsign =>
      cases us with
      | nil => rfl
      | cons k us =>
        cases k with
        | define => exact absurd rfl hsign
        | bar => rfl
        | letter s => rfl
    | alternative hts hbehind hmore hbad =>
      exact map_eq_error_iff.mpr
        (alternativesOf_eq_error_iff.mpr ⟨_, _, _, hts, hbehind, hmore, hbad⟩)

end Rule

namespace Token

variable {t : Text}

private theorem eq_of_spaced_of_scan {parts : List Text} (h : Spaced parts t) :
    ∀ ts us, ts.map text = parts → Cased ts → scan t = .ok us → ts = us := by
  induction h with
  | nil =>
    intro ts us hts _ hscan
    obtain rfl := List.map_eq_nil_iff.mp hts
    cases hscan
    rfl
  | blank hc _ ih =>
    intro ts us hts hcased hscan
    rw [scan_blank hc] at hscan
    exact ih ts us hts hcased hscan
  | part p _ ih =>
    intro ts us hts hcased hscan
    obtain ⟨k, vs, rfl, rfl, hvs⟩ := List.map_eq_cons_iff.mp hts
    obtain ⟨-, us, hus, rfl⟩ := (scan_text_eq_ok hcased).mp hscan
    rw [ih vs us hvs hcased.tail hus]

end Token

private theorem Spaced.isBlank_of_mem {t : Text} (h : Spaced [] t) : ∀ c ∈ t, Text.isBlank c := by
  generalize hparts : ([] : List Text) = parts at h
  induction h with
  | nil => simp
  | blank hc _ ih =>
    intro c hmem
    rcases List.mem_cons.mp hmem with rfl | hmem
    · exact hc
    · exact ih hparts c hmem
  | part p _ _ => cases hparts

/-- A line that holds a rule is read as no rule exactly when it has a fault, with that fault. -/
theorem Rule.ofLine_eq_error_iff {line : Text} {e : Fault} (h : RuleFile.HoldsRule line) :
    ofLine line = .error e ↔ LineFault line e := by
  have hne {ts : List Token} (hspaced : Spaced (ts.map Token.text) line) : ts ≠ [] := by
    rintro rfl
    obtain ⟨blanks, c, rest, rfl, _, hc, _⟩ := h
    exact hc (hspaced.isBlank_of_mem c (by simp))
  rw [ofLine, bind_eq_error_iff, Token.scan_eq_error_iff]
  constructor
  · rintro (hfirst | ⟨ts, hscan, hts⟩)
    · exact .scanning hfirst
    · obtain ⟨hspaced, hcased⟩ := Token.spaced_of_scan hscan
      refine .parsing ?_ hcased hspaced ((ofTokens_eq_error_iff (hne hspaced)).mp hts)
      intro e' hfirst
      cases (Token.scan_eq_error_iff.mpr hfirst).symm.trans hscan
  · intro hfault
    cases hfault with
    | scanning hfirst => exact .inl hfirst
    | parsing hclean hcased hspaced hblames =>
      right
      cases hscan : Token.scan line with
      | error e' => exact absurd (Token.scan_eq_error_iff.mp hscan) (hclean e')
      | ok us =>
        obtain rfl := Token.eq_of_spaced_of_scan hspaced _ us rfl hcased hscan
        exact ⟨_, rfl, (ofTokens_eq_error_iff (hne hspaced)).mpr hblames⟩

end ChomskyNormal
