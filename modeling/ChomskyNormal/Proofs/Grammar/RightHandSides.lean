import ChomskyNormal.Proofs.Grammar.History
import ChomskyNormal.Proofs.RuleFile.RoundTrip

/-!
Right-hand sides that a grammar admits. A text is added to a nonterminal exactly when it is in normal
form and each of its characters is declared as what its case makes it; of several faults the one that
is looked for first is told. Only the productions of the nonterminal change, and only by one more.
-/

set_option autoImplicit false
set_option relaxedAutoImplicit false

namespace ChomskyNormal

/-- A text in normal form is one lower-case character, or two upper-case ones. -/
def Text.IsNormal (t : Text) : Prop :=
  (∃ a, t = [a] ∧ Symbol.isLower a) ∨ ∃ b c, t = [b, c] ∧ Symbol.isUpper b ∧ Symbol.isUpper c

namespace Production

variable {p : Production} {t : Text}

private theorem text_injective : Function.Injective text := by
  intro p q h
  cases p <;> cases q <;> simp_all [text, symbols, Symbol.char]

private theorem ofText?_eq_some_iff :
    ofText? t = some p ↔ t = p.text ∧ ∀ s ∈ p.symbols, s.HasCase := by
  constructor
  · intro h
    obtain rfl := eq_text_of_ofText? h
    refine ⟨rfl, ?_⟩
    obtain ⟨ss, hss, hp⟩ := Option.bind_eq_some_iff.mp h
    obtain rfl := ofSymbols?_eq_some_iff.mp hp
    cases p with
    | terminal a =>
      have ha : Symbol.ofChar? a = some (.terminal a) := by
        simpa [text, symbols, Symbol.char, Option.bind_eq_some_iff] using hss
      simpa [symbols] using (Symbol.ofChar?_eq_some_iff.mp ha).1
    | binary b c =>
      have hbc : Symbol.ofChar? b = some (.nonterminal b) ∧
          Symbol.ofChar? c = some (.nonterminal c) := by
        simpa [text, symbols, Symbol.char, Option.bind_eq_some_iff] using hss
      simpa [symbols] using
        ⟨(Symbol.ofChar?_eq_some_iff.mp hbc.1).1, (Symbol.ofChar?_eq_some_iff.mp hbc.2).1⟩
  · intro h
    obtain ⟨rfl, hcase⟩ := h
    exact ofText?_text hcase

private theorem exists_ofText?_iff : (∃ p, ofText? t = some p) ↔ t.IsNormal := by
  simp only [ofText?_eq_some_iff]
  constructor
  · intro h
    obtain ⟨p, rfl, hcase⟩ := h
    cases p with
    | terminal a => exact .inl ⟨a, rfl, hcase _ List.mem_cons_self⟩
    | binary b c =>
      have hc : Symbol.nonterminal c ∈ (binary b c).symbols := by simp [symbols]
      exact .inr ⟨b, c, rfl, hcase _ List.mem_cons_self, hcase _ hc⟩
  · intro h
    rcases h with ⟨a, rfl, ha⟩ | ⟨b, c, rfl, hb, hc⟩
    · exact ⟨terminal a, rfl, by simpa [symbols, Symbol.HasCase] using ha⟩
    · exact ⟨binary b c, rfl, by simpa [symbols, Symbol.HasCase] using ⟨hb, hc⟩⟩

end Production

namespace Grammar

/-- A character is known when it is declared as what its case makes it. -/
def Knows (g : Grammar) (c : Char) : Prop :=
  (Symbol.isUpper c ∧ c ∈ g.nonterminals) ∨ (Symbol.isLower c ∧ c ∈ g.terminals)

/-- Why a grammar does not admit a text as right-hand side of a nonterminal: the nonterminal is not
declared, or else the text is not in normal form, or else its leftmost unknown character. -/
inductive Objection (g : Grammar) (x : Char) (rhs : Text) : Refusal → Prop where
  | head (hx : x ∉ g.nonterminals) : Objection g x rhs (.undeclared x)
  | form (hx : x ∈ g.nonterminals) (hrhs : ¬ rhs.IsNormal) : Objection g x rhs (.notNormal rhs)
  | symbol (hx : x ∈ g.nonterminals) (hnormal : rhs.IsNormal) (before after : Text) (c : Char)
      (hrhs : rhs = before ++ c :: after) (hbefore : ∀ d ∈ before, g.Knows d) (hc : ¬ g.Knows c) :
      Objection g x rhs (.undeclared c)

/-- A grammar that gains a production has it as the last one of its nonterminal, unless the
nonterminal had it before, and keeps everything else. -/
structure Gains (g : Grammar) (x : Char) (p : Production) (g' : Grammar) : Prop where
  nonterminals : g'.nonterminals = g.nonterminals
  terminals : g'.terminals = g.terminals
  start : g'.start = g.start
  others : ∀ y, y ≠ x → g'.productions y = g.productions y
  productions : g'.productions x =
    if p ∈ g.productions x then g.productions x else g.productions x ++ [p]

variable {g g' : Grammar} {x : Char} {p : Production} {rhs : Text} {r : Refusal}

private theorem knows_char_iff {s : Symbol} (hs : s.HasCase) : g.Knows s.char ↔ g.Declares s := by
  cases s with
  | terminal a =>
    have ha : Symbol.isLower a = true := hs
    have hupper : Symbol.isUpper a ≠ true := fun hu =>
      Bool.false_ne_true ((Symbol.isLower_eq_false hu).symm.trans ha)
    simp [Knows, Declares, Symbol.char, ha, hupper]
  | nonterminal y =>
    have hy : Symbol.isUpper y = true := hs
    simp [Knows, Declares, Symbol.char, hy, Symbol.isLower_eq_false hy]

private theorem forall_knows_iff (hp : Production.ofText? rhs = some p) :
    (∀ c ∈ rhs, g.Knows c) ↔ ∀ s ∈ p.symbols, g.Declares s := by
  obtain ⟨rfl, hcase⟩ := Production.ofText?_eq_some_iff.mp hp
  rw [Production.text, List.forall_mem_map]
  exact forall₂_congr fun s hs => knows_char_iff (hcase s hs)

private theorem find?_undeclared_iff (hp : Production.ofText? rhs = some p) {c : Char} :
    (∃ s, p.symbols.find? (fun s => ¬ g.Declares s) = some s ∧ s.char = c) ↔
      ∃ before after, rhs = before ++ c :: after ∧ (∀ d ∈ before, g.Knows d) ∧ ¬ g.Knows c := by
  obtain ⟨rfl, hcase⟩ := Production.ofText?_eq_some_iff.mp hp
  simp only [List.find?_eq_some_iff_append, decide_eq_true_eq, Bool.not_eq_true',
    decide_eq_false_iff_not, not_not]
  constructor
  · intro h
    obtain ⟨s, ⟨hs, before, after, hsymbols, hbefore⟩, rfl⟩ := h
    rw [hsymbols] at hcase
    refine ⟨before.map Symbol.char, after.map Symbol.char, ?_, ?_, ?_⟩
    · rw [Production.text, hsymbols, List.map_append, List.map_cons]
    · rw [List.forall_mem_map]
      intro d hd
      exact (knows_char_iff (hcase d (List.mem_append_left _ hd))).mpr (hbefore d hd)
    · exact fun hknows => hs ((knows_char_iff (hcase s (by simp))).mp hknows)
  · intro h
    obtain ⟨before, after, htext, hbefore, hc⟩ := h
    obtain ⟨front, rest, hsymbols, rfl, hrest⟩ := List.map_eq_append_iff.mp htext
    obtain ⟨s, behind, rfl, rfl, -⟩ := List.map_eq_cons_iff.mp hrest
    rw [hsymbols] at hcase
    refine ⟨s, ⟨?_, front, behind, hsymbols, ?_⟩, rfl⟩
    · exact fun hs => hc ((knows_char_iff (hcase s (by simp))).mpr hs)
    · intro d hd
      exact (knows_char_iff (hcase d (List.mem_append_left _ hd))).mp
        (hbefore _ (List.mem_map_of_mem hd))

private theorem productionOf_eq_error_iff :
    g.productionOf x rhs = .error r ↔ g.Objection x rhs r := by
  by_cases hx : x ∈ g.nonterminals
  · rw [productionOf, if_pos hx]
    cases hp : Production.ofText? rhs with
    | none =>
      have hform : ¬ rhs.IsNormal := by
        rw [← Production.exists_ofText?_iff, hp]
        simp
      constructor
      · intro h
        cases h
        exact .form hx hform
      · intro h
        cases h with
        | head hno => exact absurd hx hno
        | form => rfl
        | symbol _ hnormal _ _ _ _ _ _ => exact absurd hnormal hform
    | some p =>
      have hnormal : rhs.IsNormal := Production.exists_ofText?_iff.mp ⟨p, hp⟩
      constructor
      · intro h
        cases hfind : p.symbols.find? (fun s => ¬ g.Declares s) with
        | none =>
          simp only [hfind, reduceCtorEq] at h
        | some s =>
          simp only [hfind, Except.error.injEq] at h
          subst h
          obtain ⟨before, after, hrhs, hbefore, hc⟩ :=
            (find?_undeclared_iff hp).mp ⟨s, hfind, rfl⟩
          exact .symbol hx hnormal before after _ hrhs hbefore hc
      · intro h
        cases h with
        | head hno => exact absurd hx hno
        | form _ hform => exact absurd hnormal hform
        | symbol _ _ before after c hrhs hbefore hc =>
          obtain ⟨s, hfind, rfl⟩ := (find?_undeclared_iff hp).mpr ⟨before, after, hrhs, hbefore, hc⟩
          simp only [hfind]
  · rw [productionOf, if_neg hx]
    constructor
    · intro h
      cases h
      exact .head hx
    · intro h
      cases h with
      | head => rfl
      | form hyes => exact absurd hyes hx
      | symbol hyes => exact absurd hyes hx

private theorem gains_withProduction (hx : x ∈ g.nonterminals) (p : Production) :
    g.Gains x p (g.withProduction x p) where
  nonterminals := nonterminals_withProduction g x p
  terminals := rfl
  start := rfl
  others _ hy := productions_withProduction_of_ne g p hy
  productions := by
    rw [productions_withProduction]
    by_cases hp : p ∈ g.productions x
    · rw [if_neg fun hnew => hnew.2.2 hp, if_pos hp]
    · rw [if_pos ⟨rfl, hx, hp⟩, if_neg hp]

private theorem WellFormed.addProduction_text (hg : g.WellFormed) (hp : p ∈ g.productions x) :
    g.addProduction x p.text = .ok g := by
  refine addProduction_eq_ok.mpr ⟨p, productionOf_eq_ok.mpr ⟨?_, ?_, ?_⟩, ?_⟩
  · exact mem_nonterminals_of_mem_productions hp
  · exact Production.ofText?_text (hg.hasCase hp)
  · exact hg.declares x p hp
  · exact (hg.withProduction_of_mem hp).symm

/-- A text is refused as a right-hand side for the first fault that it has, and then the grammar stays
as it is. It is admitted exactly when the nonterminal is declared, the text is in normal form and all
its characters are known; the grammar then gains the one production with that text. A production that
a nonterminal has already is admitted and changes nothing. -/
theorem addProduction_admits_normal_forms (hg : g.Reachable) (x : Char) (rhs : Text) :
    (∀ r, g.addProduction x rhs = .error r ↔ g.Objection x rhs r) ∧
    (∀ r, g.addProduction x rhs = .error r → (Call.addProduction x rhs).after g = g) ∧
    ((∃ g', g.addProduction x rhs = .ok g') ↔
      x ∈ g.nonterminals ∧ rhs.IsNormal ∧ ∀ c ∈ rhs, g.Knows c) ∧
    (∀ g', g.addProduction x rhs = .ok g' → ∃ p, (∀ q, Production.text q = rhs ↔ q = p) ∧
      g.Gains x p g' ∧ (Call.addProduction x rhs).after g = g') ∧
    ∀ p ∈ g.productions x, g.addProduction x p.text = .ok g := by
  refine ⟨?_, ?_, ?_, ?_, ?_⟩
  · intro r
    rw [addProduction, map_eq_error_iff, productionOf_eq_error_iff]
  · intro r h
    rw [Call.after, Call.perform, h]
  · simp only [addProduction_eq_ok, productionOf_eq_ok]
    constructor
    · intro h
      obtain ⟨g', p, ⟨hx, hp, hdeclares⟩, -⟩ := h
      exact ⟨hx, Production.exists_ofText?_iff.mp ⟨p, hp⟩, (forall_knows_iff hp).mpr hdeclares⟩
    · intro h
      obtain ⟨hx, hnormal, hknows⟩ := h
      obtain ⟨p, hp⟩ := Production.exists_ofText?_iff.mpr hnormal
      exact ⟨_, p, ⟨hx, hp, (forall_knows_iff hp).mp hknows⟩, rfl⟩
  · intro g' h
    have hafter : (Call.addProduction x rhs).after g = g' := by
      rw [Call.after, Call.perform, h]
    obtain ⟨p, hp, rfl⟩ := addProduction_eq_ok.mp h
    obtain ⟨hx, hspelled, -⟩ := productionOf_eq_ok.mp hp
    obtain ⟨rfl, -⟩ := Production.ofText?_eq_some_iff.mp hspelled
    exact ⟨p, fun q => Production.text_injective.eq_iff, gains_withProduction hx p, hafter⟩
  · intro p hp
    exact hg.wellFormed.addProduction_text hp

/-- With `S` and `a` declared but not `X`, the text `aX` is not in normal form, `SX` lacks `X`, and
`AB` is a production that `S` has already. -/
theorem balanced_addProduction :
    balanced.Reachable ∧
      balanced.addProduction 'S' "aX".toList = .error (.notNormal "aX".toList) ∧
      balanced.addProduction 'S' "SX".toList = .error (.undeclared 'X') ∧
      balanced.addProduction 'S' "AB".toList = .ok balanced := by
  have hS : 'S' ∈ balanced.nonterminals := by decide
  refine ⟨balanced_reachable, ?_, ?_, ?_⟩
  · refine ((addProduction_admits_normal_forms balanced_reachable 'S' _).1 _).mpr (.form hS ?_)
    rintro (⟨a, h, -⟩ | ⟨b, c, h, hb, -⟩)
    · cases h
    · cases h
      exact absurd hb (by decide +kernel)
  · refine ((addProduction_admits_normal_forms balanced_reachable 'S' _).1 _).mpr ?_
    refine .symbol hS ?_ ['S'] [] 'X' rfl ?_ ?_
    · exact .inr ⟨'S', 'X', rfl, by decide +kernel, by decide +kernel⟩
    · simpa using .inl ⟨by decide +kernel, hS⟩
    · rintro (⟨-, h⟩ | ⟨-, h⟩)
      · exact absurd h (by decide +kernel)
      · exact absurd h (by decide +kernel)
  · have hAB : Production.binary 'A' 'B' ∈ balanced.productions 'S' := by decide +kernel
    exact (addProduction_admits_normal_forms balanced_reachable 'S' []).2.2.2.2 _ hAB

end Grammar

end ChomskyNormal
