import ChomskyNormal.Production
import Mathlib.Data.List.Basic

/-!
The classes of characters keep apart: no character has both cases, and none that has a case is a
blank. A symbol in the case of its kind is therefore read back from the character it is written as.
-/

set_option autoImplicit false
set_option relaxedAutoImplicit false

namespace ChomskyNormal

def Band.oneParity (b : Band) : Bool :=
  b.step % 2 == 0 || b.first == b.last

/-- Two bands lie apart when one ends before the other begins, or when one has even code points and
the other odd ones. -/
def Band.apart (b c : Band) : Bool :=
  Nat.blt b.last c.first || Nat.blt c.last b.first ||
    (b.oneParity && c.oneParity && b.first % 2 != c.first % 2)

namespace CharClass

def apart (k l : CharClass) : Bool :=
  k.all fun b => l.all fun c => b.apart c

private theorem mod_two_of_has {b : Band} {n : Nat} (hb : b.oneParity = true)
    (h : b.has n = true) : n % 2 = b.first % 2 := by
  simp only [Band.has, Bool.and_eq_true, decide_eq_true_eq, beq_iff_eq] at h
  simp only [Band.oneParity, Bool.or_eq_true, beq_iff_eq] at hb
  obtain ⟨⟨hlo, hhi⟩, hdvd⟩ := h
  rcases hb with hstep | hone
  · have htwo : 2 ∣ n - b.first :=
      Nat.dvd_trans (Nat.dvd_of_mod_eq_zero hstep) (Nat.dvd_of_mod_eq_zero hdvd)
    omega
  · omega

private theorem not_has_of_apart {b c : Band} {n : Nat} (h : b.apart c = true)
    (hb : b.has n = true) : c.has n = false := by
  rw [Bool.eq_false_iff]
  intro hc
  have hbounds : b.first ≤ n ∧ n ≤ b.last ∧ c.first ≤ n ∧ n ≤ c.last := by
    simp only [Band.has, Bool.and_eq_true, decide_eq_true_eq] at hb hc
    exact ⟨hb.1.1, hb.1.2, hc.1.1, hc.1.2⟩
  simp only [Band.apart, Bool.or_eq_true, Nat.blt_eq, Bool.and_eq_true, bne_iff_ne] at h
  rcases h with (h | h) | ⟨⟨hpb, hpc⟩, hne⟩
  · omega
  · omega
  · exact hne ((mod_two_of_has hpb hb).symm.trans (mod_two_of_has hpc hc))

theorem exists_band_of_hasCode {n : Nat} {k : CharClass} (h : k.hasCode n = true) :
    ∃ b ∈ k, b.has n = true := by
  induction k with
  | nil => cases h
  | cons b k ih =>
    rw [hasCode] at h
    split at h
    · exact ⟨b, List.mem_cons_self, h⟩
    · obtain ⟨c, hc, hn⟩ := ih h
      exact ⟨c, List.mem_cons_of_mem b hc, hn⟩

private theorem has_eq_false_of_apart {k l : CharClass} {c : Char} (h : k.apart l = true)
    (hk : k.has c = true) : l.has c = false := by
  rw [Bool.eq_false_iff]
  intro hl
  obtain ⟨b, hb, hbc⟩ := exists_band_of_hasCode hk
  obtain ⟨d, hd, hdc⟩ := exists_band_of_hasCode hl
  have hapart : b.apart d = true := List.all_eq_true.mp (List.all_eq_true.mp h b hb) d hd
  exact Bool.false_ne_true ((not_has_of_apart hapart hbc).symm.trans hdc)

private theorem apart_uppercase_lowercase : uppercase.apart lowercase = true := by decide +kernel

private theorem apart_uppercase_blank : uppercase.apart blank = true := by decide +kernel

private theorem apart_lowercase_blank : lowercase.apart blank = true := by decide +kernel

end CharClass

namespace Symbol

/-- A symbol has the case of its kind: a nonterminal is upper-case, a terminal lower-case. -/
def HasCase : Symbol → Prop
  | terminal a => isLower a
  | nonterminal x => isUpper x

theorem isLower_eq_false {c : Char} (h : isUpper c = true) : isLower c = false :=
  CharClass.has_eq_false_of_apart CharClass.apart_uppercase_lowercase h

theorem ofChar?_eq_some_iff {c : Char} {s : Symbol} :
    ofChar? c = some s ↔ s.HasCase ∧ s.char = c := by
  unfold ofChar?
  cases s with
  | terminal a =>
    by_cases hu : isUpper c = true
    · simp only [hu, if_true, Option.some.injEq, reduceCtorEq, false_iff]
      intro h
      obtain ⟨ha, rfl⟩ := h
      exact Bool.false_ne_true ((isLower_eq_false hu).symm.trans ha)
    · by_cases hl : isLower c = true
      · simp only [hu, hl, if_true, Bool.false_eq_true, if_false, Option.some.injEq,
          terminal.injEq]
        constructor
        · rintro rfl
          exact ⟨hl, rfl⟩
        · exact fun h => h.2.symm
      · simp only [hu, hl, Bool.false_eq_true, if_false, reduceCtorEq, false_iff]
        intro h
        obtain ⟨ha, rfl⟩ := h
        exact hl ha
  | nonterminal x =>
    by_cases hu : isUpper c = true
    · simp only [hu, if_true, Option.some.injEq, nonterminal.injEq]
      constructor
      · rintro rfl
        exact ⟨hu, rfl⟩
      · exact fun h => h.2.symm
    · simp only [hu, Bool.false_eq_true, if_false]
      constructor
      · intro h
        split at h <;> cases h
      · intro h
        obtain ⟨hx, rfl⟩ := h
        exact absurd hx hu

theorem ofChar?_eq_none_iff {c : Char} :
    ofChar? c = none ↔ isUpper c = false ∧ isLower c = false := by
  unfold ofChar?
  cases isUpper c <;> cases isLower c <;> simp

namespace HasCase

variable {s : Symbol}

theorem ofChar? (h : s.HasCase) : Symbol.ofChar? s.char = some s :=
  ofChar?_eq_some_iff.mpr ⟨h, rfl⟩

theorem char_ne {c : Char} (h : s.HasCase) (hc : Symbol.ofChar? c = none) : s.char ≠ c := by
  rintro rfl
  cases hc.symm.trans h.ofChar?

theorem not_isBlank (h : s.HasCase) : Text.isBlank s.char = false := by
  cases s with
  | terminal a => exact CharClass.has_eq_false_of_apart CharClass.apart_lowercase_blank h
  | nonterminal x => exact CharClass.has_eq_false_of_apart CharClass.apart_uppercase_blank h

end HasCase

end Symbol

namespace Production

variable {p : Production} {ss : List Symbol}

theorem ofSymbols?_eq_some_iff : ofSymbols? ss = some p ↔ ss = p.symbols := by
  constructor
  · intro h
    unfold ofSymbols? at h
    split at h <;> cases h <;> rfl
  · rintro rfl
    cases p <;> rfl

theorem symbols_ne_nil (p : Production) : p.symbols ≠ [] := by
  cases p <;> simp [symbols]

theorem ofText?_text (h : ∀ s ∈ p.symbols, s.HasCase) : ofText? p.text = some p := by
  have hchars : ∀ ss : List Symbol, (∀ s ∈ ss, s.HasCase) →
      (ss.map Symbol.char).mapM Symbol.ofChar? = some ss := by
    intro ss
    induction ss with
    | nil => exact fun _ => rfl
    | cons s ss ih =>
      intro hss
      have hrest := ih fun r hr => hss r (List.mem_cons_of_mem s hr)
      simp [(hss s List.mem_cons_self).ofChar?, hrest]
  rw [ofText?, text, hchars p.symbols h]
  exact ofSymbols?_eq_some_iff.mpr rfl

theorem eq_text_of_ofText? {t : Text} (h : ofText? t = some p) : t = p.text := by
  have hchars : ∀ t : Text, ∀ ss, t.mapM Symbol.ofChar? = some ss → t = ss.map Symbol.char := by
    intro t
    induction t with
    | nil =>
      intro ss hss
      cases hss
      rfl
    | cons c t ih =>
      intro ss hss
      simp only [List.mapM_cons, Option.bind_eq_bind, Option.bind_eq_some_iff] at hss
      obtain ⟨s, hs, rest, hrest, heq⟩ := hss
      cases heq
      rw [List.map_cons, (Symbol.ofChar?_eq_some_iff.mp hs).2, ← ih rest hrest]
  obtain ⟨ss, hss, hp⟩ := Option.bind_eq_some_iff.mp h
  rw [text, ← ofSymbols?_eq_some_iff.mp hp]
  exact hchars t ss hss

end Production

end ChomskyNormal
