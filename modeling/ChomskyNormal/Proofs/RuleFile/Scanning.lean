import ChomskyNormal.Proofs.Letters
import ChomskyNormal.Proofs.Outcomes
import ChomskyNormal.RuleFile.Token
import Mathlib.Data.List.Chain

/-!
Scanning and spelling. A line that is scanned spells its tokens with blanks around them, and a line
that spells tokens so is scanned into them, provided that no two signs of definition meet.
-/

set_option autoImplicit false
set_option relaxedAutoImplicit false

namespace ChomskyNormal

/-- A text that consists of some parts in order, with blanks in front of them, between them and
behind them but not inside. -/
inductive Spaced : List Text → Text → Prop where
  | nil : Spaced [] []
  | blank {c : Char} {parts : List Text} {t : Text} (hc : Text.isBlank c) (h : Spaced parts t) :
      Spaced parts (c :: t)
  | part (p : Text) {parts : List Text} {t : Text} (h : Spaced parts t) :
      Spaced (p :: parts) (p ++ t)

namespace Token

variable {t : Text} {ts : List Token}

def Cased (ts : List Token) : Prop :=
  ∀ s, letter s ∈ ts → s.HasCase

private theorem cased_nil : Cased [] := by
  intro s hs
  cases hs

theorem Cased.tail {k : Token} (h : Cased (k :: ts)) : Cased ts := by
  intro s hs
  exact h s (List.mem_cons_of_mem k hs)

private theorem Cased.cons_define (h : Cased ts) : Cased (define :: ts) := by
  intro s hs
  exact h s (List.mem_of_ne_of_mem (by simp) hs)

private theorem Cased.cons_bar (h : Cased ts) : Cased (bar :: ts) := by
  intro s hs
  exact h s (List.mem_of_ne_of_mem (by simp) hs)

private theorem Cased.cons_letter {s : Symbol} (h : Cased ts) (hs : s.HasCase) :
    Cased (letter s :: ts) := by
  intro r hr
  rcases List.mem_cons.mp hr with hr | hr
  · cases hr
    exact hs
  · exact h r hr

theorem scan_cons {c : Char} (hc : isSignPart c = false) (rest : Text) :
    scan (c :: rest) =
      if c = '|' then (scan rest).map (bar :: ·)
      else if Text.isBlank c then scan rest
      else
        match Symbol.ofChar? c with
        | some s => (scan rest).map (letter s :: ·)
        | none => .error (.stray c) := by
  have hne : c ≠ ':' := by
    rintro rfl
    cases hc
  rw [scan.eq_3 _ _ (by intro _ h _; exact hne h), hc]
  rfl

theorem isSignPart_of_isBlank {c : Char} (hc : Text.isBlank c = true) :
    isSignPart c = false := by
  by_contra h
  simp only [isSignPart, Bool.not_eq_false, Bool.or_eq_true, beq_iff_eq] at h
  rcases h with rfl | rfl
  · exact absurd hc (by decide)
  · exact absurd hc (by decide)

theorem scan_blank {c : Char} (hc : Text.isBlank c = true) (rest : Text) :
    scan (c :: rest) = scan rest := by
  have hbar : c ≠ '|' := by
    intro h
    rw [h] at hc
    exact absurd hc (by decide)
  rw [scan_cons (isSignPart_of_isBlank hc), if_neg hbar, if_pos hc]

theorem scan_bar (rest : Text) : scan ('|' :: rest) = (scan rest).map (bar :: ·) := by
  rw [scan_cons (by decide), if_pos rfl]

theorem not_isSignPart {s : Symbol} (hs : s.HasCase) : isSignPart s.char = false := by
  by_contra h
  simp only [isSignPart, Bool.not_eq_false, Bool.or_eq_true, beq_iff_eq] at h
  rcases h with h | h
  · exact hs.char_ne (by decide) h
  · exact hs.char_ne (by decide) h

theorem scan_letter {s : Symbol} (hs : s.HasCase) (rest : Text) :
    scan (s.char :: rest) = (scan rest).map (letter s :: ·) := by
  rw [scan_cons (not_isSignPart hs), if_neg (hs.char_ne (by decide)),
    if_neg (by simp [hs.not_isBlank]), hs.ofChar?]

theorem scan_define (hgo : goesOn t = false) :
    scan ("::=".toList ++ t) = (scan t).map (define :: ·) := by
  show scan (':' :: ':' :: '=' :: t) = _
  rw [scan.eq_2, if_neg (by simp [hgo])]

theorem scan_text_eq_ok {us : List Token} {k : Token} (hcased : Cased (k :: ts)) :
    scan (k.text ++ t) = .ok us ↔
      (k = define → goesOn t = false) ∧ ∃ vs, scan t = .ok vs ∧ k :: vs = us := by
  cases k with
  | define =>
    by_cases hgo : goesOn t = true
    · have hbroken : scan (define.text ++ t) = .error .brokenSign := by
        show scan (':' :: ':' :: '=' :: t) = _
        rw [scan.eq_2, if_pos hgo]
      simp [hbroken, hgo]
    · rw [text, scan_define (by simpa using hgo), map_eq_ok_iff]
      simp [hgo]
  | bar =>
    rw [text, List.singleton_append, scan_bar, map_eq_ok_iff]
    simp
  | letter s =>
    rw [text, List.singleton_append, scan_letter (hcased s List.mem_cons_self), map_eq_ok_iff]
    simp

/-- What is scanned spells its tokens, the letters in the case of their kinds. -/
theorem spaced_of_scan (h : scan t = .ok ts) : Spaced (ts.map text) t ∧ Cased ts := by
  induction t using scan.induct generalizing ts with
  | case1 =>
    cases h
    exact ⟨.nil, cased_nil⟩
  | case2 rest hgo =>
    rw [scan.eq_2, if_pos hgo] at h
    cases h
  | case3 rest hgo ih =>
    rw [scan.eq_2, if_neg hgo] at h
    obtain ⟨us, hus, rfl⟩ := map_eq_ok_iff.mp h
    obtain ⟨hspaced, hcased⟩ := ih hus
    exact ⟨.part define.text hspaced, hcased.cons_define⟩
  | case4 c rest hno hsign =>
    rw [scan.eq_3 c rest hno, if_pos hsign] at h
    cases h
  | case5 rest hno hsign ih =>
    rw [scan_bar] at h
    obtain ⟨us, hus, rfl⟩ := map_eq_ok_iff.mp h
    obtain ⟨hspaced, hcased⟩ := ih hus
    exact ⟨.part bar.text hspaced, hcased.cons_bar⟩
  | case6 c rest hno hsign hbar hblank ih =>
    rw [scan_blank hblank] at h
    obtain ⟨hspaced, hcased⟩ := ih h
    exact ⟨.blank hblank hspaced, hcased⟩
  | case7 c rest hno hsign hbar hblank s hs ih =>
    obtain ⟨hcase, rfl⟩ := Symbol.ofChar?_eq_some_iff.mp hs
    rw [scan_letter hcase] at h
    obtain ⟨us, hus, rfl⟩ := map_eq_ok_iff.mp h
    obtain ⟨hspaced, hcased⟩ := ih hus
    exact ⟨.part (letter s).text hspaced, hcased.cons_letter hcase⟩
  | case8 c rest hno hsign hbar hblank hs =>
    rw [scan_cons (by simpa using hsign), if_neg hbar, if_neg hblank, hs] at h
    cases h

def SignsApart (ts : List Token) : Prop :=
  ts.IsChain fun k l => k = define → l ≠ define

private theorem goesOn_eq_false {parts : List Text} (h : Spaced parts t)
    (hparts : ts.map text = parts) (hcased : Cased ts) (hhead : ts.head? ≠ some define) :
    goesOn t = false := by
  cases h with
  | nil => rfl
  | blank hc _ => exact isSignPart_of_isBlank hc
  | part p _ =>
    obtain ⟨k, us, rfl, rfl, -⟩ := List.map_eq_cons_iff.mp hparts
    cases k with
    | define => exact absurd rfl hhead
    | bar => rfl
    | letter s => exact not_isSignPart (hcased s List.mem_cons_self)

/-- A text that spells tokens is scanned into them. -/
theorem scan_of_spaced {parts : List Text} (h : Spaced parts t) :
    ∀ ts, ts.map text = parts → Cased ts → SignsApart ts → scan t = .ok ts := by
  induction h with
  | nil =>
    intro ts hts _ _
    obtain rfl := List.map_eq_nil_iff.mp hts
    rfl
  | blank hc _ ih =>
    intro ts hts hcased hsigns
    rw [scan_blank hc]
    exact ih ts hts hcased hsigns
  | @part p parts t hspaced ih =>
    intro ts hts hcased hsigns
    obtain ⟨k, us, rfl, rfl, hus⟩ := List.map_eq_cons_iff.mp hts
    have hrest : scan t = .ok us := ih us hus hcased.tail hsigns.tail
    refine (scan_text_eq_ok hcased).mpr ⟨?_, us, hrest, rfl⟩
    rintro rfl
    apply goesOn_eq_false hspaced hus hcased.tail
    intro hhead
    obtain ⟨vs, rfl⟩ := List.head?_eq_some_iff.mp hhead
    exact (List.isChain_cons_cons.mp hsigns).1 rfl rfl

end Token

end ChomskyNormal
