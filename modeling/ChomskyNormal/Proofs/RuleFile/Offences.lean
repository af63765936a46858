import ChomskyNormal.Proofs.RuleFile.Scanning

/-!
Offences in lines. A line cannot be scanned when it has a run of colons and equals signs other than
the sign of definition, or a character that stands for nothing; and the fault that scanning ends
with is that of the leftmost offence.
-/

set_option autoImplicit false
set_option relaxedAutoImplicit false

namespace ChomskyNormal.Token

/-- A part of a line, with what is in front of it and behind it, that cannot be scanned: a run of
colons and equals signs that goes on to neither side and is no sign of definition, or a character
that is no blank, belongs to no sign and has no case. -/
inductive Offends : Text → Text → Text → Fault → Prop where
  | run {front bad back : Text} (hne : bad ≠ []) (hbad : ∀ c ∈ bad, isSignPart c)
      (hsign : bad ≠ define.text) (hfront : ∀ c, front.getLast? = some c → isSignPart c = false)
      (hback : ∀ c, back.head? = some c → isSignPart c = false) :
      Offends front bad back .brokenSign
  | stray {front back : Text} {c : Char} (hblank : Text.isBlank c = false)
      (hsign : isSignPart c = false) (hbar : c ≠ '|') (hupper : Symbol.isUpper c = false)
      (hlower : Symbol.isLower c = false) : Offends front [c] back (.stray c)

/-- The fault of the leftmost offence in a line. -/
def FirstOffence (line : Text) (e : Fault) : Prop :=
  ∃ front bad back, line = front ++ bad ++ back ∧ Offends front bad back e ∧
    ∀ front' bad' back' e', line = front' ++ bad' ++ back' → Offends front' bad' back' e' →
      front.length ≤ front'.length

variable {p rest bad back t : Text} {c : Char} {e e' : Fault}

private theorem Offends.exists_cons {front : Text} (h : Offends front bad back e) :
    ∃ c tail, bad = c :: tail ∧ e = if isSignPart c then .brokenSign else .stray c := by
  cases h with
  | run hne hbad _ _ _ =>
    obtain ⟨c, tail, rfl⟩ := List.exists_cons_of_ne_nil hne
    exact ⟨c, tail, rfl, by rw [if_pos (hbad c List.mem_cons_self)]⟩
  | stray _ hsign _ _ _ => exact ⟨_, [], rfl, by simp [hsign]⟩

private theorem Offends.change_front {front front' : Text} (h : Offends front bad back e)
    (hfront : ∀ c, front'.getLast? = some c → isSignPart c = false ∨ front.getLast? = some c) :
    Offends front' bad back e := by
  cases h with
  | run hne hbad hsign hold hback =>
    refine .run hne hbad hsign ?_ hback
    intro c hc
    rcases hfront c hc with hc | hc
    · exact hc
    · exact hold c hc
  | stray hblank hsign hbar hupper hlower => exact .stray hblank hsign hbar hupper hlower

private theorem Offends.not_within_run {front tail : Text} {d : Char}
    (h : Offends front (c :: tail) back e) (hc : isSignPart c = true) (hd : isSignPart d = true) :
    front.getLast? ≠ some d := by
  intro hlast
  cases h with
  | run _ _ _ hfront _ => exact Bool.false_ne_true ((hfront d hlast).symm.trans hd)
  | stray _ hsign _ _ _ => exact Bool.false_ne_true (hsign.symm.trans hc)

private theorem not_firstOffence_nil : ¬ FirstOffence [] e := by
  intro h
  obtain ⟨front, bad, back, heq, hoff, -⟩ := h
  obtain ⟨c, tail, rfl, -⟩ := hoff.exists_cons
  simp at heq

/-- A piece is free of offences, and none begins in it or goes into it from behind. -/
structure Passes (p rest : Text) : Prop where
  inside : ∀ front bad back e, p ++ rest = front ++ bad ++ back → Offends front bad back e →
    ∃ front', front = p ++ front' ∧ rest = front' ++ bad ++ back ∧ Offends front' bad back e
  outside : ∀ front bad back e, rest = front ++ bad ++ back → Offends front bad back e →
    Offends (p ++ front) bad back e

private theorem Passes.firstOffence_iff (h : Passes p rest) :
    FirstOffence (p ++ rest) e ↔ FirstOffence rest e := by
  constructor
  · intro hfirst
    obtain ⟨front, bad, back, heq, hoff, hleast⟩ := hfirst
    obtain ⟨front, rfl, hrest, hoff⟩ := h.inside front bad back e heq hoff
    refine ⟨front, bad, back, hrest, hoff, ?_⟩
    intro front' bad' back' e' hrest' hoff'
    have hle := hleast (p ++ front') bad' back' e' (by simp [hrest'])
      (h.outside front' bad' back' e' hrest' hoff')
    simpa using hle
  · intro hfirst
    obtain ⟨front, bad, back, hrest, hoff, hleast⟩ := hfirst
    refine ⟨p ++ front, bad, back, by simp [hrest], h.outside front bad back e hrest hoff, ?_⟩
    intro front' bad' back' e' heq' hoff'
    obtain ⟨front', rfl, hrest', hoff'⟩ := h.inside front' bad' back' e' heq' hoff'
    have hle := hleast front' bad' back' e' hrest' hoff'
    simpa using hle

private theorem passes_char (hsign : isSignPart c = false)
    (hfine : ¬ Offends [] [c] rest (.stray c)) :
    Passes [c] rest where
  inside front bad back e heq hoff := by
    cases front with
    | nil =>
      -- the offence would begin with the character itself
      exfalso
      cases hoff with
      | run hne hbad _ _ _ =>
        obtain ⟨d, tail, rfl⟩ := List.exists_cons_of_ne_nil hne
        obtain ⟨rfl, -⟩ : c = d ∧ rest = tail ++ back := by simpa using heq
        exact Bool.false_ne_true (hsign.symm.trans (hbad c List.mem_cons_self))
      | stray hblank hsign hbar hupper hlower =>
        obtain ⟨rfl, -⟩ := List.cons.inj heq
        exact hfine (.stray hblank hsign hbar hupper hlower)
    | cons d front =>
      obtain ⟨rfl, hrest⟩ : c = d ∧ rest = front ++ (bad ++ back) := by simpa using heq
      refine ⟨front, rfl, by rw [hrest, List.append_assoc], hoff.change_front ?_⟩
      intro d hd
      exact .inr (by rw [List.getLast?_cons, hd]; rfl)
  outside front bad back e hrest hoff := by
    refine hoff.change_front ?_
    intro d hd
    cases hlast : front.getLast? with
    | none =>
      obtain rfl := List.getLast?_eq_none_iff.mp hlast
      obtain rfl : c = d := by simpa using hd
      exact .inl hsign
    | some d' => exact .inr (by simpa [List.getLast?_cons, hlast] using hd)

theorem goesOn_eq_false_iff :
    goesOn t = false ↔ ∀ c, t.head? = some c → isSignPart c = false := by
  cases t <;> simp [goesOn]

theorem goesOn_dropWhile (t : Text) : goesOn (t.dropWhile isSignPart) = false := by
  refine goesOn_eq_false_iff.mpr fun c hc => ?_
  have hhead := List.head?_dropWhile_not isSignPart t
  simpa [hc] using hhead

private theorem takeWhile_isSignPart (hbad : ∀ c ∈ bad, isSignPart c)
    (hback : goesOn back = false) : (bad ++ back).takeWhile isSignPart = bad := by
  rw [List.takeWhile_append_of_pos hbad]
  cases back with
  | nil => exact List.append_nil bad
  | cons c back =>
    have hc : ¬ isSignPart c = true := by simpa [goesOn] using hback
    rw [List.takeWhile_cons_of_neg hc, List.append_nil]

private theorem not_offends_define (hgo : goesOn rest = false)
    (heq : define.text ++ rest = bad ++ back) : ¬ Offends [] bad back e := by
  intro hoff
  cases hoff with
  | run _ hbad hbroken _ hback =>
    have hrun := takeWhile_isSignPart hbad (goesOn_eq_false_iff.mpr hback)
    have hsign : (define.text ++ rest).takeWhile isSignPart = define.text :=
      takeWhile_isSignPart (by simp [text, isSignPart]) hgo
    exact hbroken (by rw [← hrun, ← heq, hsign])
  | stray _ hsign _ _ _ =>
    obtain ⟨rfl, -⟩ := List.cons.inj heq
    cases hsign

private theorem passes_define (hgo : goesOn rest = false) : Passes define.text rest where
  inside front bad back e heq hoff := by
    have hcolon : isSignPart ':' = true := by decide
    have hequals : isSignPart '=' = true := by decide
    replace heq : ':' :: ':' :: '=' :: rest = front ++ bad ++ back := heq
    -- an offence begins neither with the sign nor within it
    rcases front with _ | ⟨c₁, _ | ⟨c₂, _ | ⟨c₃, front⟩⟩⟩
    · exact absurd hoff (not_offends_define hgo heq)
    · obtain ⟨c, tail, rfl, -⟩ := hoff.exists_cons
      simp only [List.nil_append, List.cons_append, List.cons.injEq] at heq
      obtain ⟨rfl, rfl, -⟩ := heq
      exact absurd rfl (hoff.not_within_run hcolon hcolon)
    · obtain ⟨c, tail, rfl, -⟩ := hoff.exists_cons
      simp only [List.nil_append, List.cons_append, List.cons.injEq] at heq
      obtain ⟨rfl, rfl, rfl, -⟩ := heq
      exact absurd rfl (hoff.not_within_run hequals hcolon)
    · simp only [List.cons_append, List.cons.injEq] at heq
      obtain ⟨rfl, rfl, rfl, hrest⟩ := heq
      refine ⟨front, rfl, hrest, hoff.change_front ?_⟩
      intro d hd
      exact .inr (by simp [List.getLast?_cons, hd])
  outside front bad back e hrest hoff := by
    cases hoff with
    | run hne hbad hbroken hfront hback =>
      refine .run hne hbad hbroken ?_ hback
      intro d hd
      cases hlast : front.getLast? with
      | some d' =>
        obtain rfl : d' = d := by simpa [List.getLast?_append, hlast] using hd
        exact hfront d' hlast
      | none =>
        -- a run right behind the sign would make it go on
        obtain rfl := List.getLast?_eq_none_iff.mp hlast
        obtain ⟨b, bad, rfl⟩ := List.exists_cons_of_ne_nil hne
        have hno := goesOn_eq_false_iff.mp hgo b (by rw [hrest]; rfl)
        exact absurd (hno.symm.trans (hbad b List.mem_cons_self)) Bool.false_ne_true
    | stray hblank hsign hbar hupper hlower => exact .stray hblank hsign hbar hupper hlower

theorem firstOffence_iff_of_offends (h : Offends [] bad back e) :
    FirstOffence (bad ++ back) e' ↔ e' = e := by
  constructor
  · intro hfirst
    obtain ⟨front, bad', back', heq, hoff, hleast⟩ := hfirst
    have hlength := hleast [] bad back e rfl h
    obtain rfl : front = [] := List.length_eq_zero_iff.mp (Nat.le_zero.mp hlength)
    -- both begin with the same character
    obtain ⟨c, tail, rfl, rfl⟩ := h.exists_cons
    obtain ⟨c', tail', rfl, rfl⟩ := hoff.exists_cons
    obtain ⟨rfl, -⟩ := List.cons.inj heq
    rfl
  · rintro rfl
    exact ⟨[], bad, back, rfl, h, fun _ _ _ _ _ _ => Nat.zero_le _⟩

private theorem offends_run (hgo : goesOn t = true)
    (hno : ∀ back, t = define.text ++ back → goesOn back = true) :
    Offends [] (t.takeWhile isSignPart) (t.dropWhile isSignPart) .brokenSign := by
  have hback := goesOn_dropWhile t
  refine .run ?_ (List.all_eq_true.mp List.all_takeWhile) ?_ (by simp)
    (goesOn_eq_false_iff.mp hback)
  · intro hnil
    cases t with
    | nil => cases hgo
    | cons c t =>
      have hc : isSignPart c = true := hgo
      rw [List.takeWhile_cons_of_pos hc] at hnil
      cases hnil
  · intro hsign
    have hsplit : t = define.text ++ t.dropWhile isSignPart := by
      rw [← hsign, List.takeWhile_append_dropWhile]
    exact Bool.false_ne_true (hback.symm.trans (hno _ hsplit))

private theorem firstOffence_run (hgo : goesOn t = true)
    (hno : ∀ back, t = define.text ++ back → goesOn back = true) :
    FirstOffence t e ↔ e = .brokenSign := by
  have hfirst : FirstOffence (t.takeWhile isSignPart ++ t.dropWhile isSignPart) e ↔
      e = .brokenSign := firstOffence_iff_of_offends (offends_run hgo hno)
  rwa [List.takeWhile_append_dropWhile] at hfirst

/-- Scanning a line ends with the fault of its leftmost offence. -/
theorem scan_eq_error_iff : scan t = .error e ↔ FirstOffence t e := by
  induction t using scan.induct with
  | case1 => simp [scan, not_firstOffence_nil]
  | case2 rest hgo =>
    have hrun : FirstOffence (':' :: ':' :: '=' :: rest) e ↔ e = .brokenSign := by
      apply firstOffence_run rfl
      intro back heq
      obtain rfl : rest = back := by simpa [text] using heq
      exact hgo
    rw [scan.eq_2, if_pos hgo, hrun, Except.error.injEq, eq_comm]
  | case3 rest hgo ih =>
    rw [scan.eq_2, if_neg hgo, map_eq_error_iff, ih]
    exact (passes_define (by simpa using hgo)).firstOffence_iff.symm
  | case4 c rest hno hsign =>
    have hrun : FirstOffence (c :: rest) e ↔ e = .brokenSign := by
      have hgo : goesOn (c :: rest) = true := hsign
      apply firstOffence_run hgo
      intro back heq
      obtain ⟨rfl, hrest⟩ := List.cons.inj heq
      exact absurd hrest (hno back rfl)
    rw [scan.eq_3 c rest hno, if_pos hsign, hrun, Except.error.injEq, eq_comm]
  | case5 rest hno hsign ih =>
    rw [scan_bar, map_eq_error_iff, ih]
    refine (passes_char (by decide) ?_).firstOffence_iff.symm
    intro hoff
    cases hoff with
    | stray _ _ hbar _ _ => exact hbar rfl
  | case6 c rest hno hsign hbar hblank ih =>
    rw [scan_blank hblank, ih]
    refine (passes_char (by simpa using hsign) ?_).firstOffence_iff.symm
    intro hoff
    cases hoff with
    | stray hno _ _ _ _ => exact Bool.false_ne_true (hno.symm.trans hblank)
  | case7 c rest hno hsign hbar hblank s hs ih =>
    obtain ⟨hcase, rfl⟩ := Symbol.ofChar?_eq_some_iff.mp hs
    rw [scan_letter hcase, map_eq_error_iff, ih]
    refine (passes_char (not_isSignPart hcase) ?_).firstOffence_iff.symm
    intro hoff
    cases hoff with
    | stray _ _ _ hupper hlower =>
      cases s with
      | terminal a => exact Bool.false_ne_true (hlower.symm.trans hcase)
      | nonterminal x => exact Bool.false_ne_true (hupper.symm.trans hcase)
  | case8 c rest hno hsign hbar hblank hs =>
    obtain ⟨hupper, hlower⟩ := Symbol.ofChar?_eq_none_iff.mp hs
    have hoff : Offends [] [c] rest (.stray c) :=
      .stray (by simpa using hblank) (by simpa using hsign) hbar hupper hlower
    have hfirst : FirstOffence (c :: rest) e ↔ e = .stray c := firstOffence_iff_of_offends hoff
    rw [scan_cons (by simpa using hsign), if_neg hbar, if_neg hblank, hs, hfirst,
      Except.error.injEq, eq_comm]

end ChomskyNormal.Token
