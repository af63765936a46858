import ChomskyNormal.Proofs.RuleFile.Layout

/-!
Scanning in rounds. Each round looks at the first character of what is left of a line and takes a
token or a blank off it, a sign of definition together with all colons and equals signs that follow.
The rounds come to an end on every line: with the tokens that the line spells, or with the fault of
its leftmost offence.
-/

set_option autoImplicit false
set_option relaxedAutoImplicit false

namespace ChomskyNormal.Token

/-- Tokens written down one after another, each with the gap in front of it, and a gap at the
end. -/
def spread (items : List (Text × Token)) (last : Text) : Text :=
  items.flatMap (fun i => i.1 ++ i.2.text) ++ last

/-- All gaps consist of blanks, and the gap between two signs of definition is not empty. -/
structure Gapped (items : List (Text × Token)) (last : Text) : Prop where
  blank_last : ∀ c ∈ last, Text.isBlank c
  blank : ∀ i ∈ items, ∀ c ∈ i.1, Text.isBlank c
  apart : items.IsChain fun i j => i.2 = define → j.2 = define → j.1 ≠ []

/-- A line spells some tokens when it consists of them in order, blanks in the gaps around them and
at least one blank between two signs of definition. Every letter has the case of its kind. -/
def Spells (line : Text) (ts : List Token) : Prop :=
  Cased ts ∧ ∃ items last, Gapped items last ∧ items.map Prod.snd = ts ∧ spread items last = line

variable {items : List (Text × Token)} {line t gap last : Text} {ts us : List Token} {k : Token}
  {c : Char}

private theorem spread_cons (gap : Text) (k : Token) (items : List (Text × Token)) (last : Text) :
    spread ((gap, k) :: items) last = gap ++ (k.text ++ spread items last) := by
  simp [spread]

private theorem scan_append_of_isBlank (hgap : ∀ c ∈ gap, Text.isBlank c) (t : Text) :
    scan (gap ++ t) = scan t := by
  induction gap with
  | nil => rfl
  | cons c gap ih =>
    rw [List.cons_append, scan_blank (hgap c List.mem_cons_self),
      ih fun d hd => hgap d (List.mem_cons_of_mem c hd)]

private theorem goesOn_append_of_isBlank (hgap : ∀ c ∈ gap, Text.isBlank c) (hne : gap ≠ [])
    (t : Text) : goesOn (gap ++ t) = false := by
  obtain ⟨c, gap, rfl⟩ := List.exists_cons_of_ne_nil hne
  exact isSignPart_of_isBlank (hgap c List.mem_cons_self)

private theorem goesOn_spread (h : Gapped items last) (hcased : Cased (items.map Prod.snd)) :
    goesOn (spread items last) = false ↔ ∀ i ∈ items.head?, i.2 = define → i.1 ≠ [] := by
  cases items with
  | nil =>
    have hgo : goesOn last = false := by
      by_cases hnil : last = []
      · rw [hnil]
        rfl
      · rw [← List.append_nil last]
        exact goesOn_append_of_isBlank h.blank_last hnil []
    simpa [spread] using hgo
  | cons i items =>
    obtain ⟨gap, k⟩ := i
    rw [spread_cons]
    by_cases hnil : gap = []
    · subst hnil
      cases k with
      | define => simp [text, goesOn, isSignPart]
      | bar => simp [text, goesOn, isSignPart]
      | letter s =>
        have hs := not_isSignPart (hcased s List.mem_cons_self)
        simp [text, goesOn, hs]
    · have hgap := h.blank _ List.mem_cons_self
      simp [goesOn_append_of_isBlank hgap hnil, hnil]

private theorem gapped_cons (hcased : Cased (items.map Prod.snd)) :
    Gapped ((gap, k) :: items) last ↔
      (∀ c ∈ gap, Text.isBlank c) ∧ (k = define → goesOn (spread items last) = false) ∧
        Gapped items last := by
  constructor
  · intro h
    obtain ⟨hnext, hapart⟩ := List.isChain_cons.mp h.apart
    have hitems : Gapped items last :=
      ⟨h.blank_last, fun i hi => h.blank i (List.mem_cons_of_mem _ hi), hapart⟩
    refine ⟨h.blank _ List.mem_cons_self, ?_, hitems⟩
    intro hk
    exact (goesOn_spread hitems hcased).mpr fun i hi hsign => hnext i hi hk hsign
  · intro h
    obtain ⟨hgap, hgo, hitems⟩ := h
    have hblank : ∀ i ∈ (gap, k) :: items, ∀ c ∈ i.1, Text.isBlank c :=
      List.forall_mem_cons.mpr ⟨hgap, hitems.blank⟩
    refine ⟨hitems.blank_last, hblank, List.isChain_cons.mpr ⟨?_, hitems.apart⟩⟩
    intro i hi hk hsign
    exact (goesOn_spread hitems hcased).mp (hgo hk) i hi hsign

private theorem scan_spread (h : Gapped items last) (hcased : Cased (items.map Prod.snd)) :
    scan (spread items last) = .ok (items.map Prod.snd) := by
  induction items with
  | nil =>
    rw [spread, List.flatMap_nil, List.nil_append, ← List.append_nil last,
      scan_append_of_isBlank h.blank_last]
    rfl
  | cons i items ih =>
    obtain ⟨gap, k⟩ := i
    obtain ⟨hgap, hgo, hitems⟩ := (gapped_cons hcased.tail).mp h
    rw [spread_cons, scan_append_of_isBlank hgap]
    exact (scan_text_eq_ok hcased).mpr ⟨hgo, _, ih hitems hcased.tail, rfl⟩

private theorem exists_spread_blank (hc : Text.isBlank c) (h : Gapped items last)
    (hcased : Cased (items.map Prod.snd)) :
    ∃ items' last', Gapped items' last' ∧ items'.map Prod.snd = items.map Prod.snd ∧
      spread items' last' = c :: spread items last := by
  cases items with
  | nil =>
    have hlast : ∀ d ∈ c :: last, Text.isBlank d := List.forall_mem_cons.mpr ⟨hc, h.blank_last⟩
    exact ⟨[], c :: last, ⟨hlast, h.blank, h.apart⟩, rfl, rfl⟩
  | cons i items =>
    obtain ⟨gap, k⟩ := i
    obtain ⟨hgap, hgo, hitems⟩ := (gapped_cons hcased.tail).mp h
    have hgap' : ∀ d ∈ c :: gap, Text.isBlank d := List.forall_mem_cons.mpr ⟨hc, hgap⟩
    refine ⟨(c :: gap, k) :: items, last, ?_, rfl, ?_⟩
    · exact (gapped_cons hcased.tail).mpr ⟨hgap', hgo, hitems⟩
    · rw [spread_cons, spread_cons, List.cons_append]

/-- Parts that are scanned into tokens stand apart as the tokens have to. -/
private theorem exists_spread {parts : List Text} (h : Spaced parts t) :
    ∀ ts, ts.map text = parts → Cased ts → scan t = .ok ts →
      ∃ items last, Gapped items last ∧ items.map Prod.snd = ts ∧ spread items last = t := by
  induction h with
  | nil =>
    intro ts hts _ _
    obtain rfl := List.map_eq_nil_iff.mp hts
    exact ⟨[], [], ⟨by simp, by simp, by simp⟩, rfl, rfl⟩
  | blank hc _ ih =>
    intro ts hts hcased hscan
    rw [scan_blank hc] at hscan
    obtain ⟨items, last, hitems, rfl, rfl⟩ := ih ts hts hcased hscan
    exact exists_spread_blank hc hitems hcased
  | part p _ ih =>
    intro ts hts hcased hscan
    obtain ⟨k, us, rfl, rfl, hus⟩ := List.map_eq_cons_iff.mp hts
    -- a sign of definition that goes on would not have been scanned
    obtain ⟨hgo, vs, hvs, hk⟩ := (scan_text_eq_ok hcased).mp hscan
    obtain rfl := (List.cons.inj hk).2
    obtain ⟨items, last, hitems, rfl, rfl⟩ := ih _ hus hcased.tail hvs
    refine ⟨([], k) :: items, last, ?_, rfl, ?_⟩
    · exact (gapped_cons hcased.tail).mpr ⟨by simp, hgo, hitems⟩
    · rw [spread_cons, List.nil_append]

private theorem scan_eq_ok_iff : scan line = .ok ts ↔ Spells line ts := by
  constructor
  · intro h
    obtain ⟨hspaced, hcased⟩ := spaced_of_scan h
    exact ⟨hcased, exists_spread hspaced ts rfl hcased h⟩
  · intro h
    obtain ⟨hcased, items, last, hitems, rfl, rfl⟩ := h
    exact scan_spread hitems hcased

def takeSign (line : Text) : Except Fault (Token × Text) :=
  if line.takeWhile isSignPart = define.text then .ok (define, line.dropWhile isSignPart)
  else .error .brokenSign

def ofChar (c : Char) : Except Fault Token :=
  match Symbol.ofChar? c with
  | some s => .ok (letter s)
  | none => .error (.stray c)

/-- How far a line has been scanned: what is left of it, and the tokens found so far. -/
structure Progress where
  rest : Text
  found : List Token

namespace Progress

/-- One round, unless nothing is left of the line. The first character tells what is taken off. -/
def round (p : Progress) : Option (Except Fault Progress) :=
  match p.rest with
  | [] => none
  | c :: rest =>
      some <|
        if isSignPart c then (takeSign (c :: rest)).map fun (k, rest) => ⟨rest, p.found ++ [k]⟩
        else if c = '|' then .ok ⟨rest, p.found ++ [bar]⟩
        else if Text.isBlank c then .ok ⟨rest, p.found⟩
        else (ofChar c).map fun k => ⟨rest, p.found ++ [k]⟩

/-- Rounds are made until nothing is left of the line or one of them fails. The number counts
them. -/
inductive EndsIn : Progress → Nat → Except Fault (List Token) → Prop where
  | done {p : Progress} (h : p.round = none) : EndsIn p 0 (.ok p.found)
  | fail {p : Progress} {e : Fault} (h : p.round = some (.error e)) : EndsIn p 1 (.error e)
  | again {p q : Progress} {n : Nat} {r : Except Fault (List Token)}
      (h : p.round = some (.ok q)) (hrest : EndsIn q n r) : EndsIn p (n + 1) r

def outcome (p : Progress) : Except Fault (List Token) :=
  (scan p.rest).map (p.found ++ ·)

variable {p q : Progress} {e : Fault} {n : Nat} {r : Except Fault (List Token)} {rest : Text}

private theorem outcome_push (found : List Token) (h : scan t = (scan rest).map (k :: ·)) :
    outcome ⟨rest, found ++ [k]⟩ = outcome ⟨t, found⟩ := by
  simp only [outcome, h]
  cases scan rest <;> simp [Except.map]

private theorem scan_cons_of_isSignPart (hc : isSignPart c = true) (rest : Text) :
    scan (c :: rest) =
      if (c :: rest).takeWhile isSignPart = define.text then
        (scan (rest.dropWhile isSignPart)).map (define :: ·)
      else .error .brokenSign := by
  have hne : (c :: rest).takeWhile isSignPart ≠ [] := by simp [hc]
  have hrun : ∀ d ∈ (c :: rest).takeWhile isSignPart, isSignPart d = true :=
    List.all_eq_true.mp List.all_takeWhile
  have hscan := scan_run hne hrun (goesOn_dropWhile (c :: rest))
  rwa [List.takeWhile_append_dropWhile, List.dropWhile_cons_of_pos hc] at hscan

private theorem round_cons (c : Char) (rest : Text) (found : List Token) :
    round ⟨c :: rest, found⟩ =
      some (if isSignPart c then (takeSign (c :: rest)).map fun (k, rest) => ⟨rest, found ++ [k]⟩
        else if c = '|' then .ok ⟨rest, found ++ [bar]⟩
        else if Text.isBlank c then .ok ⟨rest, found⟩
        else (ofChar c).map fun k => ⟨rest, found ++ [k]⟩) :=
  rfl

/-- What a round can come to: to nothing at the end of a line, to the fault that scanning ends with,
or to less of the line with the same outcome. -/
inductive Leads (p : Progress) : Option (Except Fault Progress) → Prop where
  | done (h : p.outcome = .ok p.found) : Leads p none
  | fail {e : Fault} (hne : p.rest ≠ []) (h : p.outcome = .error e) : Leads p (some (.error e))
  | again {q : Progress} (hshort : q.rest.length < p.rest.length) (h : q.outcome = p.outcome) :
      Leads p (some (.ok q))

private theorem Leads.push (found : List Token) (hshort : rest.length < t.length)
    (h : scan t = (scan rest).map (k :: ·)) : Leads ⟨t, found⟩ (some (.ok ⟨rest, found ++ [k]⟩)) :=
  .again hshort (outcome_push found h)

private theorem Leads.stop (found : List Token) (hne : t ≠ []) (h : scan t = .error e) :
    Leads ⟨t, found⟩ (some (.error e)) :=
  .fail hne (by rw [outcome, h]; rfl)

private theorem leads_sign (hc : isSignPart c = true) (rest : Text) (found : List Token) :
    Leads ⟨c :: rest, found⟩ (round ⟨c :: rest, found⟩) := by
  have hscan := scan_cons_of_isSignPart hc rest
  rw [round_cons, if_pos hc, takeSign, List.dropWhile_cons_of_pos hc]
  by_cases hrun : (c :: rest).takeWhile isSignPart = define.text
  · rw [if_pos hrun] at hscan ⊢
    refine .push found ?_ hscan
    exact Nat.lt_succ_of_le (List.dropWhile_suffix isSignPart).length_le
  · rw [if_neg hrun] at hscan ⊢
    exact .stop found (List.cons_ne_nil c rest) hscan

private theorem leads_char (hc : isSignPart c = false) (rest : Text) (found : List Token) :
    Leads ⟨c :: rest, found⟩ (round ⟨c :: rest, found⟩) := by
  have hshort : rest.length < (c :: rest).length := Nat.lt_succ_self _
  have hscan := scan_cons hc rest
  rw [round_cons, if_neg (Bool.eq_false_iff.mp hc)]
  by_cases hbar : c = '|'
  · rw [if_pos hbar] at hscan ⊢
    exact .push found hshort hscan
  rw [if_neg hbar] at hscan ⊢
  by_cases hblank : Text.isBlank c = true
  · rw [if_pos hblank] at hscan ⊢
    exact .again hshort (by rw [outcome, outcome, hscan])
  rw [if_neg hblank] at hscan ⊢
  rw [ofChar]
  cases hs : Symbol.ofChar? c with
  | some s =>
    rw [hs] at hscan
    exact .push found hshort hscan
  | none =>
    rw [hs] at hscan
    exact .stop found (List.cons_ne_nil c rest) hscan

private theorem leads_round (p : Progress) : Leads p p.round := by
  obtain ⟨t, found⟩ := p
  cases t with
  | nil => exact .done (by simp [outcome, scan, Except.map])
  | cons c rest =>
    cases hc : isSignPart c with
    | true => exact leads_sign hc rest found
    | false => exact leads_char hc rest found

private theorem EndsIn.eq_outcome (h : EndsIn p n r) : n ≤ p.rest.length ∧ r = p.outcome := by
  induction h with
  | @done p h =>
    cases h ▸ leads_round p with
    | done hdone => exact ⟨Nat.zero_le _, hdone.symm⟩
  | @fail p e h =>
    cases h ▸ leads_round p with
    | fail hne hfail => exact ⟨List.length_pos_iff.mpr hne, hfail.symm⟩
  | @again p q n r h _ ih =>
    cases h ▸ leads_round p with
    | again hshort hsame => exact ⟨Nat.lt_of_le_of_lt ih.1 hshort, ih.2.trans hsame⟩

/-- Every round takes something off the line, so rounds come to an end. -/
private theorem exists_endsIn (p : Progress) : ∃ n r, EndsIn p n r := by
  induction hlength : p.rest.length using Nat.strongRecOn generalizing p with
  | ind length ih =>
    cases hround : p.round with
    | none => exact ⟨0, _, .done hround⟩
    | some s =>
      cases s with
      | error e => exact ⟨1, _, .fail hround⟩
      | ok q =>
        cases hround ▸ leads_round p with
        | again hshort _ =>
          obtain ⟨n, r, hrest⟩ := ih _ (hlength ▸ hshort) q rfl
          exact ⟨n + 1, r, .again hround hrest⟩

end Progress

/-- Scanning is exact. A line is scanned into the tokens that it spells and into no others; when it
spells none, scanning fails with the fault of the leftmost offence. Rounds that begin with the line
end after no more of them than the line has characters, and in what the line is scanned into. -/
theorem scanning_is_exact (line : Text) :
    (∀ ts, scan line = .ok ts ↔ Spells line ts) ∧
    (∀ e, scan line = .error e ↔ FirstOffence line e) ∧
    (∃ n ≤ line.length, Progress.EndsIn ⟨line, []⟩ n (scan line)) ∧
    ∀ r, (∃ n, Progress.EndsIn ⟨line, []⟩ n r) ↔ r = scan line := by
  have houtcome : Progress.outcome ⟨line, []⟩ = scan line := by
    rw [Progress.outcome]
    cases scan line <;> rfl
  obtain ⟨n, r, hends⟩ := Progress.exists_endsIn ⟨line, []⟩
  obtain ⟨hn, rfl⟩ := hends.eq_outcome
  rw [houtcome] at hends
  refine ⟨fun ts => scan_eq_ok_iff, fun e => scan_eq_error_iff, ⟨n, hn, hends⟩, fun r => ?_⟩
  constructor
  · intro h
    obtain ⟨m, hm⟩ := h
    rw [hm.eq_outcome.2, houtcome]
  · rintro rfl
    exact ⟨n, hends⟩

example : scan "::=::=".toList = .error .brokenSign ∧
    scan "::= ::=".toList = .ok [define, define] := by decide +kernel

end ChomskyNormal.Token
