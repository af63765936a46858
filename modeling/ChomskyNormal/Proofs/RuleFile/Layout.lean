import ChomskyNormal.Proofs.RuleFile.Reports

/-!
The layout of rule files. Blanks can stand anywhere but within a sign of definition, and lines that
hold no rule can stand between any two lines: none of this changes what is read, except that lines
get other numbers.
-/

set_option autoImplicit false
set_option relaxedAutoImplicit false

namespace ChomskyNormal

namespace Token

/-- Colons and equals signs do not go on from one text into another one. -/
def Apart (u v : Text) : Prop :=
  ∀ c d, u.getLast? = some c → v.head? = some d → isSignPart c = false ∨ isSignPart d = false

variable {u v front back r rest : Text} {s c : Char}

private theorem Apart.within (h : Apart u v) (hfront : front <:+ u) (hback : back <+: v) :
    Apart front back := by
  obtain ⟨u', rfl⟩ := hfront
  obtain ⟨v', rfl⟩ := hback
  intro c d hc hd
  exact h c d (by simp [List.getLast?_append, hc]) (by simp [List.head?_append, hd])

theorem scan_run (hne : r ≠ []) (hr : ∀ c ∈ r, isSignPart c) (hrest : goesOn rest = false) :
    scan (r ++ rest) =
      if r = define.text then (scan rest).map (define :: ·) else .error .brokenSign := by
  by_cases hsign : r = define.text
  · rw [if_pos hsign, hsign]
    exact scan_define hrest
  · have hoff : Offends [] r rest .brokenSign :=
      .run hne hr hsign (by simp) (goesOn_eq_false_iff.mp hrest)
    rw [if_neg hsign]
    exact scan_eq_error_iff.mpr ((firstOffence_iff_of_offends hoff).mpr rfl)

private theorem isSignPart_of_mem_run (hc : isSignPart c = true) :
    ∀ d ∈ c :: u.takeWhile isSignPart, isSignPart d = true := by
  intro d hd
  rcases List.mem_cons.mp hd with rfl | hd
  · exact hc
  · exact List.all_eq_true.mp List.all_takeWhile d hd

private theorem goesOn_dropWhile_append (u : Text)
    (hback : u.dropWhile isSignPart = [] → goesOn back = false) :
    goesOn (u.dropWhile isSignPart ++ back) = false := by
  have hstop := goesOn_dropWhile u
  cases hrest : u.dropWhile isSignPart with
  | nil => exact hback hrest
  | cons c rest =>
    rw [hrest] at hstop
    exact hstop

private theorem Apart.goesOn_eq_false (h : Apart (c :: u) v) (hc : isSignPart c = true) :
    goesOn (u.dropWhile isSignPart ++ v) = false := by
  apply goesOn_dropWhile_append
  intro hall
  have hrun : c :: u.takeWhile isSignPart = c :: u := by
    rw [← List.append_nil (u.takeWhile isSignPart), ← hall, List.takeWhile_append_dropWhile]
  have hmem : (c :: u).getLast (List.cons_ne_nil c u) ∈ c :: u.takeWhile isSignPart := by
    rw [hrun]
    exact List.getLast_mem _
  refine goesOn_eq_false_iff.mpr fun d hd => ?_
  rcases h _ d (List.getLast?_eq_some_getLast _) hd with hno | hno
  · exact absurd (hno.symm.trans (isSignPart_of_mem_run hc _ hmem)) Bool.false_ne_true
  · exact hno

/-- A blank that does not part a run makes no difference to what is scanned. -/
private theorem scan_insert_blank (hs : Text.isBlank s = true) (h : Apart u v) :
    scan (u ++ s :: v) = scan (u ++ v) := by
  induction hn : u.length using Nat.strongRecOn generalizing u with
  | ind n ih =>
    cases u with
    | nil => exact scan_blank hs v
    | cons c u =>
      have hbehind {rest : Text} (hsuffix : rest <:+ u) :
          scan (rest ++ s :: v) = scan (rest ++ v) := by
        have hlength := hsuffix.length_le
        rw [List.length_cons] at hn
        exact ih rest.length (by omega)
          (h.within (hsuffix.trans (List.suffix_cons c u)) (List.prefix_refl v)) rfl
      by_cases hc : isSignPart c = true
      · -- the same run stands in front of both texts
        have hrun : c :: u.takeWhile isSignPart ++ u.dropWhile isSignPart = c :: u := by
          rw [List.cons_append, List.takeWhile_append_dropWhile]
        have hsigns := isSignPart_of_mem_run (u := u) hc
        have hblank : goesOn (u.dropWhile isSignPart ++ s :: v) = false :=
          goesOn_dropWhile_append u fun _ => isSignPart_of_isBlank hs
        rw [← hrun, List.append_assoc, List.append_assoc,
          scan_run (List.cons_ne_nil _ _) hsigns hblank,
          scan_run (List.cons_ne_nil _ _) hsigns (h.goesOn_eq_false hc),
          hbehind (List.dropWhile_suffix isSignPart)]
      · have hno : isSignPart c = false := by simpa using hc
        rw [List.cons_append, List.cons_append, scan_cons hno, scan_cons hno,
          hbehind (List.suffix_refl u)]

end Token

def Text.withReturns (t : Text) : Text :=
  t.flatMap fun c => if c = '\n' then ['\r', '\n'] else [c]

def Located.moved {α : Type} (f : Nat → Nat) (e : Located α) : Located α :=
  ⟨⟨e.location.path, f e.location.line⟩, e.fault⟩

namespace RuleFile

variable {u v line : Text} {s c : Char}

private theorem isRule_cons :
    isRule (c :: line) = if Text.isBlank c then isRule line else c != ';' := by
  by_cases hc : Text.isBlank c = true
  · rw [if_pos hc, isRule, List.dropWhile_cons_of_pos hc, isRule]
  · rw [if_neg hc, isRule, List.dropWhile_cons_of_neg hc]

private theorem isRule_insert_blank (hs : Text.isBlank s = true) :
    isRule (u ++ s :: v) = isRule (u ++ v) := by
  induction u with
  | nil => rw [List.nil_append, List.nil_append, isRule_cons, if_pos hs]
  | cons c u ih => rw [List.cons_append, List.cons_append, isRule_cons, isRule_cons, ih]

def reading? (line : Text) : Option (Except Fault Rule) :=
  if isRule line then some (Rule.ofLine line) else none

private theorem reading?_insert_blank (hs : Text.isBlank s = true) (h : Token.Apart u v) :
    reading? (u ++ s :: v) = reading? (u ++ v) := by
  rw [reading?, reading?, isRule_insert_blank hs, Rule.ofLine, Rule.ofLine,
    Token.scan_insert_blank hs h]

private theorem length_lines (t : Text) : (Text.lines t).length = t.count '\n' + 1 := by
  induction t with
  | nil => rfl
  | cons c t ih =>
    rw [Text.lines, List.splitOn_cons_eq_if_modifyHead]
    by_cases hc : c = '\n'
    · subst hc
      rw [if_pos (by simp), List.length_cons, ← Text.lines, ih, List.count_cons_self]
    · rw [if_neg (by simpa using hc), List.length_modifyHead, ← Text.lines, ih,
        List.count_cons_of_ne hc]

private theorem lines_append_newline (u v : Text) :
    Text.lines (u ++ '\n' :: v) = Text.lines u ++ Text.lines v :=
  List.splitOn_append_cons_self u v

private theorem exists_lines_before (u : Text) :
    ∃ before front, front <:+ u ∧ '\n' ∉ front ∧
      ∀ t, Text.lines (u ++ t) = before ++ Text.lines (front ++ t) := by
  induction u using List.reverseRecOn with
  | nil => exact ⟨[], [], List.suffix_refl _, by simp, fun _ => rfl⟩
  | append_singleton u c ih =>
    obtain ⟨before, front, hsuffix, hfront, hlines⟩ := ih
    by_cases hc : c = '\n'
    · subst hc
      refine ⟨before ++ Text.lines front, [], List.nil_suffix, by simp, ?_⟩
      intro t
      rw [List.append_assoc, hlines, List.singleton_append, lines_append_newline,
        List.append_assoc, List.nil_append]
    · refine ⟨before, front ++ [c], ?_, by simp [hfront, Ne.symm hc], ?_⟩
      · obtain ⟨rest, rfl⟩ := hsuffix
        exact ⟨rest, by rw [List.append_assoc]⟩
      · intro t
        rw [List.append_assoc, hlines, List.append_assoc]

private theorem exists_line_around (u v : Text) :
    ∃ before front back after, front <:+ u ∧ back <+: v ∧ ∀ mid, '\n' ∉ mid →
      Text.lines (u ++ mid ++ v) = before ++ (front ++ mid ++ back) :: after := by
  obtain ⟨before, front, hsuffix, hfront, hlines⟩ := exists_lines_before u
  by_cases hv : '\n' ∈ v
  · obtain ⟨back, rest, rfl, hback⟩ := List.eq_append_cons_of_mem hv
    refine ⟨before, front, back, Text.lines rest, hsuffix, List.prefix_append _ _, ?_⟩
    intro mid hmid
    have hline : Text.lines (front ++ mid ++ back) = [front ++ mid ++ back] :=
      List.splitOn_eq_singleton (by simp [hfront, hmid, hback])
    rw [List.append_assoc u, hlines, ← List.append_assoc mid, ← List.append_assoc front,
      lines_append_newline, ← List.append_assoc front, hline, List.singleton_append]
  · refine ⟨before, front, v, [], hsuffix, List.prefix_refl v, ?_⟩
    intro mid hmid
    have hline : Text.lines (front ++ mid ++ v) = [front ++ mid ++ v] :=
      List.splitOn_eq_singleton (by simp [hfront, hmid, hv])
    rw [List.append_assoc u, hlines, ← List.append_assoc front, hline]

private theorem exists_lines_in_front (hu : u = [] ∨ u.getLast? = some '\n') :
    ∃ before, before.length = u.count '\n' ∧ ∀ t, Text.lines (u ++ t) = before ++ Text.lines t := by
  rcases hu with rfl | hu
  · exact ⟨[], rfl, fun _ => rfl⟩
  · obtain ⟨u, rfl⟩ := List.getLast?_eq_some_iff.mp hu
    refine ⟨Text.lines u, ?_, ?_⟩
    · rw [length_lines, List.count_append, List.count_singleton_self]
    · intro t
      rw [List.append_assoc, List.singleton_append, lines_append_newline]

/-- What is found at some places, under the numbers of the places, of which the first is given. -/
def numbered {α : Type} (first : Nat) (found : List (Option α)) : List (OnLine α) :=
  (found.zipIdx first).filterMap fun (a?, n) => a?.map fun a => (n, a)

private theorem outcomes_eq_numbered (t : Text) :
    outcomes t = numbered 1 ((Text.lines t).map reading?) := by
  rw [outcomes, ruleLines, List.map_map, ← List.filterMap_eq_map, List.filterMap_filter, numbered,
    List.zipIdx_map, List.filterMap_map]
  congr 1
  funext lineNumber
  rcases lineNumber with ⟨line, n⟩
  by_cases hrule : isRule line = true <;> simp [reading?, hrule]

section Numbered

variable {α : Type} {first n : Nat} {a : α} {found found' : List (Option α)}

private theorem numbered_append :
    numbered first (found ++ found') =
      numbered first found ++ numbered (first + found.length) found' := by
  rw [numbered, List.zipIdx_append, List.filterMap_append, numbered, numbered]

private theorem numbered_cons_none :
    numbered first (none :: found) = numbered (first + 1) found := rfl

private theorem numbered_succ :
    numbered (first + 1) found = (numbered first found).map (Prod.map (· + 1) id) := by
  rw [numbered, numbered, List.zipIdx_succ, List.filterMap_map, List.map_filterMap]
  congr 1
  funext an
  simp [Function.comp_def]

private theorem bounds_of_mem_numbered (h : (n, a) ∈ numbered first found) :
    first ≤ n ∧ n < first + found.length := by
  obtain ⟨⟨a?, m⟩, hmem, hsome⟩ := List.mem_filterMap.mp h
  obtain ⟨b, -, hb⟩ := Option.map_eq_some_iff.mp hsome
  obtain ⟨rfl, -⟩ := Prod.mk.inj hb
  obtain ⟨hle, hlt, -⟩ := List.mem_zipIdx hmem
  exact ⟨hle, hlt⟩

end Numbered

/-- The number of a line when a line is put in behind the first lines, as many as given. -/
def moved (k n : Nat) : Nat :=
  if n ≤ k then n else n + 1

private theorem numbered_insert_none {α : Type} (found found' : List (Option α)) :
    numbered 1 (found ++ none :: found') =
      (numbered 1 (found ++ found')).map (Prod.map (moved found.length) id) := by
  have hfront : (numbered 1 found).map (Prod.map (moved found.length) id) = numbered 1 found := by
    conv_rhs => rw [← List.map_id (numbered 1 found)]
    apply List.map_congr_left
    intro a ha
    have hlt := (bounds_of_mem_numbered ha).2
    have hsame : moved found.length a.1 = a.1 := if_pos (by omega)
    rw [Prod.map, hsame]
    rfl
  have hback : (numbered (1 + found.length) found').map (Prod.map (moved found.length) id) =
      numbered (1 + found.length + 1) found' := by
    rw [numbered_succ]
    apply List.map_congr_left
    intro a ha
    have hle := (bounds_of_mem_numbered ha).1
    have hnext : moved found.length a.1 = a.1 + 1 := if_neg (by omega)
    rw [Prod.map, hnext, Prod.map]
  rw [numbered_append, numbered_append, List.map_append, hfront, hback, numbered_cons_none]

section Renumbered

variable {t t' : Text} {f : Nat → Nat}

private theorem filterMap_renumbered {α β : Type} {pick : OnLine α → Option (OnLine β)}
    (hpick : ∀ n a, pick (f n, a) = (pick (n, a)).map (Prod.map f id)) (entries : List (OnLine α)) :
    (entries.map (Prod.map f id)).filterMap pick =
      (entries.filterMap pick).map (Prod.map f id) := by
  rw [List.filterMap_map, List.map_filterMap]
  congr 1
  funext entry
  exact hpick entry.1 entry.2

private theorem malformed_renumbered (h : outcomes t' = (outcomes t).map (Prod.map f id)) :
    malformed t' = (malformed t).map (Prod.map f id) := by
  rw [malformed, h]
  refine filterMap_renumbered ?_ (outcomes t)
  intro n result
  cases result <;> rfl

private theorem rules_renumbered (h : outcomes t' = (outcomes t).map (Prod.map f id)) :
    rules t' = (rules t).map (Prod.map f id) := by
  rw [rules, h]
  refine filterMap_renumbered ?_ (outcomes t)
  intro n result
  cases result <;> rfl

private theorem undefinedUses_renumbered (rs : List (OnLine Rule)) :
    undefinedUses (rs.map (Prod.map f id)) = (undefinedUses rs).map (Prod.map f id) := by
  simp only [undefinedUses, List.flatMap_map, List.map_flatMap, List.map_map, Function.comp_def,
    Prod.map_snd, id_eq]
  rfl

private theorem faults_renumbered (h : outcomes t' = (outcomes t).map (Prod.map f id)) :
    faults t' = (faults t).map (Prod.map f id) := by
  have hbad := malformed_renumbered h
  by_cases hnone : malformed t = []
  · rw [faults_of_spelled hnone, faults_of_spelled (by rw [hbad, hnone, List.map_nil]),
      rules_renumbered h, undefinedUses_renumbered]
  · rw [faults_of_malformed hnone, ← hbad, faults_of_malformed (by simpa [hbad] using hnone)]

private theorem map_snd_calls_renumbered (rs : List (OnLine Rule)) :
    (calls (rs.map (Prod.map f id))).map Prod.snd = (calls rs).map Prod.snd := by
  have hrules : (rs.map (Prod.map f id)).map Prod.snd = rs.map Prod.snd := by
    rw [List.map_map]
    rfl
  simp only [calls, List.map_append, map_snd_headCalls, map_snd_terminalCalls, map_snd_startCalls,
    map_snd_productionCalls, hrules]

/-- Renumbering the lines changes nothing but the lines of what is reported. -/
private theorem read_renumbered (path : Text) (h : outcomes t' = (outcomes t).map (Prod.map f id)) :
    read path t' = (read path t).mapError (List.map (Located.moved f)) := by
  have hgrammar : grammar t' = grammar t := by
    rw [grammar, rules_renumbered h, map_snd_calls_renumbered, grammar]
  rw [read, read, faults_renumbered h, hgrammar]
  cases faults t with
  | nil => rfl
  | cons found more =>
    simp only [List.map_cons, List.map_map, Except.mapError, Function.comp_def]
    rfl

end Renumbered

private theorem read_insert_blank (path : Text) (hs : Text.isBlank s = true) (hn : s ≠ '\n')
    (h : Token.Apart u v) : read path (u ++ s :: v) = read path (u ++ v) := by
  obtain ⟨before, front, back, after, hfront, hback, hlines⟩ := exists_line_around u v
  have hblank : Text.lines (u ++ s :: v) = before ++ (front ++ s :: back) :: after := by
    have hline := hlines [s] (by simpa using Ne.symm hn)
    rwa [List.append_assoc, List.append_assoc, List.singleton_append,
      List.singleton_append] at hline
  have hnone : Text.lines (u ++ v) = before ++ (front ++ back) :: after := by
    have hline := hlines [] (by simp)
    rwa [List.append_nil, List.append_nil] at hline
  have houtcomes : outcomes (u ++ s :: v) = outcomes (u ++ v) := by
    rw [outcomes_eq_numbered, outcomes_eq_numbered, hblank, hnone, List.map_append, List.map_append,
      List.map_cons, List.map_cons, reading?_insert_blank hs (h.within hfront hback)]
  simp only [read, faults, grammar, malformed, rules, houtcomes]

private theorem read_withReturns (path t : Text) : read path t.withReturns = read path t := by
  -- what is in front of the line feeds still to come does not matter
  have hbehind : ∀ front, read path (front ++ t.withReturns) = read path (front ++ t) := by
    induction t with
    | nil => exact fun _ => rfl
    | cons c t ih =>
      intro front
      have hrest := ih (front ++ [c])
      rw [List.append_assoc, List.append_assoc] at hrest
      by_cases hc : c = '\n'
      · subst hc
        have happart : Token.Apart front ('\n' :: Text.withReturns t) := by
          intro _ d _ hd
          obtain rfl : '\n' = d := by simpa using hd
          exact .inr (by decide)
        exact (read_insert_blank path (by decide) (by decide) happart).trans hrest
      · have hkeep : Text.withReturns (c :: t) = c :: Text.withReturns t := by
          simp [Text.withReturns, hc]
        rw [hkeep]
        exact hrest
  exact hbehind []

private theorem read_insert_line (path : Text) (hu : u = [] ∨ u.getLast? = some '\n')
    (hline : '\n' ∉ line) (hidle : ¬ HoldsRule line) :
    read path (u ++ line ++ '\n' :: v) =
      (read path (u ++ v)).mapError (List.map (Located.moved (moved (u.count '\n')))) := by
  obtain ⟨before, hlength, hlines⟩ := exists_lines_in_front hu
  have hone : Text.lines line = [line] := List.splitOn_eq_singleton hline
  have hnothing : reading? line = none := if_neg fun hrule => hidle (isRule_iff.mp hrule)
  have hnew : (Text.lines (u ++ line ++ '\n' :: v)).map reading? =
      before.map reading? ++ none :: (Text.lines v).map reading? := by
    rw [List.append_assoc, hlines, lines_append_newline, hone, List.singleton_append,
      List.map_append, List.map_cons, hnothing]
  have hold : (Text.lines (u ++ v)).map reading? =
      before.map reading? ++ (Text.lines v).map reading? := by
    rw [hlines, List.map_append]
  apply read_renumbered
  rw [outcomes_eq_numbered, outcomes_eq_numbered, hnew, hold, numbered_insert_none,
    List.length_map, hlength]

/-- The layout of a text does not matter. A blank that is put in anywhere but between colons and
equals signs, and is no line feed, changes neither the grammar nor the report; nor do carriage
returns in front of all line feeds. A line that holds no rule, put in between any two lines, in
front of all or behind all, leaves the grammar as it is, and of a report it changes only the numbers
of the lines from there on, which go up by one. -/
theorem read_ignores_layout (path : Text) :
    (∀ u v s, Text.isBlank s = true → s ≠ '\n' → Token.Apart u v →
      read path (u ++ s :: v) = read path (u ++ v)) ∧
    (∀ t, read path (Text.withReturns t) = read path t) ∧
    ∀ u v line, u = [] ∨ u.getLast? = some '\n' → '\n' ∉ line → ¬ HoldsRule line →
      (∀ g, read path (u ++ v) = .ok g → read path (u ++ line ++ '\n' :: v) = .ok g) ∧
      ∀ report, read path (u ++ v) = .error report →
        read path (u ++ line ++ '\n' :: v) = .error (report.map fun e =>
          if e.location.line ≤ u.count '\n' then e
          else ⟨⟨e.location.path, e.location.line + 1⟩, e.fault⟩) := by
  refine ⟨fun u v s => read_insert_blank path, read_withReturns path, ?_⟩
  intro u v line hu hline hidle
  have hread := read_insert_line (v := v) path hu hline hidle
  refine ⟨?_, ?_⟩
  · intro g hg
    rw [hread, hg]
    rfl
  · intro report hreport
    have hmoved : Located.moved (moved (u.count '\n')) = fun e : Located Fault =>
        if e.location.line ≤ u.count '\n' then e
        else ⟨⟨e.location.path, e.location.line + 1⟩, e.fault⟩ := by
      funext e
      rw [Located.moved, moved]
      split <;> rfl
    rw [hread, hreport, ← hmoved]
    rfl

/-- A tabulator between two nonterminals is not seen, and a comment behind the first line moves the
fault on the second line to the third one. -/
theorem sums_read_layout :
    read "sums".toList ("S::=A".toList ++ '\t' :: "A\nA::=a".toList) =
      .ok ⟨[('S', [.binary 'A' 'A']), ('A', [.terminal 'a'])], ['a'], some 'S'⟩ ∧
    read "sums".toList ("S::=AA\n".toList ++ " ; note".toList ++ '\n' :: "A:=a".toList) =
      .error [⟨⟨"sums".toList, 3⟩, .brokenSign⟩] := by
  obtain ⟨hblank, -, hline⟩ := read_ignores_layout "sums".toList
  refine ⟨?_, ?_⟩
  · rw [hblank _ _ _ (by decide) (by decide) (fun c d hc _ => ?_)]
    · decide +kernel
    · obtain rfl : 'A' = c := by simpa using hc
      exact .inl (by decide)
  · have hidle : ¬ HoldsRule " ; note".toList := by
      rw [← isRule_iff]
      decide +kernel
    have hfault : read "sums".toList ("S::=AA\n".toList ++ "A:=a".toList) =
        .error [⟨⟨"sums".toList, 2⟩, .brokenSign⟩] := by
      decide +kernel
    exact (hline _ _ _ (.inr (by decide)) (by decide) hidle).2 _ hfault

end RuleFile

end ChomskyNormal
