import ChomskyNormal.Proofs.FirstOccurrences
import ChomskyNormal.Proofs.Grammar.Changes
import ChomskyNormal.Proofs.RuleFile.Rules
import ChomskyNormal.RuleFile

/-!
Building a grammar from rules. When every nonterminal in use heads a rule, all the calls that
the rules make are accepted, one phase after another, and lead to the grammar that the rules denote.
-/

set_option autoImplicit false
set_option relaxedAutoImplicit false

namespace ChomskyNormal

inductive Accepts : Grammar → List Call → Grammar → Prop where
  | nil (g : Grammar) : Accepts g [] g
  | cons {g g' g'' : Grammar} {call : Call} {calls : List Call} (h : call.perform g = .ok g')
      (rest : Accepts g' calls g'') : Accepts g (call :: calls) g''

namespace Accepts

variable {g g' g'' : Grammar} {calls calls' : List Call}

private theorem append (h : Accepts g calls g') (h' : Accepts g' calls' g'') :
    Accepts g (calls ++ calls') g'' := by
  induction h with
  | nil g => exact h'
  | cons hcall _ ih => exact .cons hcall (ih h')

theorem afterAll_eq (h : Accepts g calls g') : g.afterAll calls = g' := by
  induction h with
  | nil g => rfl
  | cons hcall _ ih =>
    rw [Grammar.afterAll, List.foldl_cons, Call.after, hcall]
    exact ih

theorem refusals_eq_nil {cs : List (RuleFile.OnLine Call)} (h : Accepts g (cs.map Prod.snd) g') :
    RuleFile.refusals g cs = [] := by
  induction cs generalizing g with
  | nil => rfl
  | cons c cs ih =>
    obtain ⟨n, call⟩ := c
    cases h with
    | cons hcall rest =>
      simp only [RuleFile.refusals, Call.refusal?, Call.after, hcall]
      exact ih rest

private theorem addEach (call : Char → Call) (known : Grammar → List Char)
    (add : Grammar → List Char → Grammar) {fits : Char → Prop} (hnil : ∀ g, add g [] = g)
    (hcons : ∀ g x names, add (add g [x]) names = add g (x :: names))
    (hknown : ∀ g x, known (add g [x]) = known g ++ [x])
    (hcall : ∀ g x, fits x → x ∉ known g → (call x).perform g = .ok (add g [x]))
    {names : List Char} (hnodup : names.Nodup) (hfits : ∀ x ∈ names, fits x)
    (hnew : ∀ x ∈ names, x ∉ known g) : Accepts g (names.map call) (add g names) := by
  induction names generalizing g with
  | nil =>
    rw [hnil]
    exact .nil g
  | cons x names ih =>
    obtain ⟨hx, hnodup⟩ := List.nodup_cons.mp hnodup
    have hfirst := hcall g x (hfits x List.mem_cons_self) (hnew x List.mem_cons_self)
    rw [← hcons]
    refine .cons hfirst (ih hnodup ?_ ?_)
    · intro y hy
      exact hfits y (List.mem_cons_of_mem x hy)
    · intro y hy hmem
      rw [hknown] at hmem
      rcases List.mem_append.mp hmem with hmem | hmem
      · exact hnew y (List.mem_cons_of_mem x hy) hmem
      · exact hx (List.mem_singleton.mp hmem ▸ hy)

private theorem declareNonterminals {names : List Char} (hnodup : names.Nodup)
    (hupper : ∀ x ∈ names, Symbol.isUpper x) (hnew : ∀ x ∈ names, x ∉ g.nonterminals) :
    Accepts g (names.map .declareNonterminal)
      { g with rules := g.rules ++ names.map fun x => (x, []) } := by
  refine addEach .declareNonterminal Grammar.nonterminals
    (fun g names => { g with rules := g.rules ++ names.map fun x => (x, []) })
    ?_ ?_ ?_ ?_ hnodup hupper hnew
  · intro g
    simp
  · intro g x names
    simp
  · intro g x
    exact Grammar.nonterminals_append_rule g x []
  · intro g x hx hn
    exact Grammar.declareNonterminal_eq_ok.mpr ⟨hx, hn, rfl⟩

private theorem declareTerminals {names : List Char} (hnodup : names.Nodup)
    (hlower : ∀ a ∈ names, Symbol.isLower a) (hnew : ∀ a ∈ names, a ∉ g.terminals) :
    Accepts g (names.map .declareTerminal) { g with terminals := g.terminals ++ names } := by
  refine addEach .declareTerminal Grammar.terminals
    (fun g names => { g with terminals := g.terminals ++ names })
    ?_ ?_ ?_ ?_ hnodup hlower hnew
  · intro g
    simp
  · intro g a names
    simp
  · intro g a
    rfl
  · intro g a ha hn
    exact Grammar.declareTerminal_eq_ok.mpr ⟨ha, hn, rfl⟩

end Accepts

namespace Grammar

def withAll (g : Grammar) (additions : List (Char × Production)) : Grammar :=
  additions.foldl (fun g a => g.withProduction a.1 a.2) g

variable {g : Grammar} {x : Char} {additions : List (Char × Production)}

private theorem withAll_cons (a : Char × Production) :
    g.withAll (a :: additions) = (g.withProduction a.1 a.2).withAll additions := rfl

private theorem nonterminals_withAll : (g.withAll additions).nonterminals = g.nonterminals := by
  induction additions generalizing g with
  | nil => rfl
  | cons a additions ih => rw [withAll_cons, ih, nonterminals_withProduction]

private theorem terminals_withAll : (g.withAll additions).terminals = g.terminals := by
  induction additions generalizing g with
  | nil => rfl
  | cons a additions ih => rw [withAll_cons, ih, terminals_withProduction]

private theorem start_withAll : (g.withAll additions).start = g.start := by
  induction additions generalizing g with
  | nil => rfl
  | cons a additions ih => rw [withAll_cons, ih, start_withProduction]

private theorem productions_withAll (hx : x ∈ g.nonterminals) (hnodup : (g.productions x).Nodup) :
    (g.withAll additions).productions x =
      (g.productions x ++ (additions.filter (·.1 = x)).map Prod.snd).eraseDups := by
  induction additions generalizing g with
  | nil =>
    rw [List.filter_nil, List.map_nil, List.append_nil,
      FirstOccurrences.eraseDups_of_nodup hnodup]
    rfl
  | cons a additions ih =>
    obtain ⟨y, p⟩ := a
    have hx' : x ∈ (g.withProduction y p).nonterminals := by
      rw [nonterminals_withProduction]
      exact hx
    rw [withAll_cons]
    by_cases hy : y = x
    · subst hy
      have hhead : (((y, p) :: additions).filter (·.1 = y)).map Prod.snd =
          p :: (additions.filter (·.1 = y)).map Prod.snd := by
        rw [List.filter_cons_of_pos (by simp), List.map_cons]
      rw [hhead]
      by_cases hp : p ∈ g.productions y
      · have hsame : (g.withProduction y p).productions y = g.productions y := by
          rw [productions_withProduction, if_neg fun h => h.2.2 hp]
        rw [ih hx' (hsame ▸ hnodup), hsame, FirstOccurrences.eraseDups_append_cons_of_mem hp]
      · have hmore : (g.withProduction y p).productions y = g.productions y ++ [p] := by
          rw [productions_withProduction, if_pos ⟨rfl, hx, hp⟩]
        have hnodup' : (g.productions y ++ [p]).Nodup := by
          simpa using hnodup.concat hp
        rw [ih hx' (hmore ▸ hnodup'), hmore,
          List.append_cons _ p (List.map _ _)]
    · have hsame : (g.withProduction y p).productions x = g.productions x :=
        productions_withProduction_of_ne g p (Ne.symm hy)
      rw [ih hx' (hsame ▸ hnodup), hsame, List.filter_cons_of_neg (by simpa using hy)]

end Grammar

private theorem Accepts.addProductions {g : Grammar} {additions : List (Char × Production)}
    (h : ∀ a ∈ additions, a.1 ∈ g.nonterminals ∧ ∀ s ∈ a.2.symbols, s.HasCase ∧ g.Declares s) :
    Accepts g (additions.map fun a => .addProduction a.1 a.2.text) (g.withAll additions) := by
  induction additions generalizing g with
  | nil => exact .nil g
  | cons a additions ih =>
    obtain ⟨hx, hp⟩ := h a List.mem_cons_self
    have hread : g.productionOf a.1 a.2.text = .ok a.2 :=
      Grammar.productionOf_eq_ok.mpr
        ⟨hx, Production.ofText?_text fun s hs => (hp s hs).1, fun s hs => (hp s hs).2⟩
    have hcall : g.addProduction a.1 a.2.text = .ok (g.withProduction a.1 a.2) :=
      Grammar.addProduction_eq_ok.mpr ⟨a.2, hread, rfl⟩
    refine .cons hcall (ih ?_)
    intro b hb
    simpa using h b (List.mem_cons_of_mem a hb)

namespace RuleFile

def lettersOf (rs : List Rule) : List Char :=
  rs.flatMap fun r => r.alternatives.filterMap Production.letter?

def alternativesFor (rs : List Rule) (x : Char) : List Production :=
  (rs.filter fun r => r.head = x).flatMap Rule.alternatives

/-- The grammar that rules denote, seen from outside: heads, letters and alternatives each stand
where they come first, and the first head is the start symbol. -/
structure Denotes (rs : List Rule) (g : Grammar) : Prop where
  nonterminals : g.nonterminals = (rs.map Rule.head).eraseDups
  terminals : g.terminals = (lettersOf rs).eraseDups
  start : g.start = (rs.map Rule.head).head?
  productions : ∀ x, g.productions x = (alternativesFor rs x).eraseDups

/-- Every nonterminal in use heads a rule. -/
def Closed (rs : List Rule) : Prop :=
  ∀ r ∈ rs, ∀ p ∈ r.alternatives, ∀ x ∈ p.nonterminals, ∃ r' ∈ rs, r'.head = x

variable {rs : List Rule} {g g' : Grammar}

/-- Rules denote one grammar at most. -/
theorem Denotes.unique (h : Denotes rs g) (h' : Denotes rs g') : g = g' := by
  apply Grammar.eq_of_views
  · rw [h.nonterminals]
    exact FirstOccurrences.nodup_eraseDups _
  · rw [h.nonterminals, h'.nonterminals]
  · intro x
    rw [h.productions, h'.productions]
  · rw [h.terminals, h'.terminals]
  · rw [h.start, h'.start]

def additions (rs : List Rule) : List (Char × Production) :=
  rs.flatMap fun r => r.alternatives.map fun p => (r.head, p)

/-- The grammar that has all declarations of rules but none of their productions. -/
def declared (rs : List Rule) : Grammar :=
  ⟨(rs.map Rule.head).eraseDups.map fun x => (x, []), (lettersOf rs).eraseDups,
    (rs.map Rule.head).head?⟩

private theorem nonterminals_declared :
    (declared rs).nonterminals = (rs.map Rule.head).eraseDups := by
  rw [Grammar.nonterminals, declared, List.map_map]
  exact List.map_id _

private theorem productions_declared (x : Char) : (declared rs).productions x = [] := by
  have hnone (names : List Char) :
      ((names.map fun y => (y, ([] : List Production))).lookup x).getD [] = [] := by
    induction names with
    | nil => rfl
    | cons y names ih =>
      rw [List.map_cons, List.lookup_cons]
      cases x == y with
      | true => rfl
      | false => exact ih
  exact hnone _

private theorem filter_additions (x : Char) :
    ((additions rs).filter (·.1 = x)).map Prod.snd = alternativesFor rs x := by
  induction rs with
  | nil => rfl
  | cons r rs ih =>
    have hcons : additions (r :: rs) = r.alternatives.map (fun p => (r.head, p)) ++ additions rs :=
      List.flatMap_cons
    rw [hcons, List.filter_append, List.map_append, ih, alternativesFor, alternativesFor]
    by_cases hx : r.head = x
    · simp [hx, List.filter_map, Function.comp_def]
    · simp [hx]

private theorem denotes_withAll_additions (rs : List Rule) :
    Denotes rs ((declared rs).withAll (additions rs)) where
  nonterminals := by rw [Grammar.nonterminals_withAll, nonterminals_declared]
  terminals := Grammar.terminals_withAll
  start := Grammar.start_withAll
  productions x := by
    by_cases hx : x ∈ (declared rs).nonterminals
    · have hnodup : ((declared rs).productions x).Nodup := by
        rw [productions_declared]
        exact List.nodup_nil
      rw [Grammar.productions_withAll hx hnodup, productions_declared, List.nil_append,
        filter_additions]
    · have hnone : (rs.filter fun r => r.head = x) = [] := by
        rw [nonterminals_declared, List.mem_eraseDups] at hx
        apply List.filter_eq_nil_iff.mpr
        intro r hr
        simpa using fun h : r.head = x => hx (List.mem_map.mpr ⟨r, hr, h⟩)
      rw [Grammar.productions_eq_nil (by rwa [Grammar.nonterminals_withAll]), alternativesFor,
        hnone]
      rfl

section Calls

variable {numbered : List (OnLine Rule)}

private theorem map_snd_firstOnly (cs : List (OnLine Call)) :
    (firstOnly cs).map Prod.snd = (cs.map Prod.snd).eraseDups := by
  induction cs with
  | nil => rfl
  | cons c cs ih =>
    obtain ⟨n, call⟩ := c
    have hcons : firstOnly ((n, call) :: cs) =
        (n, call) :: (firstOnly cs).filter fun d => d.2 ≠ call := rfl
    have hlater : ((firstOnly cs).filter fun d => d.2 ≠ call).map Prod.snd =
        ((firstOnly cs).map Prod.snd).filter fun c => !c == call := by
      rw [List.filter_map]
      congr 1
      apply List.filter_congr
      intro d _
      by_cases hd : d.2 = call
      · simp [hd]
      · simp [hd]
    rw [hcons, List.map_cons, hlater, ih, ← FirstOccurrences.eraseDups_filter, List.map_cons,
      List.eraseDups_cons]

theorem map_snd_headCalls :
    (headCalls numbered).map Prod.snd =
      ((numbered.map Prod.snd).map Rule.head).eraseDups.map .declareNonterminal := by
  rw [headCalls, map_snd_firstOnly,
    ← FirstOccurrences.eraseDups_map fun _ _ h => Call.declareNonterminal.inj h]
  simp only [List.map_map, Function.comp_def]

theorem map_snd_terminalCalls :
    (terminalCalls numbered).map Prod.snd =
      (lettersOf (numbered.map Prod.snd)).eraseDups.map .declareTerminal := by
  rw [terminalCalls, map_snd_firstOnly,
    ← FirstOccurrences.eraseDups_map fun _ _ h => Call.declareTerminal.inj h]
  simp only [lettersOf, List.map_flatMap, List.flatMap_map, List.map_map, Function.comp_def]

theorem map_snd_startCalls :
    (startCalls numbered).map Prod.snd =
      ((numbered.map Prod.snd).map Rule.head).head?.toList.map .setStart := by
  cases numbered <;> rfl

theorem map_snd_productionCalls :
    (productionCalls numbered).map Prod.snd =
      (additions (numbered.map Prod.snd)).map fun a => .addProduction a.1 a.2.text := by
  simp only [productionCalls, additions, List.map_flatMap, List.flatMap_map, List.map_map,
    Function.comp_def]

theorem undefinedUses_eq_nil_iff :
    undefinedUses numbered = [] ↔ Closed (numbered.map Prod.snd) := by
  simp only [undefinedUses, List.flatMap_eq_nil_iff, List.map_eq_nil_iff, List.filter_eq_nil_iff,
    List.mem_flatMap, decide_eq_true_eq, not_not, List.mem_map, Closed]
  constructor
  · intro h r hr p hp x hx
    obtain ⟨⟨n, r⟩, hr, rfl⟩ := hr
    obtain ⟨⟨m, r'⟩, hr', hx'⟩ := h (n, r) hr x ⟨p, hp, hx⟩
    exact ⟨r', ⟨(m, r'), hr', rfl⟩, hx'⟩
  · intro h nr hr x hx
    obtain ⟨p, hp, hx⟩ := hx
    obtain ⟨r', ⟨mr', hr', rfl⟩, hx'⟩ := h nr.2 ⟨nr, hr, rfl⟩ p hp x hx
    exact ⟨mr', hr', hx'⟩

end Calls

private theorem lettersOf_isLower (hcased : ∀ r ∈ rs, r.Cased) :
    ∀ a ∈ lettersOf rs, Symbol.isLower a := by
  intro a ha
  obtain ⟨r, hr, ha⟩ := List.mem_flatMap.mp ha
  obtain ⟨p, hp, ha⟩ := List.mem_filterMap.mp ha
  cases p with
  | terminal b =>
    cases ha
    exact (hcased r hr).2 (.terminal a) hp (.terminal a) List.mem_cons_self
  | binary b c => cases ha

private theorem declares_of_mem_additions (hcased : ∀ r ∈ rs, r.Cased) (hclosed : Closed rs) :
    ∀ a ∈ additions rs, a.1 ∈ (declared rs).nonterminals ∧
      ∀ s ∈ a.2.symbols, s.HasCase ∧ (declared rs).Declares s := by
  intro a ha
  obtain ⟨r, hr, ha⟩ := List.mem_flatMap.mp ha
  obtain ⟨p, hp, rfl⟩ := List.mem_map.mp ha
  have hhead {x : Char} (h : ∃ r' ∈ rs, r'.head = x) : x ∈ (declared rs).nonterminals := by
    rw [nonterminals_declared, List.mem_eraseDups]
    exact List.mem_map.mpr h
  refine ⟨hhead ⟨r, hr, rfl⟩, ?_⟩
  intro s hs
  refine ⟨(hcased r hr).2 p hp s hs, ?_⟩
  cases p with
  | terminal b =>
    obtain rfl := List.mem_singleton.mp hs
    show b ∈ (lettersOf rs).eraseDups
    rw [List.mem_eraseDups]
    exact List.mem_flatMap.mpr ⟨r, hr, List.mem_filterMap.mpr ⟨.terminal b, hp, rfl⟩⟩
  | binary b c =>
    have hused := hclosed r hr (.binary b c) hp
    rcases List.mem_cons.mp hs with rfl | hs
    · exact hhead (hused b List.mem_cons_self)
    · obtain rfl := List.mem_singleton.mp hs
      exact hhead (hused c (List.mem_cons_of_mem b List.mem_cons_self))

private theorem accepts_declarations (hcased : ∀ r ∈ rs, r.Cased) :
    Accepts .empty ((rs.map Rule.head).eraseDups.map .declareNonterminal ++
      (lettersOf rs).eraseDups.map .declareTerminal ++
      (rs.map Rule.head).head?.toList.map .setStart) (declared rs) := by
  have hupper : ∀ x ∈ (rs.map Rule.head).eraseDups, Symbol.isUpper x := by
    intro x hx
    obtain ⟨r, hr, rfl⟩ := List.mem_map.mp (List.mem_eraseDups.mp hx)
    exact (hcased r hr).1
  have hlower : ∀ a ∈ (lettersOf rs).eraseDups, Symbol.isLower a := by
    intro a ha
    exact lettersOf_isLower hcased a (List.mem_eraseDups.mp ha)
  refine .append (.append
    (.declareNonterminals (FirstOccurrences.nodup_eraseDups _) hupper (by simp))
    (.declareTerminals (FirstOccurrences.nodup_eraseDups _) hlower (by simp [Grammar.empty]))) ?_
  cases rs with
  | nil => exact .nil _
  | cons r rs =>
    refine .cons (Grammar.setStart_eq_ok.mpr ⟨?_, rfl⟩) (.nil _)
    show r.head ∈ (declared (r :: rs)).nonterminals
    rw [nonterminals_declared, List.mem_eraseDups]
    exact List.mem_cons_self

/-- All calls of rules in the right case are accepted when no use is undefined, and the grammar
that they lead to is the one that the rules denote. -/
theorem accepts_calls {numbered : List (OnLine Rule)}
    (hcased : ∀ r ∈ numbered.map Prod.snd, r.Cased) (hclosed : Closed (numbered.map Prod.snd)) :
    ∃ g, Accepts .empty ((calls numbered).map Prod.snd) g ∧
      Denotes (numbered.map Prod.snd) g := by
  refine ⟨_, ?_, denotes_withAll_additions _⟩
  rw [calls, List.map_append, List.map_append, List.map_append, map_snd_headCalls,
    map_snd_terminalCalls, map_snd_startCalls, map_snd_productionCalls]
  exact .append (accepts_declarations hcased)
    (.addProductions (declares_of_mem_additions hcased hclosed))

end RuleFile

end ChomskyNormal
