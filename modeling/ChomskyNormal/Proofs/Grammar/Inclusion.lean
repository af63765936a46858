import ChomskyNormal.Proofs.Membership

/-!
Grammars within grammars. When one grammar has all productions of another one, each cell of its
tables holds the nonterminals that the same cell holds for the other, whatever the orders in which
the two were declared. Positions in cells mean nothing across grammars; only names do.
-/

set_option autoImplicit false
set_option relaxedAutoImplicit false

namespace ChomskyNormal

def Call.adds : Call → Bool
  | declareNonterminal _ => true
  | declareTerminal _ => true
  | addProduction _ _ => true
  | setStart _ => false
  | clear => false

namespace Grammar

/-- All productions of a grammar are productions of another one, for the same nonterminals. -/
def Within (g h : Grammar) : Prop :=
  ∀ x, g.productions x ⊆ h.productions x

/-- Two grammars agree when they have the same declarations and productions, in whatever orders. -/
structure Agrees (g h : Grammar) : Prop where
  nonterminals : ∀ x, x ∈ g.nonterminals ↔ x ∈ h.nonterminals
  terminals : ∀ a, a ∈ g.terminals ↔ a ∈ h.terminals
  productions : ∀ x p, p ∈ g.productions x ↔ p ∈ h.productions x

variable {g h : Grammar} {w : Text} {x : Char} {t u : Table} {call : Call}

private theorem within_iff :
    Within g h ↔ ∀ x ∈ g.nonterminals, g.productions x ⊆ h.productions x := by
  constructor
  · intro hwithin x _
    exact hwithin x
  · intro hdeclared x p hp
    exact hdeclared x (mem_nonterminals_of_mem_productions hp) hp

/-- It is decided along the declared nonterminals, not over all characters. -/
instance : Decidable (Within g h) :=
  decidable_of_iff (g.nonterminals.all fun x => decide (g.productions x ⊆ h.productions x))
    (by simp only [within_iff, List.all_eq_true, decide_eq_true_eq])

namespace Within

private theorem refl (g : Grammar) : Within g g := fun _ => List.Subset.refl _

private theorem trans {k : Grammar} (hgh : Within g h) (hhk : Within h k) : Within g k :=
  fun x => List.Subset.trans (hgh x) (hhk x)

theorem follows {d : Derivation} (hgh : Within g h) (hd : d.Follows g) : d.Follows h := by
  induction d with
  | leaf x a => exact hgh x hd
  | node x left right ihl ihr =>
    obtain ⟨hp, hl, hr⟩ := hd
    exact ⟨hgh x hp, ihl hl, ihr hr⟩

private theorem generates (hgh : Within g h) (hw : g.Generates x w) : h.Generates x w := by
  obtain ⟨d, hd, hroot, hword⟩ := generates_iff_exists_tree.mp hw
  exact generates_iff_exists_tree.mpr ⟨d, hgh.follows hd, hroot, hword⟩

/-- Cell by cell, the table under the larger grammar contains what the other one contains. -/
private theorem contains_ofWord (hgh : Within g h) (hg : g.WellFormed) (hh : h.WellFormed)
    {i j : Nat} (hx : (Table.ofWord g w).contains i j x = true) :
    (Table.ofWord h w).contains i j x = true := by
  by_cases hij : i ≤ j ∧ j < w.length
  · obtain ⟨hle, hlt⟩ := hij
    exact (Table.contains_ofWord hh x hle hlt).mpr
      (hgh.generates ((Table.contains_ofWord hg x hle hlt).mp hx))
  · -- outside the triangle no table contains anything
    have hout : ¬ (i ≤ j ∧ j < (Table.ofWord g w).length) := hij
    rw [Table.contains, if_neg hout] at hx
    cases hx

private theorem derives (hgh : Within g h) (hg : g.WellFormed) (hh : h.WellFormed)
    (hstart : g.start = h.start) (hw : g.derives w = .ok true) : h.derives w = .ok true := by
  obtain ⟨x, hx, hgen⟩ := (derives_eq_true_iff hg).mp hw
  exact (derives_eq_true_iff hh).mpr ⟨x, hstart ▸ hx, hgh.generates hgen⟩

private theorem contains_eq (hgh : Within g h) (hhg : Within h g) (hg : g.WellFormed)
    (hh : h.WellFormed) (w : Text) : (Table.ofWord g w).contains = (Table.ofWord h w).contains := by
  funext i j x
  rw [Bool.eq_iff_iff]
  exact ⟨hgh.contains_ofWord hg hh, hhg.contains_ofWord hh hg⟩

private theorem accepts_eq (hgh : Within g h) (hhg : Within h g) (hg : g.WellFormed)
    (hh : h.WellFormed) (w : Text) : (Table.ofWord g w).accepts = (Table.ofWord h w).accepts := by
  funext x
  rw [Table.accepts, Table.accepts, hgh.contains_eq hhg hg hh w]
  rfl

private theorem accepts_start_eq (hgh : Within g h) (hhg : Within h g) (hg : g.WellFormed)
    (hh : h.WellFormed) (hstart : g.start = h.start) (w : Text) :
    g.accepts (.ofWord g w) = h.accepts (.ofWord h w) := by
  rw [accepts, accepts, hstart, hgh.accepts_eq hhg hg hh]

end Within

/-- Grammars that agree give the same answers about all words, refusals included, when they have the
same start symbol. -/
theorem Agrees.derives_eq (hgh : Agrees g h) (hg : g.WellFormed) (hh : h.WellFormed)
    (hstart : g.start = h.start) (w : Text) : g.derives w = h.derives w := by
  have hwithin : Within g h := fun x p => (hgh.productions x p).mp
  have hwithin' : Within h g := fun x p => (hgh.productions x p).mpr
  have hnone : g.nonterminals = [] ↔ h.nonterminals = [] := by
    simp only [List.eq_nil_iff_forall_not_mem, hgh.nonterminals]
  have hunfit : g.unfit? w = h.unfit? w := by
    simp only [unfit?, hgh.terminals, hnone, hstart]
  have haccepts := hwithin.accepts_start_eq hwithin' hg hh hstart w
  rw [derives, derives, table, table, hunfit]
  cases h.unfit? w with
  | some reason => rfl
  | none => exact congrArg Except.ok haccepts

private theorem within_after (hadds : call.adds) :
    Within g (call.after g) ∧ (call.after g).start = g.start := by
  rw [Call.after]
  cases hcall : call.perform g with
  | error r => exact ⟨.refl g, rfl⟩
  | ok g' =>
    cases call with
    | declareNonterminal x =>
      obtain ⟨-, -, rfl⟩ := declareNonterminal_eq_ok.mp hcall
      refine ⟨?_, rfl⟩
      intro y
      rw [productions_append_rule]
      exact List.Subset.refl _
    | declareTerminal a =>
      obtain ⟨-, -, rfl⟩ := declareTerminal_eq_ok.mp hcall
      exact ⟨.refl g, rfl⟩
    | addProduction x rhs =>
      obtain ⟨p, -, rfl⟩ := addProduction_eq_ok.mp hcall
      refine ⟨?_, start_withProduction g x p⟩
      intro y q hq
      exact mem_productions_withProduction.mpr (.inl hq)
    | setStart x => cases hadds
    | clear => cases hadds

private theorem within_afterAll {calls : List Call} (hadds : ∀ call ∈ calls, call.adds) :
    Within g (g.afterAll calls) ∧ (g.afterAll calls).start = g.start := by
  induction calls generalizing g with
  | nil => exact ⟨.refl g, rfl⟩
  | cons call calls ih =>
    have hcall : call.adds := hadds call List.mem_cons_self
    have hcalls : ∀ c ∈ calls, c.adds := fun c hc => hadds c (List.mem_cons_of_mem call hc)
    obtain ⟨hfirst, hstart⟩ := within_after (g := g) hcall
    obtain ⟨hrest, hstart'⟩ := ih (g := call.after g) hcalls
    exact ⟨hfirst.trans hrest, hstart'.trans hstart⟩

/-- If all productions of one grammar are productions of another one, each cell of a table under the
other contains all that it contains under the first. If this holds both ways, the tables contain
and accept the same nonterminals, however the two grammars were declared, and with the same start
symbol the verdicts are the same. Calls that add to a grammar therefore never turn a word down that
was derived before. -/
theorem more_productions_derive_more (hg : g.Reachable) (hh : h.Reachable) :
    (Within g h → ∀ w t u, g.table w = .ok t → h.table w = .ok u →
      ∀ i j x, t.contains i j x = true → u.contains i j x = true) ∧
    (Within g h → Within h g → ∀ w t u, g.table w = .ok t → h.table w = .ok u →
      (∀ i j x, t.contains i j x = u.contains i j x) ∧ (∀ x, t.accepts x = u.accepts x) ∧
      (g.start = h.start → g.derives w = h.derives w)) ∧
    ∀ calls : List Call, (∀ call ∈ calls, call.adds) → ∀ w, g.derives w = .ok true →
      (g.afterAll calls).derives w = .ok true := by
  have hwf := hg.wellFormed
  have hwf' := hh.wellFormed
  refine ⟨?_, ?_, ?_⟩
  · intro hgh w t u ht hu i j x
    obtain ⟨-, rfl⟩ := table_eq_ok.mp ht
    obtain ⟨-, rfl⟩ := table_eq_ok.mp hu
    exact hgh.contains_ofWord hwf hwf'
  · intro hgh hhg w t u ht hu
    obtain ⟨-, rfl⟩ := table_eq_ok.mp ht
    obtain ⟨-, rfl⟩ := table_eq_ok.mp hu
    refine ⟨?_, congrFun (hgh.accepts_eq hhg hwf hwf' w), ?_⟩
    · intro i j x
      rw [hgh.contains_eq hhg hwf hwf']
    · intro hstart
      rw [derives, derives, ht, hu]
      exact congrArg Except.ok (hgh.accepts_start_eq hhg hwf hwf' hstart w)
  · intro calls hadds w hw
    obtain ⟨hwithin, hstart⟩ := within_afterAll (g := g) hadds
    exact hwithin.derives hwf (hwf.afterAll calls) hstart.symm hw

def shuffled : Grammar :=
  empty.afterAll [.declareTerminal 'b', .declareNonterminal 'L', .declareNonterminal 'B',
    .declareNonterminal 'T', .declareNonterminal 'A', .declareNonterminal 'S',
    .declareTerminal 'a', .addProduction 'T' ['S', 'B'], .addProduction 'S' ['A', 'T'],
    .addProduction 'S' ['A', 'B'], .addProduction 'B' ['b'], .addProduction 'L' ['L', 'A'],
    .addProduction 'A' ['a'], .setStart 'S']

/-- The tables of a word under `balanced` and `shuffled` are filled with different positions, but
contain the same nonterminals; and more productions keep the word. -/
theorem balanced_within_shuffled :
    ∃ t u, balanced.table ['a', 'b'] = .ok t ∧ shuffled.table ['a', 'b'] = .ok u ∧
      t.cells ≠ u.cells ∧ (∀ i j x, t.contains i j x = true → u.contains i j x = true) ∧
      (∀ i j x, t.contains i j x = u.contains i j x) ∧
      balanced.derives ['a', 'b'] = shuffled.derives ['a', 'b'] ∧
      (balanced.afterAll [.declareNonterminal 'C', .addProduction 'S' ['S', 'S']]).derives
        ['a', 'b'] = .ok true := by
  have hshuffled : shuffled.Reachable := ⟨_, rfl⟩
  obtain ⟨hmore, hboth, hcalls⟩ := more_productions_derive_more balanced_reachable hshuffled
  have ht : balanced.table ['a', 'b'] = .ok (.ofWord balanced ['a', 'b']) := by decide +kernel
  have hu : shuffled.table ['a', 'b'] = .ok (.ofWord shuffled ['a', 'b']) := by decide +kernel
  have hwithin : Within balanced shuffled := by decide +kernel
  have hwithin' : Within shuffled balanced := by decide +kernel
  obtain ⟨hcontains, -, hderives⟩ := hboth hwithin hwithin' _ _ _ ht hu
  refine ⟨_, _, ht, hu, by decide +kernel, hmore hwithin _ _ _ ht hu, hcontains,
    hderives (by decide +kernel), ?_⟩
  exact hcalls _ (by decide) _ (by decide +kernel)

end Grammar

end ChomskyNormal
