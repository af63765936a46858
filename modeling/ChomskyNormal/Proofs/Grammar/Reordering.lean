import ChomskyNormal.Membership
import ChomskyNormal.Sampling

/-!
Grammars that differ in the order of their terminals only. No answer depends on that order: tables
ask which characters are terminals, and words are grown from productions alone.
-/

set_option autoImplicit false
set_option relaxedAutoImplicit false

namespace ChomskyNormal.Grammar

/-- A grammar has the rules and the start symbol of another one, and its terminals in some order. -/
structure Reorders (g' g : Grammar) : Prop where
  rules : g'.rules = g.rules
  start : g'.start = g.start
  terminals : g'.terminals.Perm g.terminals

namespace Reorders

variable {g g' : Grammar} {σ : Type} {choose : Chooser σ}

private theorem nonterminals (h : g'.Reorders g) : g'.nonterminals = g.nonterminals := by
  rw [Grammar.nonterminals, Grammar.nonterminals, h.rules]

private theorem productions (h : g'.Reorders g) : g'.productions = g.productions := by
  funext x
  rw [Grammar.productions, Grammar.productions, h.rules]

private theorem producers (h : g'.Reorders g) : g'.producers = g.producers := by
  have hpair : g'.pair? = g.pair? := by
    funext p
    cases p with
    | terminal a => rfl
    | binary b c => simp only [pair?, number?, h.nonterminals]
  rw [Grammar.producers, Grammar.producers, h.nonterminals, h.productions, hpair]

private theorem unfit? (h : g'.Reorders g) (w : Text) : g'.unfit? w = g.unfit? w := by
  simp only [Grammar.unfit?, h.terminals.mem_iff, h.nonterminals, h.start]

theorem table (h : g'.Reorders g) (w : Text) : g'.table w = g.table w := by
  rw [Grammar.table, Grammar.table, h.unfit?, Table.ofWord, Table.ofWord, h.nonterminals,
    h.producers]

theorem derives (h : g'.Reorders g) (w : Text) : g'.derives w = g.derives w := by
  have haccepts : g'.accepts = g.accepts := by
    funext t
    rw [Grammar.accepts, Grammar.accepts, h.start]
  rw [Grammar.derives, Grammar.derives, h.table, haccepts]

private theorem visit (h : g'.Reorders g) : Heights.visit g' = Heights.visit g := by
  funext known x
  rw [Heights.visit, Heights.visit, Heights.least, Heights.least, h.productions]

private theorem settle (h : g'.Reorders g) (n : Nat) (known : Heights) :
    Heights.settle g' n known = Heights.settle g n known := by
  have hpass (known : Heights) : known.pass g' = known.pass g := by
    rw [Heights.pass, Heights.pass, h.nonterminals, h.visit]
  induction n generalizing known with
  | zero => rfl
  | succ n ih => simp only [Heights.settle, hpass, ih]

private theorem heights (h : g'.Reorders g) : g'.heights = g.heights := by
  rw [Grammar.heights, Grammar.heights, h.settle, h.nonterminals]

private theorem options (h : g'.Reorders g) : Sampling.options g' = Sampling.options g := by
  funext known x
  rw [Sampling.options, Sampling.options, h.productions]

private theorem finish (h : g'.Reorders g) (known : Heights) (n : Nat) (x : Char) :
    Sampling.finish g' known n x = Sampling.finish g known n x := by
  induction n generalizing x with
  | zero => rfl
  | succ n ih => simp only [Sampling.finish, h.options, ih]

private theorem grow (h : g'.Reorders g) (known : Heights) (depth : Nat) (x : Char) (s : σ) :
    Sampling.grow choose g' known depth x s = Sampling.grow choose g known depth x s := by
  induction depth generalizing x s with
  | zero => simp only [Sampling.grow, h.finish]
  | succ depth ih => simp only [Sampling.grow, h.options, ih]

private theorem sampleFrom (h : g'.Reorders g) (depth : Nat) (x : Char) (s : σ) :
    g'.sampleFrom choose depth x s = g.sampleFrom choose depth x s := by
  simp only [Grammar.sampleFrom, Grammar.sampleTree, h.nonterminals, h.heights, h.grow]

theorem sampleIn (h : g'.Reorders g) (file : Text) (asked : Option Char) (depth : Nat) (s : σ) :
    g'.sampleIn choose file asked depth s = g.sampleIn choose file asked depth s := by
  simp only [Grammar.sampleIn, Grammar.sample, Grammar.origin, h.start, h.sampleFrom]

end Reorders

end ChomskyNormal.Grammar
