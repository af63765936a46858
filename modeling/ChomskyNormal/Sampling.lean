import ChomskyNormal.Derivation
import ChomskyNormal.Height
import ChomskyNormal.Location

/-!
Random words of a grammar. A derivation is grown from the top, its productions chosen at random
down to a given depth; from there on it is finished by the lowest productions.
-/

set_option autoImplicit false
set_option relaxedAutoImplicit false

namespace ChomskyNormal

/-- A source of choices: a number of alternatives and a state give an index and the next state. -/
abbrev Chooser (σ : Type) := Nat → σ → Nat × σ

/-- Why no word can be grown. -/
inductive SampleFault where
  | noStart
  | undefined (c : Char)
  | barren (c : Char)
deriving DecidableEq

def SampleFault.message : SampleFault → Text
  | noStart => "The grammar has no start symbol".toList
  | undefined c => "No definition for nonterminal ".toList ++ Text.quoted [c]
  | barren c => "Nonterminal ".toList ++ Text.quoted [c] ++ " does not derive any word".toList

namespace Sampling

/-- The depth below which productions are chosen at random, unless another is asked for. -/
def defaultDepth : Nat :=
  8

/-- The productions of a nonterminal that lead to words, in order, with the heights they give. -/
def options (g : Grammar) (h : Heights) (x : Char) : List (Production × Nat) :=
  (g.productions x).filterMap fun p => (h.ofProduction p).map fun n => (p, n)

/-- The first production of least height. -/
def lowest (ps : List (Production × Nat)) : Option Production :=
  (ps.map Prod.snd).min?.bind fun n => (ps.find? fun p => p.2 = n).map Prod.fst

/-- A derivation by lowest productions, no higher than the given number. -/
def finish (g : Grammar) (h : Heights) : Nat → Char → Option Derivation
  | 0, _ => none
  | n + 1, x =>
      match lowest (options g h x) with
      | none => none
      | some (.terminal a) => some (.leaf x a)
      | some (.binary b c) =>
          match finish g h n b, finish g h n c with
          | some left, some right => some (.node x left right)
          | _, _ => none

/-- A derivation whose productions are chosen down to the given depth, the left part before the
right one. From that depth on no choice is asked for. -/
def grow {σ : Type} (choose : Chooser σ) (g : Grammar) (h : Heights) :
    Nat → Char → σ → Option Derivation × σ
  | 0, x, s => (finish g h ((h.lookup x).getD 0) x, s)
  | depth + 1, x, s =>
      match options g h x with
      | [] => (none, s)
      | p :: ps =>
          let (k, s) := choose (ps.length + 1) s
          match (p :: ps)[k]? with
          | none => (none, s)
          | some (.terminal a, _) => (some (.leaf x a), s)
          | some (.binary b c, _) =>
              match grow choose g h depth b s with
              | (none, s) => (none, s)
              | (some left, s) =>
                  match grow choose g h depth c s with
                  | (none, s) => (none, s)
                  | (some right, s) => (some (.node x left right), s)

end Sampling

namespace Grammar

/-- A derivation from a nonterminal, which has to be declared and to derive some word. -/
def sampleTree {σ : Type} (choose : Chooser σ) (g : Grammar) (depth : Nat) (x : Char) (s : σ) :
    Except SampleFault (Derivation × σ) :=
  if x ∈ g.nonterminals then
    match g.heights.lookup x with
    | none => .error (.barren x)
    | some _ =>
        match Sampling.grow choose g g.heights depth x s with
        | (some t, s) => .ok (t, s)
        | (none, _) => .error (.barren x)
  else
    .error (.undefined x)

def sampleFrom {σ : Type} (choose : Chooser σ) (g : Grammar) (depth : Nat) (x : Char) (s : σ) :
    Except SampleFault (Text × σ) :=
  (g.sampleTree choose depth x s).map fun (t, s) => (t.word, s)

/-- The nonterminal to grow from: the one asked for, if any, else the start symbol. -/
def origin (g : Grammar) (asked : Option Char) : Option Char :=
  asked.or g.start

def sample {σ : Type} (choose : Chooser σ) (g : Grammar) (asked : Option Char) (depth : Nat)
    (s : σ) : Except SampleFault (Text × σ) :=
  match g.origin asked with
  | none => .error .noStart
  | some x => g.sampleFrom choose depth x s

/-- A random word of the grammar of a rule file; a fault is reported of the file as a whole. -/
def sampleIn {σ : Type} (choose : Chooser σ) (g : Grammar) (file : Text) (asked : Option Char)
    (depth : Nat) (s : σ) : Except (Located SampleFault) (Text × σ) :=
  (g.sample choose asked depth s).mapError fun e => ⟨.whole file, e⟩

end Grammar

/-- Words grown one after another, the fault that ended them if one did, and the last state. -/
structure Samples (σ : Type) where
  words : List Text
  fault : Option SampleFault
  state : σ

/-- Repeat a way to grow a word a number of times, or until it fails. -/
def Samples.collect {σ : Type} (one : σ → Except SampleFault (Text × σ)) : Nat → σ → Samples σ
  | 0, s => ⟨[], none, s⟩
  | n + 1, s =>
      match one s with
      | .error e => ⟨[], some e, s⟩
      | .ok (w, s) =>
          let rest := collect one n s
          { rest with words := w :: rest.words }

end ChomskyNormal
