import ChomskyNormal.Grammar
import ChomskyNormal.Table

/-!
Filling the table of a word, one length of stretches after another. A cell reads only the cells of
shorter stretches, all of which lie before it.
-/

set_option autoImplicit false
set_option relaxedAutoImplicit false

namespace ChomskyNormal

/-- The productions of one nonterminal, each nonterminal given by its position. -/
structure Producer where
  number : Nat
  letters : List Char
  pairs : List (Nat × Nat)
deriving DecidableEq

namespace Producer

def makes (p : Producer) (a : Char) : Bool :=
  p.letters.contains a

/-- The nonterminal has a production whose two parts lie in two given cells. -/
def joins (p : Producer) (left right : List Nat) : Bool :=
  p.pairs.any fun (b, c) => left.contains b && right.contains c

end Producer

namespace Grammar

/-- The positions of the two nonterminals of a production that has them. -/
def pair? (g : Grammar) : Production → Option (Nat × Nat)
  | .terminal _ => none
  | .binary b c =>
      match g.number? b, g.number? c with
      | some i, some j => some (i, j)
      | _, _ => none

/-- The productions of all nonterminals, in the order of declarations. -/
def producers (g : Grammar) : List Producer :=
  g.nonterminals.zipIdx.map fun (x, k) =>
    ⟨k, (g.productions x).filterMap Production.letter?, (g.productions x).filterMap g.pair?⟩

end Grammar

namespace Table

def letterCell (ps : List Producer) (a : Char) : List Nat :=
  (ps.filter fun p => p.makes a).map Producer.number

/-- The pairs of cells into which a stretch can be cut, the shortest left part first. -/
def cuts (n : Nat) (cells : Array (List Nat)) (i span : Nat) : List (List Nat × List Nat) :=
  (List.range' 1 (span - 1)).map fun k =>
    (cells.getD (slot n i k) [], cells.getD (slot n (i + k) (span - k)) [])

/-- The cell of a stretch that can be cut in the given ways. -/
def cutCell (ps : List Producer) (cs : List (List Nat × List Nat)) : List Nat :=
  (ps.filter fun p => cs.any fun (left, right) => p.joins left right).map Producer.number

/-- Append the cells of all stretches of one length. -/
def withSpan (ps : List Producer) (n : Nat) (cells : Array (List Nat)) (span : Nat) :
    Array (List Nat) :=
  (List.range (n + 1 - span)).foldl
    (fun cells i => cells.push (cutCell ps (cuts n cells i span))) cells

def fill (ps : List Producer) (w : Text) : Array (List Nat) :=
  (List.range' 2 (w.length - 1)).foldl (withSpan ps w.length) (w.map (letterCell ps)).toArray

def ofWord (g : Grammar) (w : Text) : Table :=
  ⟨w, g.nonterminals, fill g.producers w⟩

end Table

end ChomskyNormal
