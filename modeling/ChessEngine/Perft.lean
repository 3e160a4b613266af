import ChessEngine.Generator.Pseudo
import ChessEngine.Position.Make

/-!
# Counting leaves

`Position.perft` counts the sequences of legal moves of a given length, and
among them those whose last move is special.  `Position.divide` gives the counts
below each legal move of the root.
-/

namespace ChessEngine

/-- Numbers of move sequences, by what their last move is. -/
structure PerftCounts where
  nodes : Nat
  captures : Nat
  enPassant : Nat
  castles : Nat
  promotions : Nat
  checks : Nat
deriving DecidableEq

namespace PerftCounts

/-- No sequence. -/
def zero : PerftCounts := ⟨0, 0, 0, 0, 0, 0⟩

/-- The sum of two counts. -/
def add (a b : PerftCounts) : PerftCounts where
  nodes := a.nodes + b.nodes
  captures := a.captures + b.captures
  enPassant := a.enPassant + b.enPassant
  castles := a.castles + b.castles
  promotions := a.promotions + b.promotions
  checks := a.checks + b.checks

/-- One sequence that ends with the move `m` in the position `p`. -/
def leaf (m : Move) (p : Position) : PerftCounts where
  nodes := 1
  captures := m.isCapture.toNat
  enPassant := m.isEnPassant.toNat
  castles := m.isCastle.toNat
  promotions := m.isPromotion.toNat
  checks := (p.placement.inCheck p.side).toNat

end PerftCounts

namespace Position

variable [ZobristKeys]

/-- Adds up what `visit` counts after each accepted move of a list. -/
def sumAccepted (visit : Move → Position → Except Fault (PerftCounts × Position)) (p : Position)
    (total : PerftCounts) : List Move → Except Fault (PerftCounts × Position)
  | [] => return (total, p)
  | m :: rest => do
    let (accepted, p) ← p.make m
    if accepted then
      let (counts, p) ← visit m p
      sumAccepted visit (← p.takeBack) (total.add counts) rest
    else sumAccepted visit p total rest

/-- The counts of sequences of `depth + 1` moves. -/
def perftFrom : (depth : Nat) → Position → Except Fault (PerftCounts × Position)
  | 0, p => p.sumAccepted (fun m p => return (.leaf m p, p)) .zero p.pseudoMoves
  | depth + 1, p => p.sumAccepted (fun _ p => perftFrom depth p) .zero p.pseudoMoves

/-- The counts of sequences of `depth` moves; there is one sequence of no move. -/
def perft (p : Position) : (depth : Nat) → Except Fault (PerftCounts × Position)
  | 0 => return ({ PerftCounts.zero with nodes := 1 }, p)
  | depth + 1 => perftFrom depth p

/-- The accepted moves of a list, each with the number of sequences that start with it. -/
def divideAccepted (depth : Nat) (p : Position) :
    List Move → Except Fault (List (Move × Nat) × Position)
  | [] => return ([], p)
  | m :: rest => do
    let (accepted, p) ← p.make m
    if accepted then
      let (counts, p) ← p.perft (depth - 1)
      let (more, p) ← divideAccepted depth (← p.takeBack) rest
      return ((m, counts.nodes) :: more, p)
    else divideAccepted depth p rest

/-- The legal moves, each with the number of sequences of `depth` moves that start with it. -/
def divide (p : Position) (depth : Nat) : Except Fault (List (Move × Nat) × Position) :=
  divideAccepted depth p p.pseudoMoves

end Position

end ChessEngine
