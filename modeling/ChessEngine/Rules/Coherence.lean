import ChessEngine.Position.Basic
import Mathlib.Algebra.BigOperators.Fin
import Mathlib.Order.Bounds.Basic

/-!
# Positions whose parts agree

A position keeps the same facts several times over.  `Position.Coherent` says what it is for all
of them to agree: the index of squares is taken for the truth, and every other field is described
by sets, sums and numbers of squares that are read off it.  Nothing here follows the order in
which an audit looks at a position.
-/

namespace ChessEngine

open Finset

namespace Placement

/-- The squares on which the index shows a piece. -/
def squaresOf (p : Placement) (piece : Piece) : Finset Square := {s | p.pieceOn s = some piece}

/-- Everything that a placement keeps says the same as its index. -/
structure Coherent (p : Placement) : Prop where
  /-- Each of the twelve sets has exactly the squares that hold its piece. -/
  boards : ∀ s c k, s ∈ p.piecesOf c k ↔ p.pieceOn s = some ⟨c, k⟩
  /-- The squares of a side are the union of its six sets. -/
  occupied : ∀ s c, s ∈ p.occupied.get c ↔ ∃ k, s ∈ p.piecesOf c k
  /-- The squares of both sides are the union of all twelve. -/
  allOccupied : ∀ s, s ∈ p.allOccupied ↔ ∃ c k, s ∈ p.piecesOf c k
  material : ∀ c, p.material.get c =
    ∑ s, (p.pieceOn s).elim 0 fun piece => if piece.color = c then piece.value else 0
  onFile : ∀ c f, (p.pawnsOnFile.get c).get f = #{s ∈ p.squaresOf ⟨c, .pawn⟩ | s.file = f}
  onRank : ∀ c r, (p.pawnsOnRank.get c).get r = #{s ∈ p.squaresOf ⟨c, .pawn⟩ | s.rank = r}
  control : ∀ c t,
    (p.pawnControl.get c).get t = #{s ∈ p.squaresOf ⟨c, .pawn⟩ | t ∈ pawnAttacks c s}
  /-- The square kept for a king is the highest one that holds such a king, and none is kept if
  there is no such square. -/
  kings : ∀ c s, p.kings.get c = some s ↔ IsGreatest {t | p.pieceOn t = some ⟨c, .king⟩} s

end Placement

namespace Position

variable [ZobristKeys]

/-- The keys of everything that holds in a position: of each piece on its square, of Black being to
move, of the castling rights and of the en-passant file. -/
def keys (p : Position) : List UInt64 :=
  Square.all.filterMap (fun s => (p.pieceOn s).map (ZobristKeys.piece · s)) ++
    (if p.side = .black then [ZobristKeys.side] else []) ++ [ZobristKeys.castling p.rights] ++
    (p.enPassant.map fun s => ZobristKeys.enPassantFile s.file).toList

/-- All parts of a position agree. -/
structure Coherent (p : Position) : Prop where
  placement : p.placement.Coherent
  hash : p.hash = p.keys.foldl (· ^^^ ·) 0

end Position

end ChessEngine
