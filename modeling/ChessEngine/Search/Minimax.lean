import ChessEngine.Position.Reachable
import ChessEngine.Search.Engine

/-!
# The value of a game tree

`Position.minimax` values a position by looking at every accepted move, without
pruning, ordering or table: what a search should find.  `Wins` and `Loses` say
when checkmate can be forced within a number of half-moves.
-/

namespace ChessEngine

namespace Position

variable [ZobristKeys]

/-- Whether the position is drawn by repetition or by the fifty-move rule. -/
def isDrawn (p : Position) : Bool := p.isRepetition || fiftyMoveLimit ≤ p.fifty

/-- The negamax value of a position. -/
def minimax (scorer : Scorer) : (depth : Nat) → Position → Int
  | 0, p => scorer p
  | depth + 1, p =>
    if p.isDrawn then 0
    else if maxPly ≤ p.ply then scorer p
    else match p.successors with
      | [] => if p.inCheck p.side then -mateScore + p.ply else 0
      | q :: rest =>
        rest.foldl (fun best r => max best (-(minimax scorer depth r))) (-(minimax scorer depth q))

/-- The side to move is checkmated. -/
def Checkmated (p : Position) : Prop := p.successors = [] ∧ p.inCheck p.side = true

mutual

/-- The side to move can force checkmate within `n` half-moves. -/
def Wins : (n : Nat) → Position → Prop
  | 0, _ => False
  | n + 1, p => p.isDrawn = false ∧ ∃ q ∈ p.successors, Loses n q

/-- The side to move is checkmated by force within `n` half-moves. -/
def Loses : (n : Nat) → Position → Prop
  | 0, p => p.isDrawn = false ∧ p.Checkmated
  | n + 1, p =>
    p.isDrawn = false ∧ (p.Checkmated ∨ (p.successors ≠ [] ∧ ∀ q ∈ p.successors, Wins n q))

end

end Position

end ChessEngine
