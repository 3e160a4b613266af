import ChessEngine.Move

/-!
# Faults

A `Fault` reports that an operation was called where its own precondition does
not hold: a piece added to an occupied square, a move made from an empty one, a
take-back without a move to take back.  What is wrong with the text of a
position or of a move is an `InputError` instead.
-/

namespace ChessEngine

/-- A violated precondition. -/
inductive Fault where
  /-- A piece was to be added off the board. -/
  | addOffBoard (square : Nat)
  /-- A piece was to be added to a square that holds `holder`. -/
  | addOccupied (square : Square) (holder : Piece)
  /-- `expected` was to be removed from a square that does not hold it. -/
  | removeMismatch (expected : Piece) (square : Square) (found : Option Piece)
  /-- An empty square was to be vacated. -/
  | relocateEmpty (square : Square)
  /-- A piece was to be moved to a square that holds `holder`. -/
  | relocateOccupied (square : Square) (holder : Piece)
  /-- More moves than the history can hold. -/
  | historyFull
  /-- A castling move that ends on no castling square. -/
  | castlingTarget (square : Square)
  /-- A move from an empty square. -/
  | emptyOrigin (move : Move)
  /-- A capture that does not say what it captures. -/
  | missingVictim (move : Move)
  /-- A take-back without a move to take back. -/
  | emptyHistory
  /-- A number that is no place of a list or of the board. -/
  | outOfBounds
  /-- A table of more bytes than can be addressed. -/
  | tableTooLarge
  /-- More generated moves than a position is expected to have. -/
  | tooManyMoves (count : Nat)
  /-- The opposite of the lowest word was to be taken. -/
  | negationOverflow
deriving DecidableEq

/-- The number of moves a history holds. -/
def historyCapacity : Nat := 2048

/-- The number of moves that a position is expected not to exceed. -/
def maxPositionMoves : Nat := 256

/-- The text of a fault. -/
def Fault.message : Fault → String
  | addOffBoard s => s!"add_piece: square {s} is off the board"
  | addOccupied s holder =>
    s!"add_piece: square {s.val} already holds {Piece.describeHolder (some holder)}"
  | removeMismatch expected s found =>
    s!"remove_piece: expected {expected.describe} on {s.val}, found {Piece.describeHolder found}"
  | relocateEmpty s => s!"move_piece: no piece on {s.val}"
  | relocateOccupied s holder =>
    s!"move_piece: destination {s.val} already holds {Piece.describeHolder (some holder)}"
  | historyFull => s!"history stack overflow: more than {historyCapacity} moves made"
  | castlingTarget s => s!"castling move with king destination {s.val}"
  | emptyOrigin m => s!"make_move: no piece on {m.origin.val} for {m.text}"
  | missingVictim m => s!"make_move: capture {m.text} carries no captured piece"
  | emptyHistory => "take_move called with an empty history"
  | outOfBounds => "index out of bounds"
  | tableTooLarge => "capacity overflow"
  | tooManyMoves count =>
    s!"generated {count} moves, more than the {maxPositionMoves} a position can hold"
  | negationOverflow => "attempt to negate with overflow"

/-- The square with the given number, a fault if there is none. -/
def Square.ofIndex (n : Nat) : Except Fault Square :=
  match Square.ofIndex? n with
  | some s => .ok s
  | none => .error .outOfBounds

end ChessEngine
