import ChessEngine.Position.History
import ChessEngine.Position.Placement
import ChessEngine.Zobrist.Keys

/-!
# Positions

A `Position` is a placement with the side to move, castling rights, en-passant
square, counters and history.  Its hash is kept up to date by every change:
`add`, `remove` and `relocate` for pieces, `flipSide`, `setRights` and
`setEnPassant` for the rest.
-/

namespace ChessEngine

/-- A position of a game. -/
structure Position where
  placement : Placement
  hash : UInt64
  side : Color
  rights : CastlingRights
  enPassant : Option Square
  /-- Half-moves since the last capture or pawn move. -/
  fifty : Counter
  fullmove : Counter
  /-- Moves made since the root of the running search. -/
  ply : Nat
  history : History Undo
deriving DecidableEq

namespace Position

/-! ## Queries -/

/-- What stands on a square. -/
def pieceOn (p : Position) (s : Square) : Option Piece := p.placement.pieceOn s

/-- The squares of a piece. -/
def piecesOf (p : Position) (c : Color) (k : Kind) : Bitboard := p.placement.piecesOf c k

/-- All occupied squares. -/
def occupied (p : Position) : Bitboard := p.placement.allOccupied

/-- The squares of a side. -/
def occupiedBy (p : Position) (c : Color) : Bitboard := p.placement.occupied.get c

/-- The square of a side's king. -/
def kingSquare (p : Position) (c : Color) : Option Square := p.placement.kings.get c

/-- The material value of a side. -/
def material (p : Position) (c : Color) : Int := p.placement.material.get c

/-- The number of pawns of a side that could capture on a square. -/
def pawnControl (p : Position) (c : Color) (s : Square) : Nat :=
  (p.placement.pawnControl.get c).get s

/-- Whether some pawn of a side could capture on a square. -/
def pawnControls (p : Position) (c : Color) (s : Square) : Bool := p.pawnControl c s != 0

/-- Whether the position occurred before, since the last capture or pawn move. -/
def isRepetition (p : Position) : Bool := p.history.recalls p.hash p.fifty.toNat

/-- Sets the number of moves made since the root of the search. -/
def setPly (p : Position) (ply : Nat) : Position := { p with ply }

variable [ZobristKeys]

/-- The empty board with White to move. -/
def empty : Position where
  placement := .empty
  hash := ZobristKeys.castling .none
  side := .white
  rights := .none
  enPassant := none
  fifty := 0
  fullmove := 1
  ply := 0
  history := .empty

/-! ## Pieces -/

/-- Puts a piece on a square that is known to be empty. -/
def put (p : Position) (piece : Piece) (s : Square) : Position :=
  { p with
    placement := p.placement.put piece s
    hash := p.hash ^^^ ZobristKeys.piece piece s }

/-- Lifts a piece from the square that is known to hold it. -/
def lift (p : Position) (piece : Piece) (s : Square) : Position :=
  { p with
    placement := p.placement.lift piece s
    hash := p.hash ^^^ ZobristKeys.piece piece s }

/-- Puts a piece on an empty square. -/
def add (p : Position) (piece : Piece) (s : Square) : Except Fault Position :=
  match p.pieceOn s with
  | some holder => .error (.addOccupied s holder)
  | none => .ok (p.put piece s)

/-- Removes a piece from the square that holds it. -/
def remove (p : Position) (piece : Piece) (s : Square) : Except Fault Position :=
  let holder := p.pieceOn s
  if holder = some piece then .ok (p.lift piece s) else .error (.removeMismatch piece s holder)

/-- Moves whatever stands on `origin` to the empty square `target`. -/
def relocate (p : Position) (origin target : Square) : Except Fault Position :=
  match p.pieceOn origin with
  | none => .error (.relocateEmpty origin)
  | some piece =>
    match p.pieceOn target with
    | some holder => .error (.relocateOccupied target holder)
    | none => .ok { p with
        placement := p.placement.relocate piece origin target
        hash := p.hash ^^^ (ZobristKeys.piece piece origin ^^^ ZobristKeys.piece piece target) }

/-! ## Everything else that is hashed -/

/-- Gives the move to the other side. -/
def flipSide (p : Position) : Position :=
  { p with side := p.side.opposite, hash := p.hash ^^^ ZobristKeys.side }

/-- Replaces the castling rights. -/
def setRights (p : Position) (rights : CastlingRights) : Position :=
  { p with
    rights
    hash := p.hash ^^^ ZobristKeys.castling p.rights ^^^ ZobristKeys.castling rights }

/-- Replaces the en-passant square. -/
def setEnPassant (p : Position) (target : Option Square) : Position :=
  { p with
    enPassant := target
    hash := p.hash ^^^ ZobristKeys.enPassantPart p.enPassant ^^^ ZobristKeys.enPassantPart target }

end Position

end ChessEngine
