import ChessEngine.InputError
import ChessEngine.Position.Basic

/-!
# Setting up positions

A `Setup` is what a caller hands over: pieces on squares, the side to move,
rights and counters.  `Setup.toPosition` checks it and derives everything else.
The first thing wrong in the order of the list of pieces decides the error, and
only then does the en-passant square count.
-/

namespace ChessEngine

/-- The description of a position from outside. -/
structure Setup where
  /-- Pieces by square number; a number that is no square is an error of the setup. -/
  pieces : List (Nat × Piece)
  side : Color
  rights : CastlingRights
  enPassant : Option Nat
  fifty : Counter
  fullmove : Counter
deriving DecidableEq

namespace Setup

variable [ZobristKeys]

/-- Whether the rank is the first or the last. -/
def isBackRank (s : Square) : Bool := s.rank == 0 || s.rank == 7

/-- Puts one piece on the board, unless it may not stand there. -/
def place (p : Position) (n : Nat) (piece : Piece) : Except InputError Position :=
  match Square.ofIndex? n with
  | none => .error (.squareName (toString n))
  | some s =>
    if (p.pieceOn s).isSome then .error (.squareTwice s)
    else if piece.kind = .pawn && isBackRank s then .error (.backRankPawn s)
    else if piece.kind = .king && (p.kingSquare piece.color).isSome then
      .error (.secondKing piece.color)
    else .ok (p.put piece s)

/-- Puts the listed pieces on the board in order. -/
def placeAll (p : Position) : List (Nat × Piece) → Except InputError Position
  | [] => .ok p
  | (n, piece) :: rest => do placeAll (← place p n piece) rest

/-- Whether the king and the rook of a castling move stand at home. -/
def castlersHome (p : Position) (c : Color) (w : Wing) : Bool :=
  let path := CastlePath.of c w
  p.pieceOn path.kingHome == some ⟨c, .king⟩ && p.pieceOn path.rookHome == some ⟨c, .rook⟩

/-- Whether `target` is an empty square that a pawn of the side not to move has just passed. -/
def isPassed (p : Position) (target : Square) : Bool :=
  let expected : Fin 8 := match p.side with
    | .white => 5
    | .black => 2
  target.rank == expected && (p.pieceOn target).isNone &&
    match target.shift? 0 (-Step.forward p.side) with
    | some pawn => p.pieceOn pawn == some ⟨p.side.opposite, .pawn⟩
    | none => false

/-- Sets the en-passant square, if there is one. -/
def placeEnPassant (p : Position) : Option Nat → Except InputError Position
  | none => .ok p
  | some n =>
    match Square.ofIndex? n with
    | none => .error (.squareName (toString n))
    | some s =>
      if isPassed p s then .ok (p.setEnPassant (some s)) else .error (.enPassantSquare s)

/-- The position that a setup describes.  Rights whose king or rook is not at home are dropped. -/
def toPosition (setup : Setup) : Except InputError Position := do
  let p ← placeAll .empty setup.pieces
  let p := match setup.side with
    | .white => p
    | .black => p.flipSide
  let p := p.setRights (setup.rights.restrict (castlersHome p))
  let p ← placeEnPassant p setup.enPassant
  return { p with fifty := setup.fifty, fullmove := setup.fullmove }

end Setup

end ChessEngine
