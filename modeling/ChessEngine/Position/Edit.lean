import ChessEngine.Position.Basic

/-!
# Edits of the board

An `Edit` puts a piece down, takes one away or moves one, whatever else stands
on the board.  `Position.edit` makes it through the primitive it names.  Callers
that name squares by number go through `Position.addAt`, `Position.removeAt` and
`Position.relocateAt`: a number that is no square is a fault, reported where the
square is first needed.
-/

namespace ChessEngine

/-- A change of what stands on the board. -/
inductive Edit where
  | add (piece : Piece) (s : Square)
  | remove (piece : Piece) (s : Square)
  | relocate (origin target : Square)
deriving DecidableEq

namespace Edit

/-- Where an edit puts its piece down, if it does not take it away. -/
def arrival : Edit → Option Square
  | add _ s => some s
  | remove _ _ => none
  | relocate _ target => some target

variable (board : Square → Option Piece)

/-- What an edit asks of the board: the piece that it takes up stands there, and the square where
it puts a piece down is empty. -/
def Due : Edit → Prop
  | add _ s => board s = none
  | remove piece s => board s = some piece
  | relocate origin target => (∃ piece, board origin = some piece) ∧ board target = none

/-- The piece that an edit puts down or takes away. -/
def moved : Edit → Option Piece
  | add piece _ => some piece
  | remove piece _ => some piece
  | relocate origin _ => board origin

end Edit

namespace Position

/-- What stands on the square with the given number. -/
def pieceAt (p : Position) (n : Nat) : Except Fault (Option Piece) := do
  return p.pieceOn (← Square.ofIndex n)

variable [ZobristKeys]

/-- Makes an edit. -/
def edit (p : Position) : Edit → Except Fault Position
  | .add piece s => p.add piece s
  | .remove piece s => p.remove piece s
  | .relocate origin target => p.relocate origin target

/-- Puts a piece on the square with the given number. -/
def addAt (p : Position) (piece : Piece) (n : Nat) : Except Fault Position :=
  match Square.ofIndex? n with
  | some s => p.edit (.add piece s)
  | none => .error (.addOffBoard n)

/-- Removes a piece from the square with the given number. -/
def removeAt (p : Position) (piece : Piece) (n : Nat) : Except Fault Position := do
  p.edit (.remove piece (← Square.ofIndex n))

/-- Moves whatever stands on one square to another, both given by number. -/
def relocateAt (p : Position) (origin target : Nat) : Except Fault Position := do
  let origin ← Square.ofIndex origin
  if (p.pieceOn origin).isNone then throw (.relocateEmpty origin)
  p.edit (.relocate origin (← Square.ofIndex target))

end Position

end ChessEngine
