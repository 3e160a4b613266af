import ChessEngine.Attack.Line
import ChessEngine.Position.Placement

/-!
# Who attacks a square

The oracle asks each piece of a side whether it reaches the square, and for a
slider whether the line between is clear.  It never follows a ray, which is how
the move generator finds the same squares.
-/

namespace ChessEngine

namespace Placement

/-- The order in which the kinds are asked. -/
def probeOrder : List Kind := [.knight, .pawn, .king, .queen, .bishop, .rook]

/-- Whether a piece of side `c` and kind `k` on `origin` attacks `target`. -/
def hits (occupied : Bitboard) (c : Color) (k : Kind) (target origin : Square) : Bool :=
  match k with
  | .knight => (knightAttacks origin).contains target
  | .pawn => (pawnAttacks c origin).contains target
  | .king => (kingAttacks origin).contains target
  | .queen => (queenReach origin).contains target && lineClear occupied origin target
  | .bishop => (bishopReach origin).contains target && lineClear occupied origin target
  | .rook => (rookReach origin).contains target && lineClear occupied origin target

/-- Whether side `c` attacks `target`. -/
def isAttacked (p : Placement) (target : Square) (c : Color) : Bool :=
  probeOrder.any fun k => (p.piecesOf c k).squares.any (hits p.allOccupied c k target)

/-- The pieces of side `c` that attack `target`, kind by kind in the order of probing and by
ascending square within a kind. -/
def attackers (p : Placement) (target : Square) (c : Color) : List (Square × Kind) :=
  probeOrder.flatMap fun k =>
    ((p.piecesOf c k).squares.filter (hits p.allOccupied c k target)).map fun origin => (origin, k)

/-- Whether the king of side `c` is attacked.  A side without a king is never in check. -/
def inCheck (p : Placement) (c : Color) : Bool :=
  match p.kings.get c with
  | some s => p.isAttacked s c.opposite
  | none => false

end Placement

end ChessEngine
