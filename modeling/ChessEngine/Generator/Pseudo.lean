import ChessEngine.Fault
import ChessEngine.Generator.Basic

/-!
# Pseudo-legal moves

For each pawn its captures come first, then the en-passant capture, then the
pushes.  Every arrival on the last rank except en passant is offered once for
each of the four promotion kinds.

`Position.pseudoMoves` lists all moves of a side that follow the movement of its
pieces: pawns, knights, bishops, rooks, queens and the king, in this order.
`Position.generate` is the same list with the check on its length.
-/

namespace ChessEngine

/-! ## Moves of pawns -/

/-- The kinds a pawn promotes to, in the order they are offered. -/
def promotionKinds : List Kind := [.queen, .rook, .bishop, .knight]

namespace Color

/-- The rank on which a side's pawns may advance two squares. -/
def pawnRank : Color → Fin 8
  | .white => 1
  | .black => 6

/-- The rank on which a side's pawns promote. -/
def lastRank : Color → Fin 8
  | .white => 7
  | .black => 0

end Color

namespace Position

/-- The moves of a pawn to a square: one for each promotion kind on the last rank. -/
def pawnArrivals (c : Color) (origin target : Square) (captured : Option Piece)
    (flags : MoveFlags) : List Move :=
  if target.rank = c.lastRank then
    promotionKinds.map fun k => ⟨origin, target, captured, some ⟨c, k⟩, flags⟩
  else [⟨origin, target, captured, none, flags⟩]

/-- The captures of a pawn, en passant left aside. -/
def pawnCaptures (p : Position) (c : Color) (origin : Square) : List Move :=
  (pawnAttacks c origin ∩ p.occupiedBy c.opposite).squares.flatMap fun target =>
    pawnArrivals c origin target (p.pieceOn target) { MoveFlags.none with capture := true }

/-- The en-passant capture of a pawn.  It belongs to the side to move alone. -/
def pawnEnPassant (p : Position) (c : Color) (origin : Square) : List Move :=
  match p.enPassant with
  | some target =>
    if c = p.side ∧ target ∈ pawnAttacks c origin then
      [⟨origin, target, some ⟨c.opposite, .pawn⟩, none,
        { MoveFlags.none with capture := true, enPassant := true }⟩]
    else []
  | none => []

/-- The square `n` steps ahead of a pawn, if it is on the board and empty. -/
def emptyAhead? (p : Position) (c : Color) (origin : Square) (n : Int) : Option Square :=
  match origin.shift? 0 (n * Step.forward c) with
  | some target => if p.occupied.contains target then none else some target
  | none => none

/-- The double push of a pawn whose single push is free. -/
def pawnDoublePush (p : Position) (c : Color) (origin : Square) : List Move :=
  if origin.rank = c.pawnRank then
    match p.emptyAhead? c origin 2 with
    | some target => [⟨origin, target, none, none, { MoveFlags.none with doublePush := true }⟩]
    | none => []
  else []

/-- The pushes of a pawn. -/
def pawnPushes (p : Position) (c : Color) (origin : Square) : List Move :=
  match p.emptyAhead? c origin 1 with
  | some target => pawnArrivals c origin target none .none ++ p.pawnDoublePush c origin
  | none => []

/-- The moves of a side's pawns. -/
def pawnMoves (p : Position) (c : Color) (scope : Scope) : List Move :=
  (p.piecesOf c .pawn).squares.flatMap fun origin =>
    p.pawnCaptures c origin ++ (p.pawnEnPassant c origin ++
      if scope = .all then p.pawnPushes c origin else [])

/-! ## Moves of all pieces -/

/-- The pseudo-legal moves of a side. -/
def pseudoMovesOf (p : Position) (c : Color) (scope : Scope) : List Move :=
  p.pawnMoves c scope ++ (p.pieceMoves c scope .knight ++ (p.pieceMoves c scope .bishop ++
    (p.pieceMoves c scope .rook ++ (p.pieceMoves c scope .queen ++ p.kingMoves c scope))))

/-- The pseudo-legal moves of the side to move. -/
def pseudoMoves (p : Position) : List Move := p.pseudoMovesOf p.side .all

/-- The pseudo-legal moves of a side, of which there should not be too many. -/
def generate (p : Position) (c : Color) (scope : Scope) : Except Fault (List Move) :=
  let moves := p.pseudoMovesOf c scope
  if moves.length ≤ maxPositionMoves then .ok moves else .error (.tooManyMoves moves.length)

end Position

end ChessEngine
