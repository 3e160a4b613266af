import ChessEngine.Attack.Oracle
import ChessEngine.Attack.Ray
import ChessEngine.Position.Basic

/-!
# Moves of pieces

The pseudo-legal moves of knights, bishops, rooks, queens and of the king:
moves that follow how the pieces move and what stands on the board, whether or
not the mover's king ends up attacked.  Origins ascend within a kind and targets
ascend within an origin.
-/

namespace ChessEngine

/-- Which moves to generate. -/
inductive Scope where
  | all
  | captures
deriving DecidableEq

namespace Position

/-- Moves from `origin` to each of the targets, none of which holds a piece of the mover. -/
def movesTo (p : Position) (scope : Scope) (origin : Square) (targets : Bitboard) : List Move :=
  targets.squares.filterMap fun target =>
    match p.pieceOn target with
    | some victim => some (.taking origin target victim)
    | none => if scope = .all then some (.plain origin target) else none

/-- The squares that a knight, bishop, rook or queen on `s` attacks. -/
def pieceAttacks (p : Position) (k : Kind) (s : Square) : Bitboard :=
  match k with
  | .knight => knightAttacks s
  | .bishop => bishopAttacks s p.occupied
  | .rook => rookAttacks s p.occupied
  | .queen => queenAttacks s p.occupied
  | .pawn => ∅
  | .king => ∅

/-- The moves of a side's knights, bishops, rooks or queens. -/
def pieceMoves (p : Position) (c : Color) (scope : Scope) (k : Kind) : List Move :=
  (p.piecesOf c k).squares.flatMap fun origin =>
    p.movesTo scope origin (p.pieceAttacks k origin \ p.occupiedBy c)

/-! ## The king -/

/-- Whether a side whose king stands on `king` may castle on a wing, as far as rights, empty squares
and attacks on the king's way go.  The square it arrives on is left to the legality gate. -/
def mayCastle (p : Position) (c : Color) (king : Square) (w : Wing) : Bool :=
  let path := CastlePath.of c w
  p.rights.allows c w && king == path.kingHome && !p.occupied.meets path.between &&
    !p.placement.isAttacked king c.opposite &&
    !p.placement.isAttacked path.rookTarget c.opposite

/-- The castling moves of a side whose king stands on `king`. -/
def castlingMoves (p : Position) (c : Color) (king : Square) : List Move :=
  [Wing.kingside, Wing.queenside].filterMap fun w =>
    let target := (CastlePath.of c w).kingTarget
    if p.mayCastle c king w then
      some ⟨king, target, none, none, { MoveFlags.none with castle := true }⟩
    else none

/-- The moves of a side's king. -/
def kingMoves (p : Position) (c : Color) (scope : Scope) : List Move :=
  match p.kingSquare c with
  | none => []
  | some king =>
    p.movesTo scope king (kingAttacks king \ p.occupiedBy c) ++
      if scope = .all then p.castlingMoves c king else []

end Position

end ChessEngine
