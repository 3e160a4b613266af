import ChessEngine.Attack.Step
import ChessEngine.Piece

/-!
# The pieces on the board

A `Placement` holds the pieces twice, as one set of squares per piece and as an
index by square, together with the tables that evaluation and move generation
read: occupancies, material, pawn counts, pawn control and king squares.  The
operations `put`, `lift` and `relocate` change all of them in step.  They do not
check that the squares are empty or held; `Position.add` and its siblings do.
-/

namespace ChessEngine

/-- One set of squares for each kind of piece. -/
structure KindBoards where
  pawn : Bitboard
  knight : Bitboard
  bishop : Bitboard
  rook : Bitboard
  queen : Bitboard
  king : Bitboard
deriving DecidableEq

namespace KindBoards

/-- No piece of any kind. -/
def empty : KindBoards := ⟨∅, ∅, ∅, ∅, ∅, ∅⟩

/-- The squares of one kind. -/
def get (t : KindBoards) : Kind → Bitboard
  | .pawn => t.pawn
  | .knight => t.knight
  | .bishop => t.bishop
  | .rook => t.rook
  | .queen => t.queen
  | .king => t.king

/-- Changes the squares of one kind. -/
def update (t : KindBoards) (k : Kind) (f : Bitboard → Bitboard) : KindBoards :=
  match k with
  | .pawn => { t with pawn := f t.pawn }
  | .knight => { t with knight := f t.knight }
  | .bishop => { t with bishop := f t.bishop }
  | .rook => { t with rook := f t.rook }
  | .queen => { t with queen := f t.queen }
  | .king => { t with king := f t.king }

@[simp] theorem get_update_self (t : KindBoards) (k : Kind) (f : Bitboard → Bitboard) :
    (t.update k f).get k = f (t.get k) := by
  cases k <;> rfl

theorem get_update_of_ne (t : KindBoards) {k l : Kind} (f : Bitboard → Bitboard) (h : l ≠ k) :
    (t.update k f).get l = t.get l := by
  cases k <;> cases l <;> first | rfl | exact absurd rfl h

end KindBoards

/-- The pieces on the board with everything that is kept about them. -/
structure Placement where
  /-- The squares of each of the twelve pieces. -/
  boards : ByColor KindBoards
  /-- The squares of each side. -/
  occupied : ByColor Bitboard
  /-- The squares of both sides. -/
  allOccupied : Bitboard
  /-- What stands on each square. -/
  index : Vector (Option Piece) 64
  /-- The material value of each side. -/
  material : ByColor Int
  /-- The number of pawns of each side on each file. -/
  pawnsOnFile : ByColor (Vector Nat 8)
  /-- The number of pawns of each side on each rank. -/
  pawnsOnRank : ByColor (Vector Nat 8)
  /-- The number of pawns of each side that could capture on each square. -/
  pawnControl : ByColor (Vector Nat 64)
  /-- The square of each king. -/
  kings : ByColor (Option Square)
deriving DecidableEq

namespace Placement

/-- The board without pieces. -/
def empty : Placement where
  boards := .both .empty
  occupied := .both ∅
  allOccupied := ∅
  index := .replicate 64 none
  material := .both 0
  pawnsOnFile := .both (.replicate 8 0)
  pawnsOnRank := .both (.replicate 8 0)
  pawnControl := .both (.replicate 64 0)
  kings := .both none

/-! ## Queries -/

/-- What stands on a square. -/
def pieceOn (p : Placement) (s : Square) : Option Piece := p.index.get s

/-- The squares of a piece. -/
def piecesOf (p : Placement) (c : Color) (k : Kind) : Bitboard := (p.boards.get c).get k

/-! ## Changes -/

/-- Applies `f` to one entry of a table of counts. -/
def bump {n : Nat} (f : Nat → Nat) (table : Vector Nat n) (i : Fin n) : Vector Nat n :=
  table.set i (f (table.get i)) i.isLt

/-- Applies `f` to every count that a pawn of side `c` on `s` takes part in. -/
def countPawn (p : Placement) (f : Nat → Nat) (c : Color) (s : Square) : Placement :=
  { p with
    pawnsOnFile := p.pawnsOnFile.update c fun t => bump f t s.file
    pawnsOnRank := p.pawnsOnRank.update c fun t => bump f t s.rank
    pawnControl := p.pawnControl.update c fun t => (pawnAttacks c s).squares.foldl (bump f) t }

/-- Notes in the pawn tables and king squares that a piece arrived. -/
def arrive (p : Placement) (piece : Piece) (s : Square) : Placement :=
  match piece.kind with
  | .pawn => p.countPawn (· + 1) piece.color s
  | .king => { p with kings := p.kings.update piece.color fun _ => some s }
  | _ => p

/-- Notes in the pawn tables and king squares that a piece left. -/
def leave (p : Placement) (piece : Piece) (s : Square) : Placement :=
  match piece.kind with
  | .pawn => p.countPawn (· - 1) piece.color s
  | .king => { p with kings := p.kings.update piece.color fun _ => none }
  | _ => p

/-- Applies `f` to the sets of squares that a piece is counted in. -/
def updateBoards (p : Placement) (piece : Piece) (f : Bitboard → Bitboard) : Placement :=
  { p with
    boards := p.boards.update piece.color fun t => t.update piece.kind f
    occupied := p.occupied.update piece.color f
    allOccupied := f p.allOccupied }

/-- Writes the content of a square into the index. -/
def setIndex (p : Placement) (s : Square) (holder : Option Piece) : Placement :=
  { p with index := p.index.set s holder s.isLt }

/-- Adds to the material of a side. -/
def addMaterial (p : Placement) (c : Color) (value : Int) : Placement :=
  { p with material := p.material.update c (· + value) }

/-- Puts a piece on an empty square. -/
def put (p : Placement) (piece : Piece) (s : Square) : Placement :=
  (((p.setIndex s (some piece)).updateBoards piece (·.insert s)).addMaterial piece.color
    piece.value).arrive piece s

/-- Lifts a piece from the square it stands on. -/
def lift (p : Placement) (piece : Piece) (s : Square) : Placement :=
  (((p.setIndex s none).updateBoards piece (·.erase s)).addMaterial piece.color
    (-piece.value)).leave piece s

/-- Takes a piece from its square to an empty one. -/
def relocate (p : Placement) (piece : Piece) (origin target : Square) : Placement :=
  let moved := ((p.setIndex origin none).setIndex target (some piece)).updateBoards piece
    (·.toggle (.single origin ∪ .single target))
  (moved.leave piece origin).arrive piece target

end Placement

end ChessEngine
