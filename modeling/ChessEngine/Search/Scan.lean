import ChessEngine.Search.Score

/-!
# Scoring by scanning the board

The value that `PawnWeights.score` reads off the tables of a position, computed
from the index of squares alone.
-/

namespace ChessEngine

namespace Position

/-- A pawn of side `c` stands on `s`. -/
def hasPawn (p : Position) (c : Color) (s : Square) : Bool := p.pieceOn s == some ⟨c, .pawn⟩

/-- The value of the piece on `s` if it belongs to side `c`. -/
def scannedValue (p : Position) (c : Color) (s : Square) : Int :=
  match p.pieceOn s with
  | some piece => if piece.color = c then piece.value else 0
  | none => 0

/-- A pawn of side `c` on `s` has another one behind it in the numbering of squares on its file. -/
def isDoubled (p : Position) (c : Color) (s : Square) : Bool :=
  p.hasPawn c s && Square.all.any fun t => p.hasPawn c t && t.file == s.file && t < s

/-- A pawn of side `c` on `s` has none of its own on a neighbouring file. -/
def isIsolated (p : Position) (c : Color) (s : Square) : Bool :=
  p.hasPawn c s && !Square.all.any fun t =>
    p.hasPawn c t && (t.file.val + 1 == s.file.val || t.file.val == s.file.val + 1)

/-- The number of centre squares that a pawn of side `c` on `s` attacks. -/
def centreAttacks (p : Position) (c : Color) (s : Square) : Nat :=
  if p.hasPawn c s then
    PawnWeights.centreSquares.countP fun t => decide (t ∈ pawnAttacks c s)
  else 0

end Position

namespace PawnWeights

/-- What one square contributes to the total of side `c`. -/
def scannedTerm (w : PawnWeights) (p : Position) (c : Color) (s : Square) : Int :=
  p.scannedValue c s - (if p.isDoubled c s then w.doubled else 0) -
    (if p.isIsolated c s then w.isolated else 0) + p.centreAttacks c s * w.centre

/-- The total of side `c` over all squares. -/
def scannedTotal (w : PawnWeights) (p : Position) (c : Color) : Int :=
  Square.all.foldl (fun total s => total + w.scannedTerm p c s) 0

/-- The score of a position by scanning. -/
def scannedScore (w : PawnWeights) (p : Position) : Int :=
  match p.side with
  | .white => w.scannedTotal p .white - w.scannedTotal p .black
  | .black => w.scannedTotal p .black - w.scannedTotal p .white

end PawnWeights

end ChessEngine
