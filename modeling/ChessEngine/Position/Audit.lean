import ChessEngine.Position.Basic
import ChessEngine.Text

/-!
# Auditing a position

Everything that a position keeps besides the index of squares can be computed
from the index; this module does so by counting squares.  `Position.audit`
compares what is kept with what is counted and fails with the first `Violation`.
-/

namespace ChessEngine

/-- A disagreement between the parts of a position. -/
inductive Violation where
  | overlap (color : Color) (kind : Kind)
  | occupancy (color : Color)
  | combinedOccupancy
  | missingOnBoard (piece : Piece) (square : Square)
  | missingInIndex (square : Square)
  | material (kept counted : ByColor Int)
  | pawnCounts
  | pawnControl
  | kings (kept counted : ByColor (Option Square))
  | hash (kept counted : UInt64)
deriving DecidableEq

namespace Violation

/-- An optional square as violations print it. -/
def describeSquare : Option Square → String
  | some s => s!"Some({s.val})"
  | none => "None"

/-- The two values of a pair as violations print them. -/
def describePair (white black : String) : String := s!"[{white}, {black}]"

/-- The text of a violation. -/
def message : Violation → String
  | overlap c k => s!"{c.name} {k.name} bitboard overlaps another piece"
  | occupancy c => s!"{c.name} occupancy does not match its piece bitboards"
  | combinedOccupancy => "combined occupancy is not the union of the piece bitboards"
  | missingOnBoard piece s =>
    s!"index holds {piece.describe} on {s.val} but its bitboard does not"
  | missingInIndex s => s!"square {s.val} is occupied but the index is empty"
  | material kept counted =>
    let found := describePair (toString kept.white) (toString kept.black)
    let expected := describePair (toString counted.white) (toString counted.black)
    s!"material {found} does not match recomputed {expected}"
  | pawnCounts => "pawn file/rank counts do not match the board"
  | pawnControl => "pawn control table does not match the board"
  | kings kept counted =>
    let found := describePair (describeSquare kept.white) (describeSquare kept.black)
    let expected := describePair (describeSquare counted.white) (describeSquare counted.black)
    s!"king squares {found} do not match the board {expected}"
  | hash kept counted =>
    let found := Text.hexWord kept
    let expected := Text.hexWord counted
    s!"incremental hash {found} differs from recomputed {expected}"

end Violation

namespace Placement

/-! ## What the index determines -/

/-- Whether the index shows a piece on a square. -/
def holds (p : Placement) (piece : Piece) (s : Square) : Bool := p.pieceOn s == some piece

/-- The value that a square adds to the material of side `c`. -/
def valueOn (p : Placement) (c : Color) (s : Square) : Int :=
  match p.pieceOn s with
  | some piece => if piece.color = c then piece.value else 0
  | none => 0

/-- The material of a side. -/
def countedMaterial (p : Placement) (c : Color) : Int :=
  Square.all.foldl (fun total s => total + p.valueOn c s) 0

/-- The number of pawns of a side on a file. -/
def countedOnFile (p : Placement) (c : Color) (f : Fin 8) : Nat :=
  Square.all.countP fun s => p.holds ⟨c, .pawn⟩ s && s.file == f

/-- The number of pawns of a side on a rank. -/
def countedOnRank (p : Placement) (c : Color) (r : Fin 8) : Nat :=
  Square.all.countP fun s => p.holds ⟨c, .pawn⟩ s && s.rank == r

/-- The number of pawns of a side that could capture on a square. -/
def countedControl (p : Placement) (c : Color) (t : Square) : Nat :=
  Square.all.countP fun s => p.holds ⟨c, .pawn⟩ s && (pawnAttacks c s).contains t

/-- The highest square with a king of a side. -/
def highestKing (p : Placement) (c : Color) : Option Square :=
  Square.all.reverse.find? (p.holds ⟨c, .king⟩)

/-- One value for each side, computed by `f`. -/
def perColor {α : Type} (f : Color → α) : ByColor α := ⟨f .white, f .black⟩

/-! ## Checks -/

/-- Adds the squares of the listed kinds to `union`, unless two of the sets meet. -/
def auditKinds (t : KindBoards) (c : Color) (union : Bitboard) :
    List Kind → Except Violation Bitboard
  | [] => .ok union
  | k :: rest =>
    if union.meets (t.get k) then .error (.overlap c k)
    else auditKinds t c (union ∪ t.get k) rest

/-- Checks the sets of one side, and adds them to `union`. -/
def auditSide (p : Placement) (c : Color) (union : Bitboard) : Except Violation Bitboard := do
  let t := p.boards.get c
  let total ← auditKinds t c union Kind.all
  let own := Kind.all.foldl (fun u k => u ∪ t.get k) ∅
  if own = p.occupied.get c then return total else throw (.occupancy c)

/-- Checks one square of the index against the sets. -/
def auditSquare (p : Placement) (s : Square) : Except Violation Unit :=
  match p.pieceOn s with
  | some piece =>
    if (p.piecesOf piece.color piece.kind).contains s then .ok ()
    else .error (.missingOnBoard piece s)
  | none => if p.allOccupied.contains s then .error (.missingInIndex s) else .ok ()

/-- Checks everything that a placement keeps. -/
def audit (p : Placement) : Except Violation Unit := do
  let union ← p.auditSide .white ∅
  let union ← p.auditSide .black union
  if union ≠ p.allOccupied then throw .combinedOccupancy
  Square.all.forM p.auditSquare
  let material := perColor p.countedMaterial
  if p.material ≠ material then throw (.material p.material material)
  if p.pawnsOnFile ≠ perColor fun c => Vector.ofFn (p.countedOnFile c) then throw .pawnCounts
  if p.pawnsOnRank ≠ perColor fun c => Vector.ofFn (p.countedOnRank c) then throw .pawnCounts
  if p.pawnControl ≠ perColor fun c => Vector.ofFn (p.countedControl c) then throw .pawnControl
  let kings := perColor p.highestKing
  if p.kings ≠ kings then throw (.kings p.kings kings)

end Placement

namespace Position

variable [ZobristKeys]

/-- The part of the hash due to what stands on a square. -/
def squarePart (p : Position) (s : Square) : UInt64 :=
  match p.pieceOn s with
  | some piece => ZobristKeys.piece piece s
  | none => 0

/-- The hash computed from scratch. -/
def countedHash (p : Position) : UInt64 :=
  Square.all.foldl (fun hash s => hash ^^^ p.squarePart s) 0 ^^^ ZobristKeys.sidePart p.side ^^^
    ZobristKeys.castling p.rights ^^^ ZobristKeys.enPassantPart p.enPassant

/-- The first disagreement between what a position keeps and what its index says. -/
def audit (p : Position) : Except Violation Unit := do
  p.placement.audit
  let counted := p.countedHash
  if p.hash ≠ counted then throw (.hash p.hash counted)

end Position

end ChessEngine
