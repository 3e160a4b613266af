import ChessEngine.Piece
import ChessEngine.Square

/-!
# Moves

A move names its two squares, the piece it captures and the piece it promotes
to, and four flags that the generator sets.  `Move.text` is its long algebraic
text.
-/

namespace ChessEngine

/-- What is special about a move. -/
structure MoveFlags where
  capture : Bool
  doublePush : Bool
  enPassant : Bool
  castle : Bool
deriving DecidableEq

namespace MoveFlags

/-- Nothing special. -/
def none : MoveFlags := ⟨false, false, false, false⟩

/-- The flags as the bits of a number below 16, `capture` lowest. -/
def bits (f : MoveFlags) : Nat :=
  f.capture.toNat + 2 * f.doublePush.toNat + 4 * f.enPassant.toNat + 8 * f.castle.toNat

/-- The flags given by the low four bits of a number. -/
def ofBits (n : Nat) : MoveFlags :=
  ⟨n.testBit 0, n.testBit 1, n.testBit 2, n.testBit 3⟩

@[simp] theorem ofBits_bits (f : MoveFlags) : ofBits f.bits = f := by
  obtain ⟨_ | _, _ | _, _ | _, _ | _⟩ := f <;> rfl

end MoveFlags

/-- A move. -/
structure Move where
  origin : Square
  target : Square
  captured : Option Piece
  promoted : Option Piece
  flags : MoveFlags
deriving DecidableEq

namespace Move

/-- A move without capture, promotion or flags. -/
def plain (origin target : Square) : Move := ⟨origin, target, none, none, .none⟩

/-- A capture of `victim`. -/
def taking (origin target : Square) (victim : Piece) : Move :=
  ⟨origin, target, some victim, none, { MoveFlags.none with capture := true }⟩

/-- The move from a1 to a1, which no position generates. -/
def null : Move := plain 0 0

/-- Whether the move is flagged as a capture. -/
def isCapture (m : Move) : Bool := m.flags.capture

/-- Whether the move is flagged as a double pawn push. -/
def isDoublePush (m : Move) : Bool := m.flags.doublePush

/-- Whether the move is flagged as an en-passant capture. -/
def isEnPassant (m : Move) : Bool := m.flags.enPassant

/-- Whether the move is flagged as castling. -/
def isCastle (m : Move) : Bool := m.flags.castle

/-- Whether the move promotes a pawn. -/
def isPromotion (m : Move) : Bool := m.promoted.isSome

/-- Whether the move neither captures nor promotes. -/
def isQuiet (m : Move) : Bool := !m.isCapture && !m.isPromotion

/-- The kind of the promotion piece. -/
def promotedKind (m : Move) : Option Kind := m.promoted.map Piece.kind

/-- Long algebraic text, such as `e2e4` or `e7e8q`. -/
def text (m : Move) : String :=
  m.origin.name ++ m.target.name ++
    match m.promotedKind with
    | some k => String.ofList [k.letter]
    | none => ""

/-- The texts of a line of moves, joined by blanks. -/
def lineText (line : List Move) : String :=
  String.intercalate " " (line.map text)

end Move

end ChessEngine
