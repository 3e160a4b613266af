import ChessEngine.Castling
import ChessEngine.Piece

/-!
# Position keys

A position's hash is the exclusive or of one key for each thing that holds in
it: a piece on a square, Black to move, the castling rights, the file of the
en-passant square.  Everything that uses the keys takes them as a parameter, so
what is proved of hashes holds whatever the keys are.
-/

namespace ChessEngine

/-- The keys that hashes are made of. -/
class ZobristKeys where
  /-- The key of a piece on a square. -/
  piece : Piece → Square → UInt64
  /-- The key of Black being to move. -/
  side : UInt64
  /-- The key of a set of castling rights. -/
  castling : CastlingRights → UInt64
  /-- The key of an en-passant square on a file. -/
  enPassantFile : Fin 8 → UInt64

namespace ZobristKeys

variable [ZobristKeys]

/-- The key of an en-passant square: only its file matters. -/
def enPassant (s : Square) : UInt64 := enPassantFile s.file

/-- The part of the hash due to an optional en-passant square. -/
def enPassantPart : Option Square → UInt64
  | some s => enPassant s
  | none => 0

/-- The part of the hash due to the side to move. -/
def sidePart : Color → UInt64
  | .white => 0
  | .black => side

end ZobristKeys

end ChessEngine
