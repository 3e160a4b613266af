import ChessEngine.Move

/-!
# Moves as numbers

`Move.pack` puts the parts of a move into one 32-bit word: origin, target,
captured piece, promotion piece and flags take 6, 6, 4, 4 and 4 bits from the
lowest up, and the absent piece has the code 15.  `Move.ofCode` reads the parts
back by shifts and masks.
-/

namespace ChessEngine

namespace Move

/-- The four-bit code of an optional piece. -/
def pieceCode : Option Piece → UInt32
  | some p => UInt32.ofNat p.index
  | none => 15

/-- The word of a move with the given parts.  Of the flags the low four bits count. -/
def pack (origin target : Square) (captured promoted : Option Piece) (flags : UInt32) : UInt32 :=
  UInt32.ofNat origin.val ||| (UInt32.ofNat target.val <<< 6) ||| (pieceCode captured <<< 12) |||
    (pieceCode promoted <<< 16) ||| ((flags &&& 0xF) <<< 20)

/-- The move with the given parts.  Of the flags the low four bits count. -/
def ofParts (origin target : Square) (captured promoted : Option Piece) (flags : UInt32) : Move :=
  ⟨origin, target, captured, promoted, .ofBits flags.toNat⟩

/-- The packed form of a move. -/
def code (m : Move) : UInt32 :=
  pack m.origin m.target m.captured m.promoted (UInt32.ofNat m.flags.bits)

/-- Reads the bits of a packed move that `mask` keeps of those from `start` on. -/
def codeField (word start mask : UInt32) : UInt32 := (word >>> start) &&& mask

theorem toNat_codeField_le (word start mask : UInt32) :
    (codeField word start mask).toNat ≤ mask.toNat := by
  rw [codeField, UInt32.toNat_and]
  exact Nat.and_le_right

/-- Unpacks the lowest 24 bits of a word. -/
def ofCode (word : UInt32) : Move where
  origin := ⟨(codeField word 0 0x3F).toNat, Nat.lt_succ_of_le (toNat_codeField_le word 0 0x3F)⟩
  target := ⟨(codeField word 6 0x3F).toNat, Nat.lt_succ_of_le (toNat_codeField_le word 6 0x3F)⟩
  captured := Piece.ofIndex? (codeField word 12 0xF).toNat
  promoted := Piece.ofIndex? (codeField word 16 0xF).toNat
  flags := .ofBits (codeField word 20 0xF).toNat

/-- Whether a packed move promotes: its promotion piece has another code than the absent piece. -/
def codePromotes (word : UInt32) : Bool := codeField word 16 0xF != 15

end Move

end ChessEngine
