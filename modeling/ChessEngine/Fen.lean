import ChessEngine.Position.Setup
import ChessEngine.Text

/-!
# Positions as text

Forsyth-Edwards Notation: six fields separated by blanks.  `Fen.parse` checks
the form of the text only, and reports the first ill-formed field from the left;
whether the position makes sense is for `Setup.toPosition` to say.
-/

namespace ChessEngine

/-- Reads a counter: decimal digits, after at most one plus sign. -/
def Counter.ofText? (text : String) : Option Counter :=
  let digits := match text.toList with
    | '+' :: rest => rest
    | all => all
  if digits.isEmpty || !digits.all Char.isDigit then none
  else
    let value := digits.foldl (fun n c => 10 * n + (c.toNat - '0'.toNat)) 0
    if value < 65536 then some (UInt16.ofNat value) else none

namespace Fen

/-- The text of the initial position of a game. -/
def initial : String := "rnbqkbnr/pppppppp/8/8/8/8/PPPPPPPP/RNBQKBNR w KQkq - 0 1"

/-! ## Fields -/

/-- Reads the rest of a rank from file number `file` on. -/
def parseRank (rank : Fin 8) (file : Nat) : List Char → Except InputError (List (Nat × Piece))
  | [] => if file = 8 then .ok [] else .error (.rankWidth (rank.val + 1))
  | c :: rest =>
    if c.isDigit then
      let skipped := c.toNat - '0'.toNat
      if skipped = 0 || 8 < file + skipped then .error (.rankWidth (rank.val + 1))
      else parseRank rank (file + skipped) rest
    else match Piece.ofLetter? c with
      | none => .error (.pieceLetter c)
      | some piece =>
        if 8 ≤ file then .error (.rankWidth (rank.val + 1))
        else do return (8 * rank.val + file, piece) :: (← parseRank rank (file + 1) rest)

/-- Reads the board, whose ranks stand from the eighth down to the first. -/
def parseBoard (text : String) : Except InputError (List (Nat × Piece)) :=
  let ranks := Text.pieces (· == '/') text.toList
  if ranks.length ≠ 8 then .error (.rankCount ranks.length)
  else do
    let rows ← (List.finRange 8).reverse.zip ranks |>.mapM fun (rank, row) => parseRank rank 0 row
    return rows.flatten

/-- Reads the side to move. -/
def parseSide (text : String) : Except InputError Color :=
  if text = "w" then .ok .white
  else if text = "b" then .ok .black
  else .error (.sideToMove text)

/-- The castling right a letter stands for. -/
def castlingLetter? : Char → Option (Color × Wing)
  | 'K' => some (.white, .kingside)
  | 'Q' => some (.white, .queenside)
  | 'k' => some (.black, .kingside)
  | 'q' => some (.black, .queenside)
  | _ => none

/-- Reads castling letters in any order. -/
def parseCastlingLetters (rights : CastlingRights) : List Char → Except InputError CastlingRights
  | [] => .ok rights
  | c :: rest =>
    match castlingLetter? c with
    | some (color, wing) => parseCastlingLetters (rights.grant color wing) rest
    | none => .error (.castlingLetter c)

/-- Reads the castling rights; a lone hyphen means none. -/
def parseCastling (text : String) : Except InputError CastlingRights :=
  if text = "-" then .ok .none else parseCastlingLetters .none text.toList

/-- Reads the en-passant square; a lone hyphen means none. -/
def parseEnPassant (text : String) : Except InputError (Option Nat) :=
  if text = "-" then .ok none
  else do return some (← Square.parse text).val

/-- Reads a counter. -/
def parseCounter (text : String) : Except InputError Counter :=
  match Counter.ofText? text with
  | some n => .ok n
  | none => .error (.counter text)

/-! ## The whole text -/

/-- Reads a position text. -/
def parse (text : String) : Except InputError Setup :=
  match Text.words text with
  | [] => .error (.missingField .board)
  | [_] => .error (.missingField .side)
  | [_, _] => .error (.missingField .castling)
  | [_, _, _] => .error (.missingField .enPassant)
  | [_, _, _, _] => .error (.missingField .halfmove)
  | [_, _, _, _, _] => .error (.missingField .fullmove)
  | [board, side, castling, enPassant, halfmove, fullmove] => do
    let pieces ← parseBoard board
    let side ← parseSide side
    let rights ← parseCastling castling
    let enPassant ← parseEnPassant enPassant
    let fifty ← parseCounter halfmove
    let fullmove ← parseCounter fullmove
    return { pieces, side, rights, enPassant, fifty, fullmove }
  | _ => .error .trailingFields

end Fen

namespace Position

variable [ZobristKeys]

/-- The position a text describes. -/
def ofFen (text : String) : Except InputError Position := do
  (← Fen.parse text).toPosition

/-- The initial position of a game. -/
def initial : Position :=
  match ofFen Fen.initial with
  | .ok p => p
  | .error _ => empty

end Position

end ChessEngine
