import ChessEngine.Color
import ChessEngine.Square

/-!
# Errors in what a user supplies

`InputError` lists what can be wrong with a position text, a board setup or a
move text, and `InputError.message` words it.
-/

namespace ChessEngine

/-- The six fields of a position text. -/
inductive FenField where
  | board
  | side
  | castling
  | enPassant
  | halfmove
  | fullmove
deriving DecidableEq

/-- The name of a field. -/
def FenField.name : FenField → String
  | board => "board layout"
  | side => "side to move"
  | castling => "castling rights"
  | enPassant => "en-passant square"
  | halfmove => "halfmove clock"
  | fullmove => "fullmove number"

/-- An error in user input. -/
inductive InputError where
  | missingField (field : FenField)
  | trailingFields
  | rankCount (found : Nat)
  /-- The rank is given as in the text, `8` down to `1`. -/
  | rankWidth (rank : Nat)
  | pieceLetter (letter : Char)
  | sideToMove (text : String)
  | castlingLetter (letter : Char)
  | squareName (text : String)
  | counter (text : String)
  | squareTwice (square : Square)
  | backRankPawn (square : Square)
  | secondKing (color : Color)
  | enPassantSquare (square : Square)
  | malformedMove (text : String)
  | illegalMove (text : String)
deriving DecidableEq

/-- The text of an error. -/
def InputError.message : InputError → String
  | missingField field => s!"FEN is missing the {field.name} field"
  | trailingFields => "FEN has extra trailing fields"
  | rankCount found => s!"board layout must contain 8 ranks, found {found}"
  | rankWidth rank => s!"rank {rank} of the board layout does not sum to 8 files"
  | pieceLetter letter => s!"invalid piece character '{letter}' in board layout"
  | sideToMove text => s!"invalid side-to-move field: {text}"
  | castlingLetter letter => s!"invalid castling rights character: {letter}"
  | squareName text => s!"invalid algebraic square: {text}"
  | counter text => s!"invalid move counter: {text}"
  | squareTwice square => s!"square {square.val} is occupied more than once in the board setup"
  | backRankPawn square => s!"pawn placed on back rank square {square.val}"
  | secondKing color => s!"{color.name} has more than one king in the board setup"
  | enPassantSquare square => s!"en-passant square {square.val} does not fit the side to move"
  | malformedMove text => s!"move text '{text}' is not well formed"
  | illegalMove text => s!"move '{text}' is not legal in this position"

namespace Square

/-- The square with the given name. -/
def parse (text : String) : Except InputError Square :=
  match ofName? text with
  | some s => .ok s
  | none => .error (.squareName text)

/-- The name of the square with the given number. -/
def nameOfIndex (n : Nat) : Except InputError String :=
  match ofIndex? n with
  | some s => .ok s.name
  | none => .error (.squareName (toString n))

end Square

end ChessEngine
