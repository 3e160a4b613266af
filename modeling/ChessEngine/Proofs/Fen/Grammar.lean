import ChessEngine.Fen
import Mathlib.Data.List.Forall2
import Mathlib.Data.Nat.Digits.Defs

/-!
# The form of position texts

What each field of a Forsyth-Edwards text denotes, and what is wrong with a field
that denotes nothing.  Nothing here reads a text from left to right: a rank is the
eight squares that its characters stand for, a counter is the number that its
digits denote.  `Denotes` and `Faulty` put the fields together; of several things
wrong with a text, `Faulty` names the first.
-/

namespace ChessEngine

namespace Fen

/-! ## The board -/

/-- The characters of a rank and the squares they stand for: a letter stands for a piece, a digit
from `1` to `8` for as many empty squares. -/
inductive Row : List Char → List (Option Piece) → Prop
  | nil : Row [] []
  | piece {row : List Char} {squares : List (Option Piece)} (p : Piece) : Row row squares →
    Row (p.letter :: row) (some p :: squares)
  | gap {row : List Char} {squares : List (Option Piece)} (n : Nat) : 1 ≤ n → n ≤ 8 →
    Row row squares → Row (n.digitChar :: row) (List.replicate n none ++ squares)

/-- A row that stands for the eight squares of a rank. -/
structure Rank (row : List Char) (squares : List (Option Piece)) : Prop where
  row : Row row squares
  width : squares.length = 8

/-- The first thing wrong with a row: an unknown letter, a digit that is no width, a character with
which the squares become too many, or an end before they are enough. -/
inductive RankFault (rank : Fin 8) : List Char → InputError → Prop
  | letter {before after : List Char} {c : Char} {squares : List (Option Piece)} :
    Row before squares → squares.length ≤ 8 → c.isDigit = false → (∀ p : Piece, p.letter ≠ c) →
    RankFault rank (before ++ c :: after) (.pieceLetter c)
  | digit {before after : List Char} {c : Char} {squares : List (Option Piece)} :
    Row before squares → squares.length ≤ 8 → c = '0' ∨ c = '9' →
    RankFault rank (before ++ c :: after) (.rankWidth (rank.val + 1))
  | wide {before after : List Char} {c : Char} {squares more : List (Option Piece)} :
    Row before squares → squares.length ≤ 8 → Row [c] more → 8 < squares.length + more.length →
    RankFault rank (before ++ c :: after) (.rankWidth (rank.val + 1))
  | short {row : List Char} {squares : List (Option Piece)} :
    Row row squares → squares.length < 8 → RankFault rank row (.rankWidth (rank.val + 1))

/-- The pieces on the squares of a rank from the given file on, from left to right. -/
def piecesFrom (rank : Fin 8) (file : Nat) (squares : List (Option Piece)) : List (Nat × Piece) :=
  (squares.zipIdx file).filterMap fun (holder, file) =>
    holder.map fun piece => (8 * rank.val + file, piece)

/-- The ranks in the order of the text. -/
def rankOrder : List (Fin 8) := [7, 6, 5, 4, 3, 2, 1, 0]

/-- Eight ranks, the eighth first, divided by slashes. -/
def Board (text : String) (pieces : List (Nat × Piece)) : Prop :=
  ∃ ranks : List (List (Option Piece)), ranks.length = 8 ∧
    List.Forall₂ Rank (text.toList.splitOn '/') ranks ∧
    pieces = (rankOrder.zip ranks).flatMap fun (rank, squares) => piecesFrom rank 0 squares

/-- The first thing wrong with a board: the number of ranks, or else something in a rank. -/
inductive BoardFault (text : String) : InputError → Prop
  | count : (text.toList.splitOn '/').length ≠ 8 →
    BoardFault text (.rankCount (text.toList.splitOn '/').length)
  | rank {before after : List (List Char)} {row : List Char} {rank : Fin 8}
    {ranks : List (List (Option Piece))} {e : InputError} :
    text.toList.splitOn '/' = before ++ row :: after → (text.toList.splitOn '/').length = 8 →
    List.Forall₂ Rank before ranks → rank.val + before.length = 7 → RankFault rank row e →
    BoardFault text e

/-! ## The other fields -/

/-- The letter of a side to move. -/
def sideText : Color → String
  | .white => "w"
  | .black => "b"

/-- The letter of a castling right. -/
def rightLetter : Color → Wing → Char
  | .white, .kingside => 'K'
  | .white, .queenside => 'Q'
  | .black, .kingside => 'k'
  | .black, .queenside => 'q'

/-- Whether a character stands for a castling right. -/
def IsRight (c : Char) : Prop := ∃ color wing, c = rightLetter color wing

/-- A hyphen for no right, or the letters of the rights in any order and any number. -/
def Castling (text : String) (rights : CastlingRights) : Prop :=
  text = "-" ∧ rights = .none ∨
    text ≠ "-" ∧ (∀ c ∈ text.toList, IsRight c) ∧
      ∀ color wing, rights.allows color wing = true ↔ rightLetter color wing ∈ text.toList

/-- The first character that stands for no right. -/
def CastlingFault (text : String) (e : InputError) : Prop :=
  text ≠ "-" ∧ ∃ before c after, text.toList = before ++ c :: after ∧
    (∀ b ∈ before, IsRight b) ∧ ¬ IsRight c ∧ e = .castlingLetter c

/-- A hyphen, or the name of a square: its file letter and its rank digit. -/
def EnPassant (text : String) (target : Option Nat) : Prop :=
  text = "-" ∧ target = none ∨ ∃ s : Square, text = s.name ∧ target = some s.val

/-- The number that decimal digits denote. -/
def decimal (digits : List Char) : Nat :=
  Nat.ofDigits 10 (digits.reverse.map fun c => c.toNat - '0'.toNat)

/-- Decimal digits, after at most one plus sign, of a number that a counter holds. -/
def Number (text : String) (n : Counter) : Prop :=
  ∃ digits, (text.toList = digits ∨ text.toList = '+' :: digits) ∧ digits ≠ [] ∧
    (∀ c ∈ digits, c.isDigit = true) ∧ decimal digits = n.toNat

/-! ## The whole text -/

/-- The maximal runs of characters that are no blanks. -/
def parts (text : String) : List String :=
  ((text.toList.splitOnP Text.isBlank).filter (!·.isEmpty)).map String.ofList

/-- The fields in their order. -/
def fields : List FenField := [.board, .side, .castling, .enPassant, .halfmove, .fullmove]

/-- Six fields, each of which denotes its part of the setup. -/
def Denotes (text : String) (setup : Setup) : Prop :=
  ∃ board castling enPassant halfmove fullmove,
    parts text = [board, sideText setup.side, castling, enPassant, halfmove, fullmove] ∧
      Board board setup.pieces ∧ Castling castling setup.rights ∧
      EnPassant enPassant setup.enPassant ∧ Number halfmove setup.fifty ∧
      Number fullmove setup.fullmove

/-- The first thing wrong with a text: the number of its fields, or else the first field from the
left that denotes nothing. -/
inductive Faulty (text : String) : InputError → Prop
  | missing {field : FenField} : fields[(parts text).length]? = some field →
    Faulty text (.missingField field)
  | trailing : 6 < (parts text).length → Faulty text .trailingFields
  | board {board side castling enPassant halfmove fullmove : String} {e : InputError} :
    parts text = [board, side, castling, enPassant, halfmove, fullmove] →
    BoardFault board e → Faulty text e
  | side {board side castling enPassant halfmove fullmove : String}
    {pieces : List (Nat × Piece)} :
    parts text = [board, side, castling, enPassant, halfmove, fullmove] →
    Board board pieces → (∀ color, side ≠ sideText color) → Faulty text (.sideToMove side)
  | castling {board castling enPassant halfmove fullmove : String}
    {pieces : List (Nat × Piece)} {color : Color} {e : InputError} :
    parts text = [board, sideText color, castling, enPassant, halfmove, fullmove] →
    Board board pieces → CastlingFault castling e → Faulty text e
  | enPassant {board castling enPassant halfmove fullmove : String}
    {pieces : List (Nat × Piece)} {color : Color} {rights : CastlingRights} :
    parts text = [board, sideText color, castling, enPassant, halfmove, fullmove] →
    Board board pieces → Castling castling rights → (∀ target, ¬ EnPassant enPassant target) →
    Faulty text (.squareName enPassant)
  | halfmove {board castling enPassant halfmove fullmove : String}
    {pieces : List (Nat × Piece)} {color : Color} {rights : CastlingRights}
    {target : Option Nat} :
    parts text = [board, sideText color, castling, enPassant, halfmove, fullmove] →
    Board board pieces → Castling castling rights → EnPassant enPassant target →
    (∀ n, ¬ Number halfmove n) → Faulty text (.counter halfmove)
  | fullmove {board castling enPassant halfmove fullmove : String}
    {pieces : List (Nat × Piece)} {color : Color} {rights : CastlingRights}
    {target : Option Nat} {fifty : Counter} :
    parts text = [board, sideText color, castling, enPassant, halfmove, fullmove] →
    Board board pieces → Castling castling rights → EnPassant enPassant target →
    Number halfmove fifty → (∀ n, ¬ Number fullmove n) → Faulty text (.counter fullmove)

end Fen

end ChessEngine
