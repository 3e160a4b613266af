import ChessEngine.Color

/-!
# Pieces

The six kinds of piece and the twelve colored pieces, with their dense
numbering, their letters and their fixed material values.  `Piece.ofIndex?` and
`Piece.ofLetter?` invert `Piece.index` and `Piece.letter`.
-/

namespace ChessEngine

/-- A kind of piece. -/
inductive Kind where
  | pawn
  | knight
  | bishop
  | rook
  | queen
  | king
deriving DecidableEq

namespace Kind

/-- The six kinds in the order of their numbers. -/
def all : List Kind := [pawn, knight, bishop, rook, queen, king]

/-- The number of a kind, `0` to `5`. -/
def index : Kind → Nat
  | pawn => 0
  | knight => 1
  | bishop => 2
  | rook => 3
  | queen => 4
  | king => 5

/-- The kind with the given number. -/
def ofIndex? : Nat → Option Kind
  | 0 => some pawn
  | 1 => some knight
  | 2 => some bishop
  | 3 => some rook
  | 4 => some queen
  | 5 => some king
  | _ => none

/-- The material value in centipawns. -/
def value : Kind → Int
  | pawn => 100
  | knight => 320
  | bishop => 330
  | rook => 500
  | queen => 900
  | king => 20000

/-- The lower-case letter of a kind. -/
def letter : Kind → Char
  | pawn => 'p'
  | knight => 'n'
  | bishop => 'b'
  | rook => 'r'
  | queen => 'q'
  | king => 'k'

/-- The kind with the given lower-case letter. -/
def ofLetter? : Char → Option Kind
  | 'p' => some pawn
  | 'n' => some knight
  | 'b' => some bishop
  | 'r' => some rook
  | 'q' => some queen
  | 'k' => some king
  | _ => none

/-- The name of a kind as messages print it. -/
def name : Kind → String
  | pawn => "Pawn"
  | knight => "Knight"
  | bishop => "Bishop"
  | rook => "Rook"
  | queen => "Queen"
  | king => "King"

@[simp] theorem ofLetter?_letter (k : Kind) : ofLetter? k.letter = some k := by
  cases k <;> rfl

end Kind

/-- A colored piece.  An empty square is `none : Option Piece`. -/
structure Piece where
  color : Color
  kind : Kind
deriving DecidableEq

namespace Piece

/-- The number of a piece: the white kinds are `0` to `5`, the black ones `6` to `11`. -/
def index (p : Piece) : Nat :=
  match p.color with
  | .white => p.kind.index
  | .black => 6 + p.kind.index

/-- The piece with the given number. -/
def ofIndex? (n : Nat) : Option Piece :=
  if n < 6 then (Kind.ofIndex? n).map (⟨.white, ·⟩)
  else (Kind.ofIndex? (n - 6)).map (⟨.black, ·⟩)

/-- The material value of a piece, the same for both sides. -/
def value (p : Piece) : Int := p.kind.value

/-- The letter of a piece: upper case for White, lower case for Black. -/
def letter (p : Piece) : Char :=
  match p.color with
  | .white => p.kind.letter.toUpper
  | .black => p.kind.letter

/-- The piece with the given letter. -/
def ofLetter? (c : Char) : Option Piece :=
  let color := if c.isUpper then Color.white else Color.black
  (Kind.ofLetter? c.toLower).map (⟨color, ·⟩)

/-- A piece as fault messages print it. -/
def describe (p : Piece) : String :=
  s!"Piece \x7b color: {p.color.name}, kind: {p.kind.name} \x7d"

/-- The content of a square as fault messages print it. -/
def describeHolder : Option Piece → String
  | some p => s!"Some({p.describe})"
  | none => "None"

@[simp] theorem ofIndex?_index (p : Piece) : ofIndex? p.index = some p := by
  obtain ⟨c, k⟩ := p
  cases c <;> cases k <;> rfl

@[simp] theorem ofLetter?_letter (p : Piece) : ofLetter? p.letter = some p := by
  obtain ⟨c, k⟩ := p
  cases c <;> cases k <;> rfl

theorem index_lt (p : Piece) : p.index < 12 := by
  obtain ⟨c, k⟩ := p
  cases c <;> cases k <;> decide

end Piece

end ChessEngine
