import ChessEngine.Generator.Pseudo
import ChessEngine.InputError
import ChessEngine.Position.Make
import ChessEngine.Text

/-!
# Legal moves and moves as text

A move is legal if it is generated and the legality gate accepts it.  Every
function here tries moves by making them and taking them back, so each of them
also returns the position it ends with.  `Position.resolve` finds the legal move
that a text names, and `Position.play` makes the moves of a list of texts.
-/

namespace ChessEngine

/-- The parts of a move text: two squares and at most one promotion kind. -/
structure MoveText where
  origin : Square
  target : Square
  promotion : Option Kind
deriving DecidableEq

namespace MoveText

/-- Reads two squares. -/
def ofChars? (f r f' r' : Char) (promotion : Option Kind) : Option MoveText :=
  match Square.ofChars? f r, Square.ofChars? f' r' with
  | some origin, some target => some ⟨origin, target, promotion⟩
  | _, _ => none

/-- The promotion kind with the given letter. -/
def promotionOfLetter? : Char → Option Kind
  | 'n' => some .knight
  | 'b' => some .bishop
  | 'r' => some .rook
  | 'q' => some .queen
  | _ => none

/-- Reads a move text. -/
def parse? (text : String) : Option MoveText :=
  match text.toList with
  | [f, r, f', r'] => ofChars? f r f' r' none
  | [f, r, f', r', k] =>
    match promotionOfLetter? k with
    | some kind => ofChars? f r f' r' (some kind)
    | none => none
  | _ => none

/-- Reads a move text, with the error that a text of any other form gets. -/
def parse (text : String) : Except InputError MoveText :=
  match parse? text with
  | some parts => .ok parts
  | none => .error (.malformedMove text)

/-- Whether a move has the squares and the promotion kind of a text. -/
def names (t : MoveText) (m : Move) : Bool :=
  m.origin == t.origin && m.target == t.target && m.promotedKind == t.promotion

end MoveText

namespace Position

variable [ZobristKeys]

/-- Whether the legality gate accepts a move; an accepted move is taken back. -/
def accepts (p : Position) (m : Move) : Except Fault (Bool × Position) := do
  let (accepted, p) ← p.make m
  if accepted then return (true, ← p.takeBack) else return (false, p)

/-- The moves of a list that the legality gate accepts. -/
def retainAccepted (p : Position) : List Move → Except Fault (List Move × Position)
  | [] => return ([], p)
  | m :: rest => do
    let (accepted, p) ← p.accepts m
    let (kept, p) ← p.retainAccepted rest
    return (if accepted then m :: kept else kept, p)

/-- The legal moves, in the order of generation. -/
def legalMoves (p : Position) : Except Fault (List Move × Position) :=
  p.retainAccepted p.pseudoMoves

/-- The first move of a list that the legality gate accepts. -/
def firstAccepted (p : Position) : List Move → Except Fault (Option Move × Position)
  | [] => return (none, p)
  | m :: rest => do
    let (accepted, p) ← p.accepts m
    if accepted then return (some m, p) else p.firstAccepted rest

/-! ## Moves as text -/

/-- Finds the legal move that a text names. -/
def resolve (p : Position) (text : String) : Except Fault (Except InputError Move × Position) := do
  match MoveText.parse text with
  | .error e => return (.error e, p)
  | .ok parts =>
    let (moves, p) ← p.legalMoves
    match moves.find? parts.names with
    | some m => return (.ok m, p)
    | none => return (.error (.illegalMove text), p)

/-- Makes the moves that the words name, up to the first that names no legal move. -/
def playWords (p : Position) : List String → Except Fault (Except InputError (List Move) × Position)
  | [] => return (.ok [], p)
  | word :: rest => do
    match ← p.resolve word with
    | (.error e, p) => return (.error e, p)
    | (.ok m, p) =>
      let (accepted, p) ← p.make m
      if accepted then
        let (played, p) ← p.playWords rest
        return (played.map (m :: ·), p)
      else return (.error (.illegalMove word), p)

/-- Makes the moves of a text, whose words are separated by blanks. -/
def play (p : Position) (text : String) : Except Fault (Except InputError (List Move) × Position) :=
  p.playWords (Text.words text)

end Position

end ChessEngine
