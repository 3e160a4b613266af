import ChessEngine.Attack.Oracle
import ChessEngine.Position.Basic

/-!
# Making moves and taking them back

`Position.apply` carries a move out and records how to undo it, and
`Position.takeBack` undoes the latest record.  `Position.make` is the legality
gate of the engine: it applies the move and takes it back again if the mover's
own king is left attacked.
-/

namespace ChessEngine

namespace Position

variable [ZobristKeys]

/-- Whether the king of side `c` is attacked. -/
def inCheck (p : Position) (c : Color) : Bool := p.placement.inCheck c

/-- The square of the pawn that an en-passant capture by side `mover` on `target` takes. -/
def enPassantVictim? (mover : Color) (target : Square) : Option Square :=
  target.shift? 0 (-Step.forward mover)

/-- The square that a double push from `origin` to `target` passes over. -/
def passedSquare (origin target : Square) : Square :=
  ⟨(origin.val + target.val) / 2, by omega⟩

/-- The squares of a castling move that takes the king to `target`. -/
def castlePath (target : Square) : Except Fault CastlePath :=
  match CastlePath.ofKingTarget? target with
  | some path => .ok path
  | none => .error (.castlingTarget target)

/-! ## Steps of a move -/

/-- Records a move and what it is about to change. -/
def record (p : Position) (m : Move) : Except Fault Position := do
  let history ← p.history.push ⟨m, p.enPassant, p.rights, p.fifty, p.hash⟩
  return { p with history }

/-- Removes the pawn taken en passant. -/
def applyEnPassant (p : Position) (target : Square) : Except Fault Position :=
  match enPassantVictim? p.side target with
  | some victim => p.remove ⟨p.side.opposite, .pawn⟩ victim
  | none => .error .outOfBounds

/-- Removes the pawn taken en passant, or moves the castling rook. -/
def applySpecial (p : Position) (m : Move) : Except Fault Position := do
  if m.isEnPassant then p.applyEnPassant m.target
  else if m.isCastle then
    let path ← castlePath m.target
    p.relocate path.rookHome path.rookTarget
  else return p

/-- Removes the piece captured on the target square. -/
def applyCapture (p : Position) (m : Move) : Except Fault Position := do
  if m.isCapture && !m.isEnPassant then
    match m.captured with
    | some victim => p.remove victim m.target
    | none => throw (.missingVictim m)
  else return p

/-- Replaces a pawn that reached the last rank. -/
def applyPromotion (p : Position) (m : Move) (mover : Piece) : Except Fault Position := do
  match m.promoted with
  | some promoted => (← p.remove mover m.target).add promoted m.target
  | none => return p

/-- The fifty-move counter after a move of `mover`. -/
def fiftyAfter (fifty : Counter) (m : Move) (mover : Piece) : Counter :=
  if m.isCapture || mover.kind = .pawn then 0 else Counter.next fifty

/-- The en-passant square after a move of `mover`. -/
def enPassantAfter (m : Move) (mover : Piece) : Option Square :=
  if mover.kind = .pawn && m.isDoublePush then some (passedSquare m.origin m.target) else none

/-- Gives the move to the other side and counts it. -/
def advance (p : Position) : Position :=
  let fullmove := match p.side with
    | .white => p.fullmove
    | .black => Counter.next p.fullmove
  { p with fullmove, ply := p.ply + 1 }.flipSide

/-- Carries a move out, whether it is legal or not. -/
def apply (p : Position) (m : Move) : Except Fault Position := do
  match p.pieceOn m.origin with
  | none => throw (.emptyOrigin m)
  | some mover =>
    let p ← p.record m
    let p ← p.applySpecial m
    let p := (p.setEnPassant none).setRights (p.rights.afterTouching m.origin m.target)
    let p ← { p with fifty := fiftyAfter p.fifty m mover }.applyCapture m
    let p ← (p.setEnPassant (enPassantAfter m mover)).relocate m.origin m.target
    let p ← p.applyPromotion m mover
    return p.advance

/-! ## Taking back -/

/-- Gives the move back to the side that moved last. -/
def retreat (p : Position) : Position :=
  let p := { p with ply := p.ply - 1 }.flipSide
  match p.side with
  | .white => p
  | .black => { p with fullmove := Counter.previous p.fullmove }

/-- Turns a promoted piece into a pawn again. -/
def revertPromotion (p : Position) (m : Move) : Except Fault Position := do
  match m.promoted with
  | some promoted => (← p.remove promoted m.target).add ⟨p.side, .pawn⟩ m.target
  | none => return p

/-- Puts the pawn taken en passant back.  Beyond the last rank there is no square for it, only the
number of one. -/
def revertEnPassant (p : Position) (target : Square) : Except Fault Position :=
  match enPassantVictim? p.side target with
  | some victim => p.add ⟨p.side.opposite, .pawn⟩ victim
  | none => .error (.addOffBoard (target.val + 8))

/-- Puts a captured piece or a castling rook back. -/
def revertSpecial (p : Position) (m : Move) : Except Fault Position := do
  if m.isEnPassant then p.revertEnPassant m.target
  else if m.isCastle then
    let path ← castlePath m.target
    p.relocate path.rookTarget path.rookHome
  else
    match m.captured with
    | some victim => if m.isCapture then p.add victim m.target else return p
    | none => return p

/-- Takes the latest move back. -/
def takeBack (p : Position) : Except Fault Position := do
  match p.history.pop? with
  | none => throw .emptyHistory
  | some (undo, history) =>
    let p := { p with history }.retreat
    let p := (p.setEnPassant undo.enPassant).setRights undo.rights
    let p ← { p with fifty := undo.fifty }.revertPromotion undo.move
    let p ← p.relocate undo.move.target undo.move.origin
    p.revertSpecial undo.move

/-- Takes several moves back. -/
def takeBackMany (p : Position) : Nat → Except Fault Position
  | 0 => return p
  | n + 1 => do (← p.takeBack).takeBackMany n

/-! ## The legality gate -/

/-- Makes a move.  A move that leaves the mover's own king attacked is taken back again and
answered with `false`. -/
def make (p : Position) (m : Move) : Except Fault (Bool × Position) := do
  let mover := p.side
  let p ← p.apply m
  if p.inCheck mover then return (false, ← p.takeBack) else return (true, p)

end Position

end ChessEngine
