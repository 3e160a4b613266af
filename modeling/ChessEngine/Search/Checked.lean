import ChessEngine.Search.Runs

/-!
# Scores and ranks in words

Scores, ranks and what a move ordering learns are integers, but a machine keeps
them in words of 32 bits, and an operation whose result does not fit into one is
a failure.  Here are the same calculations step by step, with every result
checked: each answers `none` as soon as one of its steps does not fit.
-/

namespace ChessEngine

/-! ## Scores -/

namespace PawnWeights

/-- Takes a penalty for each of `count` pawns off a score. -/
def takeOff (score : Int) (count : Nat) (weight : Int) : Option Int := do
  let penalty ← fit? (count * weight)
  fit? (score - penalty)

/-- Takes the penalties for the pawns on one file off a score. -/
def checkedFile (w : PawnWeights) (files : Vector Nat 8) (score : Int) (f : Nat) : Option Int :=
  let count := countOn files f
  let neighbours := countOn files (f + 1) + (if f = 0 then 0 else countOn files (f - 1))
  if count = 0 then some score
  else do
    let score ← (if 1 < count then takeOff score (count - 1) w.doubled else some score)
    if neighbours = 0 then takeOff score count w.isolated else some score

/-- Adds the bonus for the attacks on one centre square to a score. -/
def checkedCentre (w : PawnWeights) (p : Position) (c : Color) (score : Int) (s : Square) :
    Option Int := do
  let bonus ← fit? (p.pawnControl c s * w.centre)
  fit? (score + bonus)

/-- What the pawns of a side contribute. -/
def checkedTerms (w : PawnWeights) (p : Position) (c : Color) : Option Int := do
  let score ← (List.range 8).foldlM (w.checkedFile (p.placement.pawnsOnFile.get c)) 0
  centreSquares.foldlM (w.checkedCentre p c) score

/-- Material with the structure of the pawns. -/
def checkedScore (w : PawnWeights) (p : Position) : Option Int := do
  let material ← fit? (p.material .white - p.material .black)
  let white ← w.checkedTerms p .white
  let black ← w.checkedTerms p .black
  let pawns ← fit? (white - black)
  let score ← fit? (material + pawns)
  match p.side with
  | .white => return score
  | .black => fit? (-score)

end PawnWeights

/-! ## Ranks -/

namespace MoveOrdering

/-- Adds the square of the depth to a history score. -/
def checkedGain (score : Int) (depth : Nat) : Option Int := do
  let bonus ← fit? ((depth : Int) * depth)
  let total ← fit? (score + bonus)
  return min total historyLimit

/-- The ordering with another score for a piece and a target square. -/
def withScore (o : MoveOrdering) (piece : Piece) (target : Square) (score : Int) : MoveOrdering :=
  { o with
    history := o.history.set (historySlot piece target) score (historySlot piece target).isLt }

/-- Adds the square of the depth to the history score of a move. -/
def checkedHistory (o : MoveOrdering) (p : Position) (m : Move) (depth : Nat) :
    Option MoveOrdering :=
  (p.pieceOn m.origin).elim (some o) fun piece =>
    (checkedGain (o.historyScore piece m.target) depth).map (o.withScore piece m.target)

/-- The ordering after a call. -/
def checkedCall (o : MoveOrdering) : OrderingCall → Option MoveOrdering
  | .clear => some .fresh
  | .cutoff p m ply depth =>
    if m.isQuiet then (o.recordKiller m ply).checkedHistory p m depth else some o

/-- The ordering after a sequence of calls on a fresh one. -/
def checkedRun (calls : List OrderingCall) : Option MoveOrdering := calls.foldlM checkedCall fresh

/-- The rank of a capture by a piece of kind `attacker`. -/
def checkedCapture (victim : Kind) (attacker : Nat) : Option Int := do
  let place ← fit? (victim.index + 1)
  let worth ← fit? (place * 100)
  let rank ← fit? (captureRank + worth)
  fit? (rank - attacker)

/-- The rank of a move in `p`. -/
def checkedRank (o : MoveOrdering) (p : Position) (killers : Killers) (tableMove : Option Move)
    (m : Move) : Option Int :=
  let attacker := p.pieceOn m.origin
  if tableMove = some m then some tableRank
  else match (if m.isCapture then m.captured else none) with
    | some victim => checkedCapture victim.kind ((attacker.map (·.kind.index)).getD 0)
    | none =>
      match m.promotedKind with
      | some k => fit? (promotionRank + k.index)
      | none =>
        if killers.first = some m then some firstKillerRank
        else if killers.second = some m then some secondKillerRank
        else some ((attacker.map fun piece => o.historyScore piece m.target).getD 0)

/-- The moves of a list with their ranks. -/
def checkedRankMoves (o : MoveOrdering) (p : Position) (ply : Nat) (tableMove : Option Move)
    (moves : List Move) : Option (List RankedMove) :=
  moves.mapM fun m => (o.checkedRank p (o.killersAt ply) tableMove m).map (RankedMove.mk m)

end MoveOrdering

end ChessEngine
