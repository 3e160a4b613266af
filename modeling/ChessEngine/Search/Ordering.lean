import ChessEngine.Position.Basic

/-!
# Move ordering

Moves are tried in the order of a rank: the table move, captures by most
valuable victim and then least valuable attacker, promotions, the two killers of
the ply, and quiet moves by their history score.  `MoveOrdering` holds killers
and history scores and learns from cutoffs; `selectBest` picks the next move.
-/

namespace ChessEngine

/-- The number of plies a search can reach. -/
def maxPly : Nat := 64

/-- The two latest different quiet moves that caused a cutoff at one ply. -/
structure Killers where
  first : Option Move
  second : Option Move
deriving DecidableEq

namespace Killers

/-- No killer. -/
def none : Killers := ⟨.none, .none⟩

/-- Makes a move the first killer. -/
def record (k : Killers) (m : Move) : Killers :=
  if k.first = some m then k else ⟨some m, k.first⟩

end Killers

/-- What a search has learned about quiet moves. -/
structure MoveOrdering where
  /-- Scores by piece and target square. -/
  history : Vector Int 768
  /-- Killers by ply. -/
  killers : Vector Killers 64
deriving DecidableEq

namespace MoveOrdering

/-! ## Ranks -/

/-- The rank of the table move. -/
def tableRank : Int := 2000000

/-- The least rank of captures, but for the attacker's number. -/
def captureRank : Int := 1000000

/-- The least rank of promotions. -/
def promotionRank : Int := 950000

/-- The rank of the first killer. -/
def firstKillerRank : Int := 900000

/-- The rank of the second killer. -/
def secondKillerRank : Int := 800000

/-- The largest history score. -/
def historyLimit : Int := 700000

/-! ## Learning -/

/-- Nothing learned. -/
def fresh : MoveOrdering where
  history := .replicate 768 0
  killers := .replicate 64 .none

/-- The place of a piece and a target square among the history scores. -/
def historySlot (piece : Piece) (target : Square) : Fin 768 :=
  ⟨64 * piece.index + target.val, by have := piece.index_lt; omega⟩

/-- The history score of a piece and a target square. -/
def historyScore (o : MoveOrdering) (piece : Piece) (target : Square) : Int :=
  o.history.get (historySlot piece target)

/-- The killers of a ply, none beyond the last ply. -/
def killersAt (o : MoveOrdering) (ply : Nat) : Killers :=
  (o.killers[ply]?).getD .none

/-- Adds the square of the depth to the history score of a move. -/
def recordHistory (o : MoveOrdering) (p : Position) (m : Move) (depth : Nat) : MoveOrdering :=
  match p.pieceOn m.origin with
  | some piece =>
    let i := historySlot piece m.target
    let score := min (o.history.get i + (depth * depth : Nat)) historyLimit
    { o with history := o.history.set i score i.isLt }
  | none => o

/-- Makes a move the first killer of a ply. -/
def recordKiller (o : MoveOrdering) (m : Move) (ply : Nat) : MoveOrdering :=
  if h : ply < 64 then { o with killers := o.killers.set ply (o.killers[ply].record m) } else o

/-- Learns from a move in `p` that caused a cutoff; only quiet moves count. -/
def recordCutoff (o : MoveOrdering) (p : Position) (m : Move) (ply depth : Nat) : MoveOrdering :=
  if m.isQuiet then (o.recordKiller m ply).recordHistory p m depth else o

/-! ## Ranking -/

/-- The rank of a move in `p`. -/
def rank (o : MoveOrdering) (p : Position) (killers : Killers) (tableMove : Option Move)
    (m : Move) : Int :=
  let attacker := p.pieceOn m.origin
  if tableMove = some m then tableRank
  else match (if m.isCapture then m.captured else none) with
    | some victim =>
      let attackerIndex := match attacker with
        | some piece => piece.kind.index
        | none => 0
      captureRank + (victim.kind.index + 1) * 100 - attackerIndex
    | none =>
      match m.promotedKind with
      | some k => promotionRank + k.index
      | none =>
        if killers.first = some m then firstKillerRank
        else if killers.second = some m then secondKillerRank
        else match attacker with
          | some piece => o.historyScore piece m.target
          | none => 0

end MoveOrdering

/-- A move with its rank. -/
structure RankedMove where
  move : Move
  rank : Int
deriving DecidableEq

/-- The moves of a list with their ranks. -/
def MoveOrdering.rankMoves (o : MoveOrdering) (p : Position) (ply : Nat)
    (tableMove : Option Move) (moves : List Move) : List RankedMove :=
  let killers := o.killersAt ply
  moves.map fun m => ⟨m, o.rank p killers tableMove m⟩

/-! ## Picking -/

/-- Where a list has its last move of the highest rank, if some move ranks at least as high as
`rank`.  The first entry of the list has the place `here`. -/
def lastBest (rank : Int) (place here : Nat) : List RankedMove → Nat
  | [] => place
  | m :: rest =>
    if rank ≤ m.rank then lastBest m.rank here (here + 1) rest
    else lastBest rank place (here + 1) rest

/-- Exchanges the first move with the last of those that rank highest. -/
def selectBest : List RankedMove → List RankedMove
  | [] => []
  | m :: rest =>
    match lastBest m.rank 0 1 rest with
    | 0 => m :: rest
    | i + 1 =>
      match rest[i]? with
      | some best => best :: rest.set i m
      | none => m :: rest

/-- Exchanges the move at `start` with the last of those that rank highest from there on. -/
def bringBest (moves : List RankedMove) (start : Nat) : List RankedMove :=
  moves.take start ++ selectBest (moves.drop start)

/-- The same exchange on moves and ranks that are kept in two lists.  From `start` on each move
needs a rank; ranks without a move stay where they are. -/
def bringBestOf (moves : List Move) (ranks : List Int) (start : Nat) :
    Except Fault (List Move × List Int) :=
  if moves.length ≤ start then .ok (moves, ranks)
  else if ranks.length < moves.length then .error .outOfBounds
  else
    let ranked := bringBest (List.zipWith RankedMove.mk moves ranks) start
    .ok (ranked.map (·.move), ranked.map (·.rank) ++ ranks.drop moves.length)

end ChessEngine
