import ChessEngine.Legal
import ChessEngine.Search.Info
import ChessEngine.Search.Ordering
import ChessEngine.Search.Score
import ChessEngine.Search.Table

/-!
# Searching

`Engine.alphaBeta` values a position by negamax with alpha-beta pruning,
`Engine.followTable` reads the principal variation off the table, and
`Engine.search` deepens iteratively.  All of them make and take back moves on
the position they are given and return it with the engine.

Scores are numbers.  The bounds of a window are words of 32 bits wherever a node
hands them on with the sign changed, and the lowest word has no opposite
(`Engine.negateBound`).
-/

namespace ChessEngine

/-- How to search. -/
structure SearchConfig where
  /-- The depth of the last iteration. -/
  depth : Nat
  tableBytes : Nat
  /-- Whether moves are ordered by rank rather than by generation. -/
  ordering : Bool
deriving DecidableEq

/-- Four plies, 16 MiB and ranked moves. -/
def SearchConfig.standard : SearchConfig := ⟨4, 16777216, true⟩

/-- Half-moves without capture or pawn move after which the game is drawn. -/
def fiftyMoveLimit : Counter := 100

/-- A search with all it has learned. -/
structure Engine where
  config : SearchConfig
  scorer : Scorer
  table : Table
  ordering : MoveOrdering
  info : SearchInfo
  /-- The principal variation read last. -/
  line : List Move
  /-- The best move found at the root. -/
  rootBest : Option Move

/-- What one iteration found. -/
structure Iteration where
  depth : Nat
  score : Int
  bestMove : Option Move
  line : List Move
  /-- Moves tried in this iteration and those before it. -/
  nodes : Nat
deriving DecidableEq

/-- What a search found. -/
structure SearchResult where
  bestMove : Option Move
  bestScore : Int
  reachedDepth : Nat
  line : List Move
  iterations : List Iteration
  info : SearchInfo
deriving DecidableEq

namespace Engine

/-- An engine that has learned nothing but what its table holds. -/
def ofTable (config : SearchConfig) (scorer : Scorer) (table : Table) : Engine where
  config
  scorer
  table
  ordering := .fresh
  info := .start config.depth
  line := []
  rootBest := none

/-- An engine that has learned nothing. -/
def new (config : SearchConfig) (scorer : Scorer) : Engine :=
  ofTable config scorer (.ofBytes config.tableBytes)

/-- An engine that has learned nothing, if its table is not too large. -/
def create (config : SearchConfig) (scorer : Scorer) : Except Fault Engine :=
  (Table.allocate config.tableBytes).map (ofTable config scorer)

/-! ## One node -/

/-- The value of a node that is not searched: a draw by rule, or the last ply reached. -/
def verdict? (e : Engine) (p : Position) : Option (Int × SearchInfo) :=
  if p.isRepetition then some (0, { e.info with repetitions := e.info.repetitions + 1 })
  else if fiftyMoveLimit ≤ p.fifty then
    some (0, { e.info with fiftyMoveDraws := e.info.fiftyMoveDraws + 1 })
  else if maxPly - 1 < p.ply then
    some (e.scorer p, { e.info with maxDepthReached := e.info.maxDepthReached + 1 })
  else none

/-- The moves of a node, ranked if the engine orders its moves. -/
def candidates (e : Engine) (p : Position) : List RankedMove × Engine :=
  if e.config.ordering then
    let (tableMove, table) := e.table.probe p.hash
    (e.ordering.rankMoves p p.ply tableMove p.pseudoMoves, { e with table })
  else (p.pseudoMoves.map fun m => ⟨m, 0⟩, e)

/-- The state of the loop over the moves of a node. -/
structure Progress where
  alpha : Int
  best : Option Move
  /-- Whether some move was accepted. -/
  legal : Bool

/-- How the loop over the moves of a node ends. -/
inductive Ending where
  | cutoff
  | exhausted (progress : Progress)

/-- A value with the engine and the position that a search leaves. -/
abbrev Answer (α : Type) := α × Engine × Position

/-- The opposite of the bound of a window, a fault if it is no word of 32 bits. -/
def negateBound (bound : Int) : Except Fault Int :=
  match fit? (-bound) with
  | some opposite => .ok opposite
  | none => .error .negationOverflow

theorem negateBound_eq_neg {bound : Int} (low : -2147483648 < bound)
    (high : bound ≤ 2147483647) : negateBound bound = .ok (-bound) := by
  have fits : fit? (-bound) = some (-bound) := if_pos (by omega)
  rw [negateBound, fits]

/-- The lowest word has no opposite. -/
theorem negateBound_lowest : negateBound (-2147483648) = .error .negationOverflow := rfl

variable [ZobristKeys]

/-- Counts a move that was tried. -/
def countNode (e : Engine) : Engine :=
  { e with info := { e.info with nodes := e.info.nodes + 1 } }

/-- Counts a move that the legality gate rejected. -/
def countInvalid (e : Engine) : Engine :=
  { e with info := { e.info with invalidMoves := e.info.invalidMoves + 1 } }

/-- Learns from a move that caused a cutoff. -/
def learn (e : Engine) (p : Position) (m : Move) (ply depth : Nat) : Engine :=
  if e.config.ordering then { e with ordering := e.ordering.recordCutoff p m ply depth } else e

/-- Tries the first `count` moves in turn; `child` values the position after a move, in the window
seen from the other side. -/
def tryMoves (child : Engine → Position → Int → Int → Except Fault (Answer Int))
    (ply depth : Nat) (beta : Int) : (count : Nat) →
    List RankedMove → Progress → Engine → Position → Except Fault (Answer Ending)
  | 0, _, progress, e, p => return (.exhausted progress, e, p)
  | count + 1, moves, progress, e, p =>
    match (if e.config.ordering then selectBest moves else moves) with
    | [] => return (.exhausted progress, e, p)
    | ⟨m, _⟩ :: rest => do
      let e := e.countNode
      let (accepted, p) ← p.make m
      if accepted then
        let low ← negateBound beta
        let high ← negateBound progress.alpha
        let (value, e, p) ← child e p low high
        let score := -value
        let p ← p.takeBack
        if beta ≤ score then return (.cutoff, e.learn p m ply depth, p)
        else if progress.alpha < score then
          tryMoves child ply depth beta count rest ⟨score, some m, true⟩ e p
        else tryMoves child ply depth beta count rest { progress with legal := true } e p
      else tryMoves child ply depth beta count rest progress e.countInvalid p

/-- The value of a node without legal moves. -/
def noMoveScore (p : Position) (ply : Nat) : Int :=
  if p.inCheck p.side then -mateScore + ply else 0

/-- Remembers the best move of a node. -/
def remember (e : Engine) (p : Position) (m : Move) (ply : Nat) : Engine :=
  { e with
    table := e.table.insert p.hash m
    info := { e.info with tableInserts := e.info.tableInserts + 1 }
    rootBest := if ply = 0 then some m else e.rootBest }

/-- Values a node of which all moves were tried. -/
def conclude (entryAlpha : Int) (ply : Nat) (progress : Progress) (e : Engine) (p : Position) :
    Answer Int :=
  if !progress.legal then (noMoveScore p ply, e, p)
  else if progress.alpha ≠ entryAlpha then
    match progress.best with
    | some m => (progress.alpha, e.remember p m ply, p)
    | none => (progress.alpha, e, p)
  else (progress.alpha, e, p)

/-- The value of a position from the side of the player to move, as far as it lies between `alpha`
and `beta`. -/
def alphaBeta : (depth : Nat) → Engine → Position → (alpha beta : Int) →
    Except Fault (Answer Int)
  | 0, e, p, _, _ => return (e.scorer p, e, p)
  | depth + 1, e, p, alpha, beta =>
    match e.verdict? p with
    | some (value, info) => return (value, { e with info }, p)
    | none => do
      let ply := p.ply
      let (moves, e) := e.candidates p
      let start : Progress := ⟨alpha, none, false⟩
      let (ending, e, p) ←
        tryMoves (alphaBeta depth) ply (depth + 1) beta moves.length moves start e p
      match ending with
      | .cutoff => return (beta, e, p)
      | .exhausted progress => return conclude alpha ply progress e p

/-! ## The principal variation -/

/-- Makes the moves that the table has for the positions they lead to, at most `limit` of them.
The moves are added to `played`, the latest first. -/
def followMoves : (limit : Nat) → List Move → Engine → Position →
    Except Fault (Answer (List Move))
  | 0, played, e, p => return (played, e, p)
  | limit + 1, played, e, p =>
    let (found, table) := e.table.probe p.hash
    let e := { e with table }
    match found with
    | none => return (played, e, p)
    | some m =>
      if p.pseudoMoves.contains m then do
        let (accepted, p) ← p.make m
        if accepted then followMoves limit (m :: played) e p else return (played, e, p)
      else return (played, e, p)

/-- Reads the principal variation off the table, at most `depth` moves of it. -/
def followTable (e : Engine) (p : Position) (depth : Nat) : Except Fault (Engine × Position) := do
  let (played, e, p) ← followMoves (min depth maxPly) [] e p
  let p ← p.takeBackMany played.length
  return ({ e with line := played.reverse }, p)

/-! ## Iterative deepening -/

/-- Forgets everything learned. -/
def reset (e : Engine) : Engine :=
  { e with
    ordering := .fresh
    line := []
    rootBest := none
    table := e.table.clear
    info := .start e.config.depth }

/-- Searches to one depth. -/
def iteration (e : Engine) (p : Position) (depth : Nat) : Except Fault (Answer Iteration) := do
  let (score, e, p) ← alphaBeta depth e p (-infiniteScore) infiniteScore
  let (e, p) ← e.followTable p depth
  return (⟨depth, score, e.rootBest, e.line, e.info.nodes⟩, e, p)

/-- Searches to `count` more depths after `depth`: the iterations that are completed, and what they
leave unless a fault stops the next one. -/
def deepen (e : Engine) (p : Position) (depth : Nat) : (count : Nat) →
    List Iteration × Except Fault (Engine × Position)
  | 0 => ([], .ok (e, p))
  | count + 1 =>
    match e.iteration p (depth + 1) with
    | .error fault => ([], .error fault)
    | .ok (first, e, p) =>
      let (rest, ending) := e.deepen p (depth + 1) count
      (first :: rest, ending)

/-- The number of iterations of a search. -/
def iterationCount (e : Engine) : Nat := min e.config.depth maxPly

/-- The move to answer with: the best move found last, or else the first legal move.  A root that is
drawn by rule is not searched but still gets a move. -/
def chooseMove (p : Position) : Option Iteration → Except Fault (Option Move × Position)
  | none => return (none, p)
  | some last =>
    match last.bestMove with
    | some m => return (some m, p)
    | none => p.firstAccepted p.pseudoMoves

/-- What a search answers that completed the given iterations. -/
def answer (e : Engine) (p : Position) (staticScore : Int) (iterations : List Iteration) :
    Except Fault (Answer SearchResult) := do
  let last := iterations.getLast?
  let (bestMove, p) ← chooseMove p last
  let result := {
    bestMove
    bestScore := (last.map (·.score)).getD staticScore
    reachedDepth := (last.map (·.depth)).getD 0
    line := (last.map (·.line)).getD []
    iterations
    info := e.info }
  return (result, e, p)

/-- The course of a search: the iterations it completes, and its answer unless a fault stops it. -/
structure Course where
  iterations : List Iteration
  answer : Except Fault (Answer SearchResult)

/-- Searches a position from scratch.  Plies are counted from the position, and the caller's count
is put back at the end. -/
def course (e : Engine) (p : Position) : Course :=
  let callerPly := p.ply
  let e := e.reset
  let p := p.setPly 0
  let staticScore := e.scorer p
  let (iterations, ending) := e.deepen p 0 e.iterationCount
  ⟨iterations, do
    let (e, p) ← ending
    let (result, e, p) ← e.answer p staticScore iterations
    return (result, e, p.setPly callerPly)⟩

/-- What a search from scratch answers. -/
def search (e : Engine) (p : Position) : Except Fault (Answer SearchResult) := (e.course p).answer

end Engine

end ChessEngine
