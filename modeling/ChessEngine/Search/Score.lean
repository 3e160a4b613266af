import ChessEngine.Position.Basic

/-!
# Static scores

A scorer values a position from the side of the player to move.  The two
scorers here read the tables that a position keeps: material alone, or material
with the structure of the pawns.
-/

namespace ChessEngine

/-- A static score of positions, from the side of the player to move. -/
abbrev Scorer := Position → Int

/-- The number, if it fits into a word of 32 bits with a sign. -/
def fit? (n : Int) : Option Int := if -2147483648 ≤ n ∧ n ≤ 2147483647 then some n else none

/-- The score of being checkmated now; a later mate scores closer to zero. -/
def mateScore : Int := 29000

/-- The bound of the window at the root of a search. -/
def infiniteScore : Int := 30000

namespace Position

/-- Turns a score in White's favour into one from the side of the player to move. -/
def fromSide (p : Position) (score : Int) : Int :=
  match p.side with
  | .white => score
  | .black => -score

/-- White's material less Black's. -/
def materialBalance (p : Position) : Int := p.material .white - p.material .black

/-- The score by material alone. -/
def materialScore (p : Position) : Int := p.fromSide p.materialBalance

end Position

/-- The weights of the pawn-structure score. -/
structure PawnWeights where
  /-- The penalty for each pawn beyond the first on its file. -/
  doubled : Int
  /-- The penalty for each pawn without a friendly pawn on a neighbouring file. -/
  isolated : Int
  /-- The bonus for each attack by a pawn on one of the four centre squares. -/
  centre : Int
deriving DecidableEq

namespace PawnWeights

/-- The weights the engine plays with. -/
def standard : PawnWeights := ⟨12, 15, 6⟩

/-- The squares d4, e4, d5 and e5. -/
def centreSquares : List Square := [27, 28, 35, 36]

/-- The number of pawns on file number `f`, none beside the board. -/
def countOn (files : Vector Nat 8) (f : Nat) : Nat := files[f]?.getD 0

/-- The penalty for the pawns on one file. -/
def filePenalty (w : PawnWeights) (files : Vector Nat 8) (f : Nat) : Int :=
  let count := countOn files f
  let neighbours := countOn files (f + 1) + (if f = 0 then 0 else countOn files (f - 1))
  let doubled : Int := (count - 1 : Nat) * w.doubled
  let isolated : Int := if neighbours = 0 then count * w.isolated else 0
  doubled + isolated

/-- What the pawns of a side contribute. -/
def terms (w : PawnWeights) (p : Position) (c : Color) : Int :=
  let files := p.placement.pawnsOnFile.get c
  let centre := centreSquares.foldl (fun total s => total + p.pawnControl c s * w.centre) (0 : Int)
  let penalties := (List.range 8).foldl (fun total f => total + w.filePenalty files f) 0
  centre - penalties

/-- Material with the structure of the pawns. -/
def score (w : PawnWeights) (p : Position) : Int :=
  p.fromSide (p.materialBalance + (w.terms p .white - w.terms p .black))

end PawnWeights

end ChessEngine
