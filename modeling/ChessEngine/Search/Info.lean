/-!
# What a search counts

The counters of one search and their text.
-/

namespace ChessEngine

/-- The counters of a search. -/
structure SearchInfo where
  /-- The depth asked for. -/
  depth : Nat
  /-- Moves tried, legal or not. -/
  nodes : Nat
  /-- Moves that the legality gate rejected. -/
  invalidMoves : Nat
  tableInserts : Nat
  repetitions : Nat
  fiftyMoveDraws : Nat
  /-- Nodes cut off at the last ply. -/
  maxDepthReached : Nat
deriving DecidableEq

namespace SearchInfo

/-- Nothing counted yet. -/
def start (depth : Nat) : SearchInfo := ⟨depth, 0, 0, 0, 0, 0, 0⟩

/-- The counters line by line. -/
def lines (i : SearchInfo) : List String :=
  [s!"depth:            {i.depth}",
    s!"nodes:            {i.nodes}",
    s!"invalid moves:    {i.invalidMoves}",
    s!"tt inserts:       {i.tableInserts}",
    s!"repetitions:      {i.repetitions}",
    s!"fifty-move draws: {i.fiftyMoveDraws}",
    s!"depth ceiling:    {i.maxDepthReached}"]

/-- The counters as one text. -/
def text (i : SearchInfo) : String := String.intercalate "\n" i.lines

end SearchInfo

end ChessEngine
