import ChessEngine.Search.Engine

/-!
# Runs of what a search keeps

The operations on a table and on a move ordering as data, so that statements
about every sequence of calls can be made, and the engines that any sequence of
calls can leave behind.
-/

namespace ChessEngine

/-- A call on a table. -/
inductive TableCall where
  | probe (key : UInt64)
  | insert (key : UInt64) (move : Move)
  | clear
deriving DecidableEq

namespace Table

/-- The table after a call. -/
def call (t : Table) : TableCall → Table
  | .probe key => (t.probe key).2
  | .insert key m => t.insert key m
  | .clear => t.clear

/-- The table after a sequence of calls. -/
def run (t : Table) (calls : List TableCall) : Table := calls.foldl call t

end Table

/-- A call on a move ordering. -/
inductive OrderingCall where
  | clear
  | cutoff (position : Position) (move : Move) (ply depth : Nat)

namespace MoveOrdering

/-- The ordering after a call. -/
def call (o : MoveOrdering) : OrderingCall → MoveOrdering
  | .clear => .fresh
  | .cutoff p m ply depth => o.recordCutoff p m ply depth

/-- The ordering after a sequence of calls on a fresh one. -/
def run (calls : List OrderingCall) : MoveOrdering := calls.foldl call fresh

end MoveOrdering

namespace Engine

variable [ZobristKeys]

/-- The engines that calls on any positions can leave behind a new one. -/
inductive Used (config : SearchConfig) (scorer : Scorer) : Engine → Prop
  | new : Used config scorer (.new config scorer)
  | search {e e' : Engine} {p p' : Position} {r : SearchResult} : Used config scorer e →
    e.search p = .ok (r, e', p') → Used config scorer e'
  | alphaBeta {e e' : Engine} {p p' : Position} {depth : Nat} {alpha beta score : Int} :
    Used config scorer e → alphaBeta depth e p alpha beta = .ok (score, e', p') →
    Used config scorer e'
  | followTable {e e' : Engine} {p p' : Position} {depth : Nat} : Used config scorer e →
    e.followTable p depth = .ok (e', p') → Used config scorer e'

end Engine

end ChessEngine
