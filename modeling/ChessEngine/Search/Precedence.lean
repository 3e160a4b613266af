import ChessEngine.Search.Ordering

/-!
# Which move is tried before which

The order in which a search wants to try moves, said without ranks: the table move,
captures of much by little, promotions, the killers of the ply in their order, and
quiet moves by their history score.
-/

namespace ChessEngine

namespace MoveOrdering

/-- The move is one of the two killers of a ply. -/
def IsKiller (o : MoveOrdering) (ply : Nat) (m : Move) : Prop :=
  (o.killersAt ply).first = some m ∨ (o.killersAt ply).second = some m

/-- The first move is to be tried before the second one. -/
inductive Outranks (o : MoveOrdering) (p : Position) (ply : Nat) (tableMove : Option Move) :
    Move → Move → Prop
  /-- The table move goes before every other move. -/
  | table {m n : Move} : tableMove = some m → n ≠ m → Outranks o p ply tableMove m n
  /-- A capture goes before whatever captures nothing. -/
  | capture {m n : Move} : tableMove ≠ some n → m.isCapture = true → n.isCapture = false →
    Outranks o p ply tableMove m n
  /-- The capture of more goes before the capture of less. -/
  | victim {m n : Move} {victim other : Piece} : tableMove ≠ some n → m.isCapture = true →
    n.isCapture = true → m.captured = some victim → n.captured = some other →
    other.value < victim.value → Outranks o p ply tableMove m n
  /-- A capture of the same by less goes before one by more. -/
  | attacker {m n : Move} {victim other attacker rival : Piece} : tableMove ≠ some n →
    m.isCapture = true → n.isCapture = true → m.captured = some victim →
    n.captured = some other → other.kind = victim.kind → p.pieceOn m.origin = some attacker →
    p.pieceOn n.origin = some rival → attacker.value < rival.value →
    Outranks o p ply tableMove m n
  /-- A promotion goes before quiet moves. -/
  | promotion {m n : Move} : tableMove ≠ some n → m.isPromotion = true → n.isQuiet = true →
    Outranks o p ply tableMove m n
  /-- Without captures a promotion to more goes before a promotion to less. -/
  | promoted {m n : Move} {piece other : Piece} : tableMove ≠ some n → m.isCapture = false →
    n.isCapture = false → m.promoted = some piece → n.promoted = some other →
    other.value < piece.value → Outranks o p ply tableMove m n
  /-- The first killer goes before the second one. -/
  | killers {m n : Move} : tableMove ≠ some n → (o.killersAt ply).first = some m →
    (o.killersAt ply).second = some n → Outranks o p ply tableMove m n
  /-- A killer goes before the other quiet moves. -/
  | killer {m n : Move} : tableMove ≠ some n → o.IsKiller ply m → n.isQuiet = true →
    ¬ o.IsKiller ply n → Outranks o p ply tableMove m n
  /-- Other quiet moves go by their history score. -/
  | history {m n : Move} {piece other : Piece} : tableMove ≠ some n → m.isQuiet = true →
    n.isQuiet = true → ¬ o.IsKiller ply n → p.pieceOn m.origin = some piece →
    p.pieceOn n.origin = some other →
    o.historyScore other n.target < o.historyScore piece m.target →
    Outranks o p ply tableMove m n

end MoveOrdering

end ChessEngine
