import ChessEngine.Attack.Ray

/-!
# Lines between squares

Where a slider could go if nothing stood in its way, and whether something does.
The reach of a slider is the union of its rays.  `lineClear` does not follow a ray:
it looks at the ranks and files strictly between two squares, and goes along a
diagonal by the numbers of its squares, which differ by nine or by seven.
-/

namespace ChessEngine

/-- The reach of a bishop: its attacks on an empty board. -/
def bishopReachTable : Vector Bitboard 64 :=
  Vector.ofFn fun s => .ofList (Step.diagonal.flatMap fun step => ray step s)

/-- The reach of a rook: its attacks on an empty board. -/
def rookReachTable : Vector Bitboard 64 :=
  Vector.ofFn fun s => .ofList (Step.orthogonal.flatMap fun step => ray step s)

/-- The squares a bishop on `s` reaches over an empty board. -/
def bishopReach (s : Square) : Bitboard := bishopReachTable.get s

/-- The squares a rook on `s` reaches over an empty board. -/
def rookReach (s : Square) : Bitboard := rookReachTable.get s

/-- The squares a queen on `s` reaches over an empty board. -/
def queenReach (s : Square) : Bitboard := bishopReach s ∪ rookReach s

/-! ## Ranks and files -/

/-- Whether the places strictly between two numbers are all free. -/
def insideClear (occupied : Bitboard) (place : Fin 8 → Square) (a b : Fin 8) : Bool :=
  let low := min a.val b.val
  let high := max a.val b.val
  (List.range' (low + 1) (high - (low + 1))).all fun i =>
    !occupied.contains (place (Fin.ofNat 8 i))

/-! ## Diagonals -/

/-- The distance of two numbers. -/
def gap (a b : Nat) : Nat := (a - b) + (b - a)

/-- The square whose number is larger by `difference`, if it is on the board and on a neighbouring
file: from the edge of the board a diagonal would go on at the other edge. -/
def diagonalNext? (difference : Int) (s : Square) : Option Square :=
  if h : 0 ≤ s.val + difference ∧ s.val + difference < 64 then
    let t : Square := ⟨(s.val + difference).toNat, by omega⟩
    if gap t.file.val s.file.val = 1 then some t else none
  else none

/-- Goes along a diagonal from `s` to `target`, at most `n` squares far.  An occupied square before
the target and the edge of the board end the way. -/
def diagonalClearFrom (occupied : Bitboard) (difference : Int) (target : Square) :
    (n : Nat) → Square → Bool
  | 0, _ => false
  | n + 1, s =>
    match diagonalNext? difference s with
    | none => false
    | some t =>
      if t = target then true
      else if occupied.contains t then false
      else diagonalClearFrom occupied difference target n t

/-- The difference of the numbers of neighbours on the way from `s` to `t` along a diagonal. -/
def diagonalDifference? (s t : Square) : Option Int :=
  let distance := gap s.val t.val
  if distance % 9 = 0 then some (if s < t then 9 else -9)
  else if distance % 7 = 0 then some (if s < t then 7 else -7)
  else none

/-- Whether no square strictly between two squares of a diagonal is occupied. -/
def diagonalClear (occupied : Bitboard) (s t : Square) : Bool :=
  match diagonalDifference? s t with
  | some difference => diagonalClearFrom occupied difference t 7 s
  | none => false

/-- Whether no square strictly between two squares of a rank, file or diagonal is occupied. -/
def lineClear (occupied : Bitboard) (s t : Square) : Bool :=
  if s.rank = t.rank then insideClear occupied (Square.ofRankFile s.rank) s.file t.file
  else if s.file = t.file then
    insideClear occupied (fun rank => Square.ofRankFile rank s.file) s.rank t.rank
  else diagonalClear occupied s t

end ChessEngine
