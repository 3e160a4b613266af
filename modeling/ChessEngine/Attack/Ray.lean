import ChessEngine.Attack.Step

/-!
# Sliding attacks

A slider looks along rays.  `trace` follows one ray up to and including the
first occupied square, and the attack set of a bishop, rook or queen is the
union of its traces.  The reach of a slider is its attack set on an empty board.
A slider may also be thought of beside the board; then it sees the squares of
the rays that enter the board with their first step.
-/

namespace ChessEngine

/-- The squares met from `s` on by repeating a step, at most `n` of them. -/
def walk (step : Step) : Nat → Square → List Square
  | 0, _ => []
  | n + 1, s =>
    match s.shift? step.1 step.2 with
    | some t => t :: walk step n t
    | none => []

/-- The ray of a step: all squares met before the edge of the board. -/
def ray (step : Step) (s : Square) : List Square := walk step 7 s

/-- The squares of a ray up to and including the first occupied one, added to `found`. -/
def trace (occupied : Bitboard) : List Square → Bitboard → Bitboard
  | [], found => found
  | s :: rest, found =>
    if occupied.contains s then found.insert s else trace occupied rest (found.insert s)

namespace Step

/-- The four diagonal steps. -/
def diagonal : List Step := [(1, 1), (-1, 1), (1, -1), (-1, -1)]

/-- The four steps along ranks and files. -/
def orthogonal : List Step := [(0, 1), (0, -1), (1, 0), (-1, 0)]

/-- The rays of some steps from every square. -/
def rays (steps : List Step) : Vector (List (List Square)) 64 :=
  Vector.ofFn fun s => steps.map fun step => ray step s

end Step

/-- The diagonal rays of every square. -/
def diagonalRays : Vector (List (List Square)) 64 := Step.rays Step.diagonal

/-- The rays along ranks and files of every square. -/
def orthogonalRays : Vector (List (List Square)) 64 := Step.rays Step.orthogonal

/-- The squares seen along some rays. -/
def sweep (occupied : Bitboard) (rays : List (List Square)) : Bitboard :=
  rays.foldl (fun found line => trace occupied line found) ∅

/-- The squares a bishop on `s` attacks. -/
def bishopAttacks (s : Square) (occupied : Bitboard) : Bitboard :=
  sweep occupied (diagonalRays.get s)

/-- The squares a rook on `s` attacks. -/
def rookAttacks (s : Square) (occupied : Bitboard) : Bitboard :=
  sweep occupied (orthogonalRays.get s)

/-- The squares a queen on `s` attacks. -/
def queenAttacks (s : Square) (occupied : Bitboard) : Bitboard :=
  bishopAttacks s occupied ∪ rookAttacks s occupied

/-! ## Sliders by place number -/

/-- The ray of a step from the place with the number `n`.  Numbers go on rank by rank beyond the
last square. -/
def rayFrom (step : Step) (n : Nat) : List Square :=
  match Square.ofCoordinates? ((n % 8 : Nat) + step.1) ((n / 8 : Nat) + step.2) with
  | some s => s :: ray step s
  | none => []

/-- The squares a bishop on the place with the number `n` attacks. -/
def bishopAttacksFrom (n : Nat) (occupied : Bitboard) : Bitboard :=
  sweep occupied (Step.diagonal.map (rayFrom · n))

/-- The squares a rook on the place with the number `n` attacks. -/
def rookAttacksFrom (n : Nat) (occupied : Bitboard) : Bitboard :=
  sweep occupied (Step.orthogonal.map (rayFrom · n))

/-- The squares a queen on the place with the number `n` attacks. -/
def queenAttacksFrom (n : Nat) (occupied : Bitboard) : Bitboard :=
  bishopAttacksFrom n occupied ∪ rookAttacksFrom n occupied

theorem rayFrom_square : ∀ step ∈ Step.diagonal ++ Step.orthogonal, ∀ s : Square,
    rayFrom step s.val = ray step s := by
  decide +kernel

theorem bishopAttacksFrom_square (s : Square) (occupied : Bitboard) :
    bishopAttacksFrom s.val occupied = bishopAttacks s occupied := by
  have h : Step.diagonal.map (rayFrom · s.val) = Step.diagonal.map (ray · s) :=
    List.map_congr_left fun step hs => rayFrom_square step (List.mem_append_left _ hs) s
  simp [bishopAttacksFrom, bishopAttacks, h, diagonalRays, Step.rays]

theorem rookAttacksFrom_square (s : Square) (occupied : Bitboard) :
    rookAttacksFrom s.val occupied = rookAttacks s occupied := by
  have h : Step.orthogonal.map (rayFrom · s.val) = Step.orthogonal.map (ray · s) :=
    List.map_congr_left fun step hs => rayFrom_square step (List.mem_append_right _ hs) s
  simp [rookAttacksFrom, rookAttacks, h, orthogonalRays, Step.rays]

end ChessEngine
