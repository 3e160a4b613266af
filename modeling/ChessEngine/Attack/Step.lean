import ChessEngine.Color
import ChessEngine.Bitboard

/-!
# Attacks that no piece can block

Knights, kings and pawns attack a fixed set of squares from each square.  The
sets are the on-board ends of a list of `(file, rank)` steps, tabulated once.
-/

namespace ChessEngine

/-- A step on the board: files to the right and ranks up. -/
abbrev Step := Int × Int

namespace Step

/-- The eight knight jumps. -/
def knight : List Step :=
  [(1, 2), (2, 1), (2, -1), (1, -2), (-1, -2), (-2, -1), (-2, 1), (-1, 2)]

/-- The eight king steps. -/
def king : List Step :=
  [(-1, -1), (0, -1), (1, -1), (-1, 0), (1, 0), (-1, 1), (0, 1), (1, 1)]

/-- The rank step of a side's pawns. -/
def forward : Color → Int
  | .white => 1
  | .black => -1

/-- The two capturing steps of a side's pawns. -/
def pawn (c : Color) : List Step :=
  [(-1, forward c), (1, forward c)]

/-- The ends of the steps from `s` that stay on the board. -/
def targets (steps : List Step) (s : Square) : List Square :=
  steps.filterMap fun step => s.shift? step.1 step.2

/-- The ends of the steps from every square. -/
def table (steps : List Step) : Vector Bitboard 64 :=
  Vector.ofFn fun s => .ofList (targets steps s)

end Step

/-- The table behind `knightAttacks`. -/
def knightTable : Vector Bitboard 64 := Step.table Step.knight

/-- The table behind `kingAttacks`. -/
def kingTable : Vector Bitboard 64 := Step.table Step.king

/-- The table behind `pawnAttacks .white`. -/
def whitePawnTable : Vector Bitboard 64 := Step.table (Step.pawn .white)

/-- The table behind `pawnAttacks .black`. -/
def blackPawnTable : Vector Bitboard 64 := Step.table (Step.pawn .black)

/-- The squares a knight on `s` attacks. -/
def knightAttacks (s : Square) : Bitboard := knightTable.get s

/-- The squares a king on `s` attacks. -/
def kingAttacks (s : Square) : Bitboard := kingTable.get s

/-- The squares a pawn of side `c` on `s` could capture on. -/
def pawnAttacks (c : Color) (s : Square) : Bitboard :=
  match c with
  | .white => whitePawnTable.get s
  | .black => blackPawnTable.get s

theorem mem_table {steps : List Step} {s t : Square} :
    t ∈ (Step.table steps).get s ↔ ∃ step ∈ steps, s.shift? step.1 step.2 = some t := by
  simp [Step.table, Step.targets]

theorem mem_knightAttacks {s t : Square} :
    t ∈ knightAttacks s ↔ ∃ step ∈ Step.knight, s.shift? step.1 step.2 = some t :=
  mem_table

theorem mem_kingAttacks {s t : Square} :
    t ∈ kingAttacks s ↔ ∃ step ∈ Step.king, s.shift? step.1 step.2 = some t :=
  mem_table

theorem mem_pawnAttacks {c : Color} {s t : Square} :
    t ∈ pawnAttacks c s ↔ ∃ step ∈ Step.pawn c, s.shift? step.1 step.2 = some t := by
  cases c <;> exact mem_table

end ChessEngine
