import ChessEngine.Color
import ChessEngine.Bitboard

/-!
# Castling

`CastlingRights` says which side may still castle on which wing, and
`CastlePath` gives the squares of one castling move.  A right survives a move
exactly when the move touches neither the king's nor the rook's home square.
-/

namespace ChessEngine

/-- A wing of the board. -/
inductive Wing where
  | kingside
  | queenside
deriving DecidableEq

/-- The squares of one castling move. -/
structure CastlePath where
  kingHome : Square
  kingTarget : Square
  rookHome : Square
  /-- Where the rook lands: the square the king passes over. -/
  rookTarget : Square
  /-- The squares between king and rook, which have to be empty. -/
  between : Bitboard
deriving DecidableEq

namespace CastlePath

/-- The castling move of a side on a wing. -/
def of : Color → Wing → CastlePath
  | .white, .kingside => ⟨4, 6, 7, 5, .ofList [5, 6]⟩
  | .white, .queenside => ⟨4, 2, 0, 3, .ofList [1, 2, 3]⟩
  | .black, .kingside => ⟨60, 62, 63, 61, .ofList [61, 62]⟩
  | .black, .queenside => ⟨60, 58, 56, 59, .ofList [57, 58, 59]⟩

/-- The castling move that takes a king to the given square. -/
def ofKingTarget? (target : Square) : Option CastlePath :=
  if target = 6 then some (of .white .kingside)
  else if target = 2 then some (of .white .queenside)
  else if target = 62 then some (of .black .kingside)
  else if target = 58 then some (of .black .queenside)
  else none

theorem ofKingTarget?_kingTarget (c : Color) (w : Wing) :
    ofKingTarget? (of c w).kingTarget = some (of c w) := by
  cases c <;> cases w <;> rfl

end CastlePath

/-- The castling moves that are still allowed. -/
structure CastlingRights where
  whiteKingside : Bool
  whiteQueenside : Bool
  blackKingside : Bool
  blackQueenside : Bool
deriving DecidableEq

namespace CastlingRights

/-- No castling at all. -/
def none : CastlingRights := ⟨false, false, false, false⟩

/-- Whether a side may castle on a wing. -/
def allows (r : CastlingRights) : Color → Wing → Bool
  | .white, .kingside => r.whiteKingside
  | .white, .queenside => r.whiteQueenside
  | .black, .kingside => r.blackKingside
  | .black, .queenside => r.blackQueenside

/-- The rights given by a predicate. -/
def ofPred (p : Color → Wing → Bool) : CastlingRights :=
  ⟨p .white .kingside, p .white .queenside, p .black .kingside, p .black .queenside⟩

/-- Allows a side to castle on a wing. -/
def grant (r : CastlingRights) (c : Color) (w : Wing) : CastlingRights :=
  ofPred fun c' w' => r.allows c' w' || (c = c' && w = w')

/-- Keeps the rights that satisfy a predicate. -/
def restrict (r : CastlingRights) (p : Color → Wing → Bool) : CastlingRights :=
  ofPred fun c w => r.allows c w && p c w

/-- The rights that survive a move from `origin` to `target`. -/
def afterTouching (r : CastlingRights) (origin target : Square) : CastlingRights :=
  if r = none then r else
  r.restrict fun c w =>
    let path := CastlePath.of c w
    path.kingHome != origin && path.kingHome != target &&
      path.rookHome != origin && path.rookHome != target

/-- The four rights as the bits of a number below 16, White's kingside lowest. -/
def bits (r : CastlingRights) : Nat :=
  r.whiteKingside.toNat + 2 * r.whiteQueenside.toNat + 4 * r.blackKingside.toNat +
    8 * r.blackQueenside.toNat

/-- The rights given by the low four bits of a number. -/
def ofBits (n : Nat) : CastlingRights :=
  ⟨n.testBit 0, n.testBit 1, n.testBit 2, n.testBit 3⟩

@[simp] theorem allows_ofPred (p : Color → Wing → Bool) (c : Color) (w : Wing) :
    (ofPred p).allows c w = p c w := by
  cases c <;> cases w <;> rfl

theorem bits_lt (r : CastlingRights) : r.bits < 16 := by
  obtain ⟨_ | _, _ | _, _ | _, _ | _⟩ := r <;> decide

theorem ext_allows {r t : CastlingRights} (h : ∀ c w, r.allows c w = t.allows c w) : r = t := by
  obtain ⟨a, b, c, d⟩ := r
  obtain ⟨a', b', c', d'⟩ := t
  have h1 := h .white .kingside
  have h2 := h .white .queenside
  have h3 := h .black .kingside
  have h4 := h .black .queenside
  simp only [allows] at h1 h2 h3 h4
  rw [h1, h2, h3, h4]

end CastlingRights

end ChessEngine
