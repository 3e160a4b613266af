import ChessEngine.Position.Audit
import ChessEngine.Rules.Movement

/-!
# What a move leads to

The rules for carrying a move out, said about each part of a position in its own
words and without an order of steps: `p.Succession m q` holds if `q` is what the
move `m` makes of `p`.  Whether the mover may leave it at that is another matter,
`q.KingSafe p.side`.
-/

namespace ChessEngine

namespace Position

/-- The move takes the pawn on `v` in passing, from the square in front of it. -/
def TakesPassing (p : Position) (m : Move) (v : Square) : Prop :=
  m.isEnPassant = true ∧ m.target.shift? 0 (-Step.forward p.side) = some v

/-- The move castles on wing `w`. -/
def CastlesOn (p : Position) (m : Move) (w : Wing) : Prop :=
  m.isCastle = true ∧ m.target = (CastlePath.of p.side w).kingTarget

/-- Side `c` has no king that a piece of the other side attacks. -/
def KingSafe (p : Position) (c : Color) : Prop :=
  ∀ s, p.pieceOn s = some ⟨c, .king⟩ → ¬ p.AttackedBy c.opposite s

/-- The move `m` makes `q` of `p`. -/
structure Succession [ZobristKeys] (p : Position) (m : Move) (q : Position) : Prop where
  origin : q.pieceOn m.origin = none
  target : q.pieceOn m.target = m.promoted.or (p.pieceOn m.origin)
  passed : ∀ v, p.TakesPassing m v → q.pieceOn v = none
  castled : ∀ w, p.CastlesOn m w → q.pieceOn (CastlePath.of p.side w).rookHome = none ∧
    q.pieceOn (CastlePath.of p.side w).rookTarget = some ⟨p.side, .rook⟩
  elsewhere : ∀ s, s ≠ m.origin → s ≠ m.target → ¬ p.TakesPassing m s →
    (∀ w, p.CastlesOn m w →
      s ≠ (CastlePath.of p.side w).rookHome ∧ s ≠ (CastlePath.of p.side w).rookTarget) →
    q.pieceOn s = p.pieceOn s
  side : q.side = p.side.opposite
  /-- A right is lost if the king or the rook leaves home, or something is captured there. -/
  rights : ∀ c w, q.rights.allows c w = true ↔ p.rights.allows c w = true ∧
    ((CastlePath.of c w).kingHome ≠ m.origin ∧ (CastlePath.of c w).kingHome ≠ m.target) ∧
    ((CastlePath.of c w).rookHome ≠ m.origin ∧ (CastlePath.of c w).rookHome ≠ m.target)
  enPassant : ∀ s, q.enPassant = some s ↔
    m.isDoublePush = true ∧ m.origin.shift? 0 (Step.forward p.side) = some s
  fifty : q.fifty.toNat =
    if m.isCapture = true ∨ p.pieceOn m.origin = some ⟨p.side, .pawn⟩ then 0
    else min (p.fifty.toNat + 1) 65535
  fullmove : q.fullmove.toNat =
    if p.side = .black then min (p.fullmove.toNat + 1) 65535 else p.fullmove.toNat
  ply : q.ply = p.ply + 1
  history : q.history.entries =
    ⟨m, p.enPassant, p.rights, p.fifty, p.hash⟩ :: p.history.entries
  /-- The hash and all tables are those of the new position. -/
  audited : q.audit = .ok ()

end Position

end ChessEngine
