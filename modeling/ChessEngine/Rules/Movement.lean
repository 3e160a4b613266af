import ChessEngine.Attack.Ray
import ChessEngine.Generator.Pseudo

/-!
# How the pieces move

The rules of movement, said about the index of squares alone.  `Attacks` is the
relation between a square and the squares that the piece on it attacks, and
`Movement` says which moves the rules allow a side before anyone asks whether
its king is left attacked.
-/

namespace ChessEngine

namespace Step

/-- `n` repetitions of a step from `s` end on `t`. -/
def Leads (step : Step) (n : Nat) (s t : Square) : Prop :=
  s.shift? (n * step.1) (n * step.2) = some t

/-- The steps along which a kind of piece slides. -/
def sliding : Kind → List Step
  | .bishop => diagonal
  | .rook => orthogonal
  | .queen => diagonal ++ orthogonal
  | _ => []

/-- The steps that a piece takes once, as far as its captures go. -/
def single : Piece → List Step
  | ⟨_, .knight⟩ => knight
  | ⟨_, .king⟩ => king
  | ⟨c, .pawn⟩ => pawn c
  | _ => []

end Step

namespace Position

/-- `t` lies on a line of steps from `s`, and every square strictly between is empty. -/
def Slides (p : Position) (step : Step) (s t : Square) : Prop :=
  ∃ n : Nat, 0 < n ∧ step.Leads n s t ∧
    ∀ k : Nat, 0 < k → k < n → ∃ q : Square, step.Leads k s q ∧ p.pieceOn q = none

/-- A piece on `s` attacks `t`. -/
def PieceAttacks (p : Position) (piece : Piece) (s t : Square) : Prop :=
  (∃ step ∈ Step.single piece, step.Leads 1 s t) ∨
    ∃ step ∈ Step.sliding piece.kind, p.Slides step s t

/-- Some piece of side `c` attacks `t`. -/
def AttackedBy (p : Position) (c : Color) (t : Square) : Prop :=
  ∃ (k : Kind) (s : Square), p.pieceOn s = some ⟨c, k⟩ ∧ p.PieceAttacks ⟨c, k⟩ s t

/-- No piece of side `c` stands on `t`. -/
def FreeOf (p : Position) (c : Color) (t : Square) : Prop :=
  ∀ piece : Piece, p.pieceOn t = some piece → piece.color ≠ c

/-- The promotion piece fits an arrival of a pawn of side `c` on `t`. -/
def PromotionFits (c : Color) (t : Square) (promoted : Option Piece) : Prop :=
  if t.rank = c.lastRank then ∃ k ∈ promotionKinds, promoted = some ⟨c, k⟩ else promoted = none

/-- The conditions of castling, the attack on the king's target square left aside. -/
structure CastlingAllowed (p : Position) (c : Color) (w : Wing) : Prop where
  right : p.rights.allows c w = true
  king : p.kingSquare c = some (CastlePath.of c w).kingHome
  empty : ∀ q ∈ (CastlePath.of c w).between, p.pieceOn q = none
  home_safe : ¬ p.AttackedBy c.opposite (CastlePath.of c w).kingHome
  crossing_safe : ¬ p.AttackedBy c.opposite (CastlePath.of c w).rookTarget

/-- The moves that the rules of movement give side `c`. -/
inductive Movement (p : Position) (c : Color) : Move → Prop
  /-- A knight, bishop, rook, queen or king goes to a square it attacks. -/
  | piece {k : Kind} {s t : Square} : k ≠ .pawn → p.pieceOn s = some ⟨c, k⟩ →
    p.PieceAttacks ⟨c, k⟩ s t → p.FreeOf c t →
    Movement p c ⟨s, t, p.pieceOn t, none,
      { MoveFlags.none with capture := (p.pieceOn t).isSome }⟩
  /-- A pawn takes an enemy piece diagonally. -/
  | pawnCapture {s t : Square} {victim : Piece} {promoted : Option Piece} :
    p.pieceOn s = some ⟨c, .pawn⟩ → p.PieceAttacks ⟨c, .pawn⟩ s t →
    p.pieceOn t = some victim → victim.color = c.opposite → PromotionFits c t promoted →
    Movement p c ⟨s, t, some victim, promoted, { MoveFlags.none with capture := true }⟩
  /-- A pawn takes a pawn that has just passed it. -/
  | enPassant {s t : Square} : c = p.side → p.enPassant = some t →
    p.pieceOn s = some ⟨c, .pawn⟩ → p.PieceAttacks ⟨c, .pawn⟩ s t →
    Movement p c ⟨s, t, some ⟨c.opposite, .pawn⟩, none,
      { MoveFlags.none with capture := true, enPassant := true }⟩
  /-- A pawn goes one square ahead. -/
  | push {s t : Square} {promoted : Option Piece} : p.pieceOn s = some ⟨c, .pawn⟩ →
    s.shift? 0 (Step.forward c) = some t → p.pieceOn t = none → PromotionFits c t promoted →
    Movement p c ⟨s, t, none, promoted, .none⟩
  /-- A pawn goes two squares ahead from where it started. -/
  | doublePush {s q t : Square} : p.pieceOn s = some ⟨c, .pawn⟩ → s.rank = c.pawnRank →
    s.shift? 0 (Step.forward c) = some q → p.pieceOn q = none →
    q.shift? 0 (Step.forward c) = some t → p.pieceOn t = none →
    Movement p c ⟨s, t, none, none, { MoveFlags.none with doublePush := true }⟩
  /-- King and rook castle. -/
  | castle {w : Wing} : p.CastlingAllowed c w →
    Movement p c ⟨(CastlePath.of c w).kingHome, (CastlePath.of c w).kingTarget, none, none,
      { MoveFlags.none with castle := true }⟩

end Position

end ChessEngine
