import ChessEngine.Position.Audit
import ChessEngine.Position.Setup

/-!
# What a setup has to be

The conditions on a `Setup`, said about its list of pieces as a whole and without
an order of checks: `Setup.Admissible`.  `Setup.Describes` says what such a setup
describes.  Where the list breaks the conditions, `Setup.FirstOffence` names the
first entry that does not go with those before it, and what is wrong with it.
-/

namespace ChessEngine

/-- Which bit of a number asks for a castling right. -/
def CastlingRights.bit : Color → Wing → Nat
  | .white, .kingside => 0
  | .white, .queenside => 1
  | .black, .kingside => 2
  | .black, .queenside => 3

theorem CastlingRights.allows_ofBits (n : Nat) (c : Color) (w : Wing) :
    (ofBits n).allows c w = n.testBit (bit c w) := by
  cases c <;> cases w <;> rfl

namespace Setup

/-- Pieces that can stand on a board together. -/
structure Placeable (pieces : List (Nat × Piece)) : Prop where
  inside : ∀ entry ∈ pieces, entry.1 < 64
  apart : (pieces.map (·.1)).Nodup
  pawns : ∀ entry ∈ pieces, entry.2.kind = .pawn → entry.1 / 8 ≠ 0 ∧ entry.1 / 8 ≠ 7
  kings : ∀ c : Color, pieces.countP (·.2 = ⟨c, .king⟩) ≤ 1

/-- The square with number `n` is empty, and behind it stands a pawn that the side not to move may
just have pushed across it. -/
def JustPassed (pieces : List (Nat × Piece)) (side : Color) (n : Nat) : Prop :=
  n ∉ pieces.map (·.1) ∧
    match side with
    | .white => n / 8 = 5 ∧ (n - 8, ⟨.black, .pawn⟩) ∈ pieces
    | .black => n / 8 = 2 ∧ (n + 8, ⟨.white, .pawn⟩) ∈ pieces

/-- A setup of a position. -/
structure Admissible (setup : Setup) : Prop where
  placeable : Placeable setup.pieces
  enPassant : ∀ n, setup.enPassant = some n → n < 64 ∧ JustPassed setup.pieces setup.side n

instance decidablePlaceable (pieces : List (Nat × Piece)) : Decidable (Placeable pieces) :=
  decidable_of_iff ((∀ entry ∈ pieces, entry.1 < 64) ∧ (pieces.map (·.1)).Nodup ∧
    (∀ entry ∈ pieces, entry.2.kind = .pawn → entry.1 / 8 ≠ 0 ∧ entry.1 / 8 ≠ 7) ∧
    pieces.countP (·.2 = ⟨.white, .king⟩) ≤ 1 ∧ pieces.countP (·.2 = ⟨.black, .king⟩) ≤ 1)
    ⟨fun ⟨inside, apart, pawns, white, black⟩ => ⟨inside, apart, pawns, fun
      | .white => white
      | .black => black⟩,
    fun ⟨inside, apart, pawns, kings⟩ => ⟨inside, apart, pawns, kings .white, kings .black⟩⟩

instance decidableJustPassed (pieces : List (Nat × Piece)) :
    (side : Color) → (n : Nat) → Decidable (JustPassed pieces side n)
  | .white, _ => inferInstanceAs (Decidable (_ ∧ _ ∧ _))
  | .black, _ => inferInstanceAs (Decidable (_ ∧ _ ∧ _))

instance decidableAdmissible (setup : Setup) : Decidable setup.Admissible :=
  decidable_of_iff (Placeable setup.pieces ∧
    ∀ n ∈ setup.enPassant, n < 64 ∧ JustPassed setup.pieces setup.side n)
    ⟨fun ⟨placeable, enPassant⟩ => ⟨placeable, enPassant⟩,
    fun ⟨placeable, enPassant⟩ => ⟨placeable, enPassant⟩⟩

/-- What is wrong with an entry after those before it, in the order in which it is looked at: its
number, its square, and its piece there. -/
inductive Offends (before : List (Nat × Piece)) : Nat × Piece → InputError → Prop
  | outside {n : Nat} {piece : Piece} : 64 ≤ n →
    Offends before (n, piece) (.squareName (toString n))
  | twice {s : Square} {piece : Piece} : s.val ∈ before.map (·.1) →
    Offends before (s.val, piece) (.squareTwice s)
  | backRank {s : Square} {c : Color} : s.val ∉ before.map (·.1) →
    s.val / 8 = 0 ∨ s.val / 8 = 7 → Offends before (s.val, ⟨c, .pawn⟩) (.backRankPawn s)
  | secondKing {s : Square} {c : Color} {n : Nat} : s.val ∉ before.map (·.1) →
    (n, ⟨c, .king⟩) ∈ before → Offends before (s.val, ⟨c, .king⟩) (.secondKing c)

/-- The first entry that does not go with those before it offends with the given error. -/
def FirstOffence (pieces : List (Nat × Piece)) (e : InputError) : Prop :=
  ∃ before entry after, pieces = before ++ entry :: after ∧ Placeable before ∧
    Offends before entry e

/-- The position is the one that the setup describes. -/
structure Describes [ZobristKeys] (setup : Setup) (p : Position) : Prop where
  pieces : ∀ s piece, p.pieceOn s = some piece ↔ (s.val, piece) ∈ setup.pieces
  side : p.side = setup.side
  /-- Of the rights asked for, those are kept whose king and rook stand at home. -/
  rights : ∀ c w, p.rights.allows c w = true ↔ setup.rights.allows c w = true ∧
    ((CastlePath.of c w).kingHome.val, ⟨c, .king⟩) ∈ setup.pieces ∧
    ((CastlePath.of c w).rookHome.val, ⟨c, .rook⟩) ∈ setup.pieces
  enPassant : p.enPassant.map Fin.val = setup.enPassant
  fifty : p.fifty = setup.fifty
  fullmove : p.fullmove = setup.fullmove
  ply : p.ply = 0
  history : p.history = .empty
  /-- The hash and all tables are those of the position. -/
  audited : p.audit = .ok ()

end Setup

end ChessEngine
