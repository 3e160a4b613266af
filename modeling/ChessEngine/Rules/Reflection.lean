import ChessEngine.Position.Setup

/-!
# Exchanging the sides

Reflecting turns the board upside down and exchanges the sides.  It is an
involution on squares, pieces, rights, moves and setups.
-/

namespace ChessEngine

/-- The square on the same file as seen from the other side. -/
def Square.reflect (s : Square) : Square := Square.ofRankFile s.rank.rev s.file

/-- The same piece of the other side. -/
def Piece.reflect (p : Piece) : Piece := ⟨p.color.opposite, p.kind⟩

/-- The rights with the sides exchanged. -/
def CastlingRights.reflect (r : CastlingRights) : CastlingRights :=
  CastlingRights.ofPred fun c w => r.allows c.opposite w

/-- The move as the other side makes it. -/
def Move.reflect (m : Move) : Move :=
  ⟨m.origin.reflect, m.target.reflect, m.captured.map Piece.reflect, m.promoted.map Piece.reflect,
    m.flags⟩

/-- The setup with the board turned and the sides exchanged. -/
def Setup.reflect (s : Setup) : Setup where
  pieces := s.pieces.map fun (n, piece) => (n ^^^ 56, piece.reflect)
  side := s.side.opposite
  rights := s.rights.reflect
  enPassant := s.enPassant.map (· ^^^ 56)
  fifty := s.fifty
  fullmove := s.fullmove

namespace Square

@[simp] theorem rank_reflect (s : Square) : s.reflect.rank = s.rank.rev := rank_ofRankFile _ _

@[simp] theorem file_reflect (s : Square) : s.reflect.file = s.file := file_ofRankFile _ _

@[simp] theorem reflect_reflect (s : Square) : s.reflect.reflect = s := by
  rw [reflect, rank_reflect, file_reflect, Fin.rev_rev, ofRankFile_rank_file]

/-- On numbers reflecting flips the three bits of the rank. -/
theorem val_reflect : ∀ s : Square, s.reflect.val = s.val ^^^ 56 := by decide

end Square

@[simp] theorem Piece.reflect_reflect (p : Piece) : p.reflect.reflect = p := by
  obtain ⟨c, k⟩ := p
  simp [reflect]

@[simp] theorem CastlingRights.reflect_reflect (r : CastlingRights) : r.reflect.reflect = r :=
  CastlingRights.ext_allows fun c w => by simp [reflect]

@[simp] theorem Move.reflect_reflect (m : Move) : m.reflect.reflect = m := by
  obtain ⟨s, t, captured, promoted, flags⟩ := m
  cases captured <;> cases promoted <;> simp [reflect]

@[simp] theorem Setup.reflect_reflect (s : Setup) : s.reflect.reflect = s := by
  have hx : ∀ n : Nat, n ^^^ 56 ^^^ 56 = n := fun n => by
    rw [Nat.xor_assoc, Nat.xor_self, Nat.xor_zero]
  obtain ⟨pieces, side, rights, enPassant, fifty, fullmove⟩ := s
  cases enPassant <;> simp [reflect, Function.comp_def, hx]

end ChessEngine
