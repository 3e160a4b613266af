import ChessEngine.Proofs.Generator.Distinct

/-!
# Generating captures alone

The generator of captures leaves out branches where the generator of all moves
takes them.  What it offers is the list of all moves without those that are not
flagged as captures, in the same order (`filter_pseudoMovesOf`): family by family,
and whatever the tables of the position hold.

That a flagged move also says what it captures is another matter, and needs
tables that agree with the board: `Movement.takes` reads it off the rules of
movement.
-/

namespace ChessEngine

namespace Position

section

variable {p : Position} {c : Color} {k : Kind} {s t : Square} {m : Move} {captured : Option Piece}
  {flags : MoveFlags}

/-! ## What the flag selects, family by family -/

theorem filter_movesTo (targets : Bitboard) :
    (p.movesTo .all s targets).filter (·.isCapture) = p.movesTo .captures s targets := by
  unfold movesTo
  rw [List.filter_filterMap]
  refine List.filterMap_congr fun t _ => ?_
  cases p.pieceOn t with
  | none => rfl
  | some victim => rfl

theorem filter_pieceMoves :
    (p.pieceMoves c .all k).filter (·.isCapture) = p.pieceMoves c .captures k := by
  unfold pieceMoves
  rw [List.filter_flatMap]
  exact List.flatMap_congr fun s _ => filter_movesTo _

theorem filter_castlingMoves : (p.castlingMoves c s).filter (·.isCapture) = [] := by
  refine List.filter_eq_nil_iff.2 fun m member => ?_
  obtain ⟨w, -, rfl⟩ := mem_castlingMoves.1 member
  exact Bool.false_ne_true

theorem filter_kingMoves :
    (p.kingMoves c .all).filter (·.isCapture) = p.kingMoves c .captures := by
  unfold kingMoves
  cases p.kingSquare c with
  | none => rfl
  | some king =>
    dsimp only
    rw [List.filter_append, filter_movesTo, if_pos rfl, filter_castlingMoves, if_neg nofun]

theorem isCapture_of_mem_pawnArrivals (member : m ∈ pawnArrivals c s t captured flags) :
    m.isCapture = flags.capture := by
  obtain ⟨promoted, rfl, -⟩ := mem_pawnArrivals.1 member
  rfl

theorem filter_pawnCaptures :
    (p.pawnCaptures c s).filter (·.isCapture) = p.pawnCaptures c s := by
  refine List.filter_eq_self.2 fun m member => ?_
  obtain ⟨t, -, arrival⟩ := List.mem_flatMap.1 member
  exact isCapture_of_mem_pawnArrivals arrival

theorem filter_pawnEnPassant :
    (p.pawnEnPassant c s).filter (·.isCapture) = p.pawnEnPassant c s := by
  unfold pawnEnPassant
  split
  · split
    · rfl
    · rfl
  · rfl

theorem filter_pawnDoublePush : (p.pawnDoublePush c s).filter (·.isCapture) = [] := by
  unfold pawnDoublePush
  split
  · split
    · rfl
    · rfl
  · rfl

theorem filter_pawnPushes : (p.pawnPushes c s).filter (·.isCapture) = [] := by
  delta pawnPushes
  cases p.emptyAhead? c s 1 with
  | none => rfl
  | some t =>
    dsimp only
    rw [List.filter_append, filter_pawnDoublePush, List.append_nil]
    refine List.filter_eq_nil_iff.2 fun m member => ?_
    rw [isCapture_of_mem_pawnArrivals member]
    exact Bool.false_ne_true

theorem filter_pawnMoves :
    (p.pawnMoves c .all).filter (·.isCapture) = p.pawnMoves c .captures := by
  unfold pawnMoves
  rw [List.filter_flatMap]
  refine List.flatMap_congr fun s _ => ?_
  rw [List.filter_append, List.filter_append, filter_pawnCaptures, filter_pawnEnPassant,
    if_pos rfl, filter_pawnPushes, if_neg nofun]

/-! ## All moves -/

theorem filter_movesOfKind :
    (p.movesOfKind c .all k).filter (·.isCapture) = p.movesOfKind c .captures k := by
  cases k with
  | pawn => exact filter_pawnMoves
  | king => exact filter_kingMoves
  | knight | bishop | rook | queen => exact filter_pieceMoves

theorem filter_pseudoMovesOf :
    (p.pseudoMovesOf c .all).filter (·.isCapture) = p.pseudoMovesOf c .captures := by
  rw [pseudoMovesOf_eq, pseudoMovesOf_eq, List.filter_flatMap]
  exact List.flatMap_congr fun k _ => filter_movesOfKind

end

section

variable [ZobristKeys] {p : Position} {c : Color} {m : Move}

/-! ## What a capture takes -/

/-- The move names the enemy piece that it takes, on its target or, in passing, behind it. -/
def Takes (p : Position) (c : Color) (m : Move) : Prop :=
  ∃ k v, m.captured = some ⟨c.opposite, k⟩ ∧ p.pieceOn v = some ⟨c.opposite, k⟩ ∧
    if m.isEnPassant then enPassantVictim? c m.target = some v else v = m.target

/-- A move that the rules flag as a capture takes something. -/
theorem Movement.takes (firm : p.Firm) (movement : p.Movement c m)
    (capture : m.isCapture = true) : p.Takes c m := by
  cases movement with
  | @piece k s t notPawn held attacks free =>
    obtain ⟨⟨d, l⟩, present⟩ := Option.isSome_iff_exists.1 capture
    cases Color.eq_opposite (free _ present)
    exact ⟨l, t, present, present, rfl⟩
  | @pawnCapture s t victim promoted held attacks taken enemy fits =>
    obtain ⟨d, l⟩ := victim
    cases enemy
    exact ⟨l, t, rfl, taken, rfl⟩
  | @enPassant s t mine set held attacks =>
    obtain ⟨-, -, -, v, behind, pawn⟩ :=
      Movement.victim firm (.enPassant mine set held attacks) rfl
    exact ⟨.pawn, v, rfl, pawn, behind⟩
  | push => cases capture
  | doublePush => cases capture
  | castle => cases capture

end

/-! ## In the course of a game -/

/-- In every position of a game the generator of captures offers a side, in the same order, what the
generator of all moves offers it without the moves that are not flagged as captures.  Each of them
names the enemy piece that it takes, and it is on the board. -/
theorem captures_of_reachable [ZobristKeys] {p : Position} (reachable : p.Reachable) (c : Color) :
    p.pseudoMovesOf c .captures = (p.pseudoMovesOf c .all).filter (·.isCapture) ∧
      ∀ m ∈ p.pseudoMovesOf c .captures, m.isCapture = true ∧ p.Takes c m := by
  have firm := reachable.grounded.firm
  refine ⟨filter_pseudoMovesOf.symm, fun m member => ?_⟩
  rw [← filter_pseudoMovesOf] at member
  obtain ⟨generated, capture⟩ := List.mem_filter.1 member
  exact ⟨capture, Movement.takes firm ((mem_pseudoMovesOf firm.consistent).1 generated) capture⟩

end Position

namespace Rehearsal

/-- Black has just pushed a pawn past the one on e5. -/
def pushed : Position := (start.follow? (moves.take 1)).get (by decide +kernel)

theorem reachable_pushed : pushed.Reachable :=
  reachable.of_reaches (Position.played_of_follow? (Option.some_get _).symm).reaches

end Rehearsal

namespace Position

/-- White may take in passing and, in four ways, promote by a capture. -/
theorem captures_of_pushed :
    (Rehearsal.pushed.pseudoMovesOf .white .captures).map Move.text =
        ["e5d6", "b7a8q", "b7a8r", "b7a8b", "b7a8n"] ∧
      ((Rehearsal.pushed.pseudoMovesOf .white .all).filter (·.isCapture)).map Move.text =
        ["e5d6", "b7a8q", "b7a8r", "b7a8b", "b7a8n"] ∧
      ∀ m ∈ Rehearsal.pushed.pseudoMovesOf .white .captures, Rehearsal.pushed.Takes .white m := by
  obtain ⟨same, takes⟩ := captures_of_reachable Rehearsal.reachable_pushed .white
  have listed : (Rehearsal.pushed.pseudoMovesOf .white .captures).map Move.text =
      ["e5d6", "b7a8q", "b7a8r", "b7a8b", "b7a8n"] := by
    decide +kernel
  exact ⟨listed, same ▸ listed, fun m member => (takes m member).2⟩

end Position

end ChessEngine
