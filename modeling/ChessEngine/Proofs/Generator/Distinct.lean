import ChessEngine.Proofs.Generator.Movement
import Mathlib.Data.List.Nodup

/-!
# No move is generated twice

A generated move tells where the generator found it: its origin holds the piece
that moves, its target and flags say the rest.  So the lists of the families
have no duplicates, nor has their concatenation, and together with the rules of
movement (`mem_pseudoMovesOf`) this determines how often a move is generated.  The
siblings of a promotion are counted that way (`promotions_perm`).
-/

namespace ChessEngine

/-- Lists that have no member in common for different indices can be joined. -/
theorem nodup_flatMap_of_apart {α β : Type} {l : List α} {f : α → List β} (nodup : l.Nodup)
    (each : ∀ a ∈ l, (f a).Nodup) (apart : ∀ a ∈ l, ∀ b ∈ l, ∀ x ∈ f a, x ∈ f b → a = b) :
    (l.flatMap f).Nodup := by
  refine List.nodup_flatMap.2 ⟨each, nodup.pairwise_of_forall_ne fun a listed b listed' other => ?_⟩
  exact fun x left right => other (apart a listed b listed' x left right)

namespace Position

section

variable {p : Position} {c : Color} {k : Kind} {s t : Square} {m : Move} {scope : Scope}

/-! ## Families -/

theorem nodup_movesTo {targets : Bitboard} : (p.movesTo scope s targets).Nodup := by
  refine (Placement.nodup_squares targets).filterMap fun t t' m left right => ?_
  have atLeft : m.target = t := by
    split at left
    · cases left
      rfl
    · split at left <;> cases left
      rfl
  have atRight : m.target = t' := by
    split at right
    · cases right
      rfl
    · split at right <;> cases right
      rfl
  exact atLeft.symm.trans atRight

theorem origin_of_mem_movesTo {targets : Bitboard} (member : m ∈ p.movesTo scope s targets) :
    m.origin = s ∧ m.isCastle = false := by
  obtain ⟨t, -, -, rfl⟩ := mem_movesTo.1 member
  exact ⟨rfl, rfl⟩

theorem nodup_pieceMoves : (p.pieceMoves c scope k).Nodup := by
  refine nodup_flatMap_of_apart (Placement.nodup_squares _) (fun _ _ => nodup_movesTo) ?_
  intro s _ s' _ m left right
  exact (origin_of_mem_movesTo left).1.symm.trans (origin_of_mem_movesTo right).1

theorem nodup_castlingMoves : (p.castlingMoves c s).Nodup := by
  have wings : [Wing.kingside, Wing.queenside].Nodup := by decide
  refine wings.filterMap fun w w' m left right => ?_
  have target : ∀ w, m ∈ (if p.mayCastle c s w = true then
      some (⟨s, (CastlePath.of c w).kingTarget, none, none,
        { MoveFlags.none with castle := true }⟩ : Move)
      else none) → m.target = (CastlePath.of c w).kingTarget := by
    intro w found
    split at found <;> cases found
    rfl
  have same := (target w left).symm.trans (target w' right)
  revert same
  cases c <;> cases w <;> cases w' <;> decide

theorem nodup_kingMoves : (p.kingMoves c scope).Nodup := by
  unfold kingMoves
  split
  · exact List.nodup_nil
  · refine List.nodup_append'.2 ⟨nodup_movesTo, ?_, fun m step castling => ?_⟩
    · split
      · exact nodup_castlingMoves
      · exact List.nodup_nil
    · split at castling
      · obtain ⟨w, -, rfl⟩ := mem_castlingMoves.1 castling
        cases (origin_of_mem_movesTo step).2
      · cases castling

/-! ## Pawns -/

theorem nodup_promotions {captured : Option Piece} {flags : MoveFlags} :
    (promotionKinds.map fun k => (⟨s, t, captured, some ⟨c, k⟩, flags⟩ : Move)).Nodup := by
  have kinds : promotionKinds.Nodup := by decide
  refine kinds.map fun k l same => ?_
  injection same with _ _ _ promoted
  injection promoted with piece
  injection piece

theorem nodup_pawnArrivals {captured : Option Piece} {flags : MoveFlags} :
    (pawnArrivals c s t captured flags).Nodup := by
  unfold pawnArrivals
  split
  · exact nodup_promotions
  · exact List.nodup_singleton _

theorem nodup_pawnCaptures : (p.pawnCaptures c s).Nodup := by
  refine nodup_flatMap_of_apart (Placement.nodup_squares _) (fun _ _ => nodup_pawnArrivals) ?_
  intro t _ t' _ m left right
  obtain ⟨_, rfl, -⟩ := mem_pawnArrivals.1 left
  obtain ⟨_, same, -⟩ := mem_pawnArrivals.1 right
  cases same
  rfl

theorem nodup_pawnEnPassant : (p.pawnEnPassant c s).Nodup := by
  unfold pawnEnPassant
  split
  · split
    · exact List.nodup_singleton _
    · exact List.nodup_nil
  · exact List.nodup_nil

theorem nodup_pawnDoublePush : (p.pawnDoublePush c s).Nodup := by
  unfold pawnDoublePush
  split
  · split
    · exact List.nodup_singleton _
    · exact List.nodup_nil
  · exact List.nodup_nil

theorem nodup_pawnPushes : (p.pawnPushes c s).Nodup := by
  -- Only the definition is needed, and its equation lemma takes seconds to derive.
  delta pawnPushes
  split
  · refine List.nodup_append'.2 ⟨nodup_pawnArrivals, nodup_pawnDoublePush,
      fun m single double => ?_⟩
    obtain ⟨_, rfl, -⟩ := mem_pawnArrivals.1 single
    unfold pawnDoublePush at double
    split at double
    · split at double
      · cases List.mem_singleton.1 double
      · cases double
    · cases double
  · exact List.nodup_nil

end

/-! ## All moves -/

section

variable [ZobristKeys] {p : Position} {c : Color} {k : Kind} {s : Square} {m : Move}

theorem nodup_pawnMoves (consistent : p.Consistent) : (p.pawnMoves c .all).Nodup := by
  refine nodup_flatMap_of_apart (Placement.nodup_squares _) (fun s _ => ?_) ?_
  · rw [if_pos rfl]
    refine List.nodup_append'.2 ⟨nodup_pawnCaptures,
      List.nodup_append'.2 ⟨nodup_pawnEnPassant, nodup_pawnPushes, ?_⟩, ?_⟩
    · intro m enPassant pushed
      obtain ⟨_, -, -, -, rfl⟩ := (mem_pawnEnPassant consistent).1 enPassant
      obtain ⟨_, -, -, ⟨_, -, same⟩ | ⟨-, _, -, -, same⟩⟩ := (mem_pawnPushes consistent).1 pushed
      · cases same
      · cases same
    · intro m taken rest
      obtain ⟨_, _, _, -, -, -, -, rfl⟩ := (mem_pawnCaptures consistent).1 taken
      rcases List.mem_append.1 rest with enPassant | pushed
      · obtain ⟨_, -, -, -, same⟩ := (mem_pawnEnPassant consistent).1 enPassant
        cases same
      · obtain ⟨_, -, -, ⟨_, -, same⟩ | ⟨-, _, -, -, same⟩⟩ := (mem_pawnPushes consistent).1 pushed
        · cases same
        · cases same
  · intro s listed s' listed' m left right
    have held : ∀ s ∈ (p.piecesOf c .pawn).squares, p.pieceOn s = some ⟨c, .pawn⟩ :=
      fun s listed => (Shows.mem_piecesOf ⟨consistent, rfl⟩).1 (Bitboard.mem_squares.1 listed)
    rw [← (movement_of_mem_pawn consistent (held s listed) left).2,
      (movement_of_mem_pawn consistent (held s' listed') right).2]

theorem nodup_pseudoMovesOf (consistent : p.Consistent) : (p.pseudoMovesOf c .all).Nodup := by
  have kinds : Kind.all.Nodup := by decide
  rw [pseudoMovesOf_eq]
  refine nodup_flatMap_of_apart kinds (fun k _ => ?_) fun k _ l _ m left right => ?_
  · cases k
    case pawn => exact nodup_pawnMoves consistent
    case king => exact nodup_kingMoves
    all_goals exact nodup_pieceMoves
  · have same := (movement_of_mem consistent left).2.symm.trans (movement_of_mem consistent right).2
    cases same
    rfl

/-! ## En passant -/

/-- An en-passant capture belongs to the side to move, and its victim is there. -/
theorem Movement.victim (firm : p.Firm) (movement : p.Movement c m)
    (enPassant : m.isEnPassant = true) :
    c = p.side ∧ p.enPassant = some m.target ∧ m.captured = some ⟨c.opposite, .pawn⟩ ∧
      ∃ v, enPassantVictim? c m.target = some v ∧ p.pieceOn v = m.captured := by
  cases movement with
  | @enPassant s t mine set =>
    obtain ⟨v, behind, pawn⟩ := (firm.sound.passed t set).pawn
    subst mine
    exact ⟨rfl, set, rfl, v, behind, pawn⟩
  | piece => cases enPassant
  | pawnCapture => cases enPassant
  | push => cases enPassant
  | doublePush => cases enPassant
  | castle => cases enPassant

/-! ## Promotions -/

/-- A move of a pawn to the last rank, and its siblings with another promotion. -/
theorem Movement.promotes (firm : p.Firm) (movement : p.Movement c m)
    (pawn : p.pieceOn m.origin = some ⟨c, .pawn⟩) (last : m.target.rank = c.lastRank) :
    (∃ k ∈ promotionKinds, m = ⟨m.origin, m.target, p.pieceOn m.target, some ⟨c, k⟩,
        { MoveFlags.none with capture := (p.pieceOn m.target).isSome }⟩) ∧
      ∀ k ∈ promotionKinds, p.Movement c { m with promoted := some ⟨c, k⟩ } := by
  have every : ∀ t : Square, t.rank = c.lastRank → ∀ k ∈ promotionKinds,
      PromotionFits c t (some ⟨c, k⟩) := fun t last k listed => by
    rw [PromotionFits, if_pos last]
    exact ⟨k, listed, rfl⟩
  cases movement with
  | @piece k s t notPawn held =>
    cases held.symm.trans pawn
    exact absurd rfl notPawn
  | @pawnCapture s t victim promoted held attacks taken enemy fits =>
    rw [PromotionFits, if_pos last] at fits
    obtain ⟨k, listed, rfl⟩ := fits
    refine ⟨⟨k, listed, ?_⟩, fun k listed => ?_⟩
    · rw [taken]
      rfl
    · exact .pawnCapture held attacks taken enemy (every t last k listed)
  | @enPassant s t mine set =>
    have rank : t.rank = p.side.passedRank := (firm.sound.passed t set).rank
    rw [← mine, show t.rank = c.lastRank from last] at rank
    cases c <;> cases rank
  | @push s t promoted held next empty fits =>
    rw [PromotionFits, if_pos last] at fits
    obtain ⟨k, listed, rfl⟩ := fits
    refine ⟨⟨k, listed, ?_⟩, fun k listed => ?_⟩
    · rw [empty]
      rfl
    · exact .push held next empty (every t last k listed)
  | @doublePush s q t held start next empty shifted =>
    have first := (Square.shift?_eq_some_iff.1 next).2
    have second := (Square.shift?_eq_some_iff.1 shifted).2
    change t.rank = c.lastRank at last
    rw [Fin.ext_iff] at start last
    cases c <;>
      simp only [Step.forward, Color.pawnRank, Color.lastRank] at first second start last <;>
      omega
  | castle allowed =>
    cases (firm.shows.kingSquare_eq.1 allowed.king).symm.trans pawn

/-- A pawn's way to a square of the last rank is offered once for each promotion. -/
theorem promotions_perm (firm : p.Firm) (member : m ∈ p.pseudoMovesOf c .all)
    (pawn : p.pieceOn m.origin = some ⟨c, .pawn⟩) (last : m.target.rank = c.lastRank) :
    ((p.pseudoMovesOf c .all).filter
        fun n => n.origin = m.origin && n.target = m.target).Perm
      (promotionKinds.map fun k => { m with promoted := some ⟨c, k⟩ }) := by
  have mem_iff : ∀ n, n ∈ p.pseudoMovesOf c .all ↔ p.Movement c n := fun n =>
    mem_pseudoMovesOf firm.consistent
  obtain ⟨⟨k, -, here⟩, siblings⟩ := Movement.promotes firm ((mem_iff m).1 member) pawn last
  refine (List.perm_ext_iff_of_nodup ((nodup_pseudoMovesOf firm.consistent).filter _)
    nodup_promotions).2 fun n => ?_
  simp only [List.mem_filter, List.mem_map, Bool.and_eq_true, decide_eq_true_eq, mem_iff]
  constructor
  · rintro ⟨movement, origin, target⟩
    obtain ⟨⟨l, listed, there⟩, -⟩ :=
      Movement.promotes firm movement (origin ▸ pawn) (target ▸ last)
    refine ⟨l, listed, ?_⟩
    rw [here, there, origin, target]
  · rintro ⟨l, listed, rfl⟩
    exact ⟨siblings l listed, rfl, rfl⟩

end

/-! ## In the course of a game -/

/-- In every position of a game the moves generated for a side are those of the rules of movement,
each once.  An en-passant capture has its victim on the board, and a pawn that arrives on the last
rank has one move for each promotion and no other. -/
theorem nodup_and_mem_iff_movement [ZobristKeys] {p : Position} (reachable : p.Reachable)
    (c : Color) :
    (p.pseudoMovesOf c .all).Nodup ∧ (∀ m, m ∈ p.pseudoMovesOf c .all ↔ p.Movement c m) ∧
      (∀ m ∈ p.pseudoMovesOf c .all, m.isEnPassant = true →
        c = p.side ∧ p.enPassant = some m.target ∧ m.captured = some ⟨c.opposite, .pawn⟩ ∧
          ∃ v, enPassantVictim? c m.target = some v ∧ p.pieceOn v = m.captured) ∧
      ∀ m ∈ p.pseudoMovesOf c .all, p.pieceOn m.origin = some ⟨c, .pawn⟩ →
        m.target.rank = c.lastRank →
          ((p.pseudoMovesOf c .all).filter
              fun n => n.origin = m.origin && n.target = m.target).Perm
            (promotionKinds.map fun k => { m with promoted := some ⟨c, k⟩ }) := by
  have firm := reachable.grounded.firm
  exact ⟨nodup_pseudoMovesOf firm.consistent, fun m => mem_pseudoMovesOf firm.consistent,
    fun m member => Movement.victim firm ((mem_pseudoMovesOf firm.consistent).1 member),
    fun m member pawn last => promotions_perm firm member pawn last⟩

/-- Before the rehearsal White, though not to move, could take on a8 and promote in four ways. -/
theorem nodup_and_mem_iff_movement_rehearsal :
    (Rehearsal.start.pseudoMovesOf .white .all).Nodup ∧
      (∀ m, m ∈ Rehearsal.start.pseudoMovesOf .white .all ↔ Rehearsal.start.Movement .white m) ∧
      ((Rehearsal.start.pseudoMovesOf .white .all).filter
          fun n => n.origin = 49 && n.target = 56).Perm
        (promotionKinds.map fun k => ⟨49, 56, some ⟨.black, .rook⟩, some ⟨.white, k⟩,
          { MoveFlags.none with capture := true }⟩) := by
  obtain ⟨nodup, mem_iff, -, promotions⟩ := nodup_and_mem_iff_movement Rehearsal.reachable .white
  refine ⟨nodup, mem_iff, ?_⟩
  have member : ⟨49, 56, some ⟨.black, .rook⟩, some ⟨.white, .queen⟩,
      { MoveFlags.none with capture := true }⟩ ∈ Rehearsal.start.pseudoMovesOf .white .all := by
    decide +kernel
  exact promotions _ member (by decide +kernel) (by decide)

end Position

end ChessEngine
