import ChessEngine.Proofs.Attack.Oracle

/-!
# The generator follows the rules of movement

`Movement` says on the index of squares which moves the rules give a side.  Here
each family of generated moves is compared with its rules, in a position whose
tables agree with the index, and `mem_pseudoMovesOf` joins them.

The rules speak of lines and attacks in their own way; `pieceAttacks_iff` and
`attackedBy_iff` translate them into attack sets and the oracle first.
-/

namespace ChessEngine

namespace Position

section

variable {p : Position} {piece : Piece} {step : Step} {c : Color} {s t : Square}

/-! ## Attacks as the rules have them -/

theorem slides_iff (tallied : p.placement.Tallied) :
    p.Slides step s t ↔ ∃ n, 0 < n ∧ step.Sees p.occupied n s t := by
  have free : ∀ q, p.pieceOn q = none ↔ ¬ q ∈ p.occupied := fun q =>
    (not_iff_comm.1 (tallied.allOccupied q).symm).symm
  simp only [Slides, Step.Sees, free]

theorem pieceAttacks_iff (tallied : p.placement.Tallied) :
    p.PieceAttacks piece s t ↔ t ∈ attackSet p.occupied piece s := by
  obtain ⟨c, k⟩ := piece
  unfold PieceAttacks
  simp only [Step.leads_one, slides_iff tallied]
  cases k <;> simp only [Step.single, Step.sliding, List.not_mem_nil, false_and, exists_false,
    or_false, false_or, attackSet]
  case pawn => exact mem_pawnAttacks.symm
  case knight => exact mem_knightAttacks.symm
  case king => exact mem_kingAttacks.symm
  case bishop => exact mem_bishopAttacks.symm
  case rook => exact mem_rookAttacks.symm
  case queen => exact mem_queenAttacks.symm

theorem attackedBy_iff (tallied : p.placement.Tallied) :
    p.AttackedBy c t ↔ p.placement.isAttacked t c = true := by
  rw [tallied.isAttacked_iff]
  simp only [AttackedBy, pieceAttacks_iff tallied]
  rfl

theorem freeOf_iff (tallied : p.placement.Tallied) :
    p.FreeOf c t ↔ ¬ t ∈ p.occupiedBy c := by
  rw [FreeOf, occupiedBy, tallied.occupied]
  constructor
  · rintro free ⟨k, own⟩
    exact free _ own rfl
  · rintro free ⟨d, k⟩ held rfl
    exact free ⟨k, held⟩

end

section

variable [ZobristKeys] {p : Position} {c : Color} {k : Kind} {s t : Square} {m : Move}

/-! ## Pieces -/

/-- The moves of a piece to the squares of its attack set. -/
theorem mem_movesTo_attackSet (consistent : p.Consistent) :
    m ∈ p.movesTo .all s (attackSet p.occupied ⟨c, k⟩ s \ p.occupiedBy c) ↔
      ∃ t, p.PieceAttacks ⟨c, k⟩ s t ∧ p.FreeOf c t ∧
        m = ⟨s, t, p.pieceOn t, none,
          { MoveFlags.none with capture := (p.pieceOn t).isSome }⟩ := by
  rw [mem_movesTo]
  simp only [Bitboard.mem_sdiff, pieceAttacks_iff consistent.tallied,
    freeOf_iff consistent.tallied, true_or, true_and, and_assoc]

theorem mem_pieceMoves (consistent : p.Consistent) (notPawn : k ≠ .pawn) (notKing : k ≠ .king) :
    m ∈ p.pieceMoves c .all k ↔ ∃ s t, p.pieceOn s = some ⟨c, k⟩ ∧
      p.PieceAttacks ⟨c, k⟩ s t ∧ p.FreeOf c t ∧
        m = ⟨s, t, p.pieceOn t, none,
          { MoveFlags.none with capture := (p.pieceOn t).isSome }⟩ := by
  have targets : ∀ s, p.pieceAttacks k s = attackSet p.occupied ⟨c, k⟩ s := fun s => by
    cases k <;> first | rfl | contradiction
  rw [pieceMoves, List.mem_flatMap]
  refine exists_congr fun s => ?_
  rw [targets, mem_movesTo_attackSet consistent, Bitboard.mem_squares,
    Shows.mem_piecesOf ⟨consistent, rfl⟩, ← exists_and_left]
  rfl

/-! ## The king -/

theorem mayCastle_iff (consistent : p.Consistent) {w : Wing}
    (noted : p.kingSquare c = some s) :
    p.mayCastle c s w = true ↔ s = (CastlePath.of c w).kingHome ∧ p.CastlingAllowed c w := by
  have clear : p.occupied.meets (CastlePath.of c w).between = false ↔
      ∀ q ∈ (CastlePath.of c w).between, p.pieceOn q = none := by
    rw [← Bool.not_eq_true, Bitboard.meets_iff, not_exists]
    refine forall_congr' fun q => ?_
    rw [not_and', Shows.mem_occupied ⟨consistent, rfl⟩]
    exact imp_congr_right fun _ => Classical.not_not
  unfold mayCastle
  simp only [Bool.and_eq_true, Bool.not_eq_true', beq_iff_eq, clear, ← Bool.not_eq_true,
    ← attackedBy_iff consistent.tallied]
  constructor
  · rintro ⟨⟨⟨⟨right, rfl⟩, empty⟩, homeSafe⟩, crossingSafe⟩
    exact ⟨rfl, right, noted, empty, homeSafe, crossingSafe⟩
  · rintro ⟨rfl, right, -, empty, homeSafe, crossingSafe⟩
    exact ⟨⟨⟨⟨right, rfl⟩, empty⟩, homeSafe⟩, crossingSafe⟩

omit [ZobristKeys] in
theorem mem_castlingMoves : m ∈ p.castlingMoves c s ↔ ∃ w, p.mayCastle c s w = true ∧
    m = ⟨s, (CastlePath.of c w).kingTarget, none, none,
      { MoveFlags.none with castle := true }⟩ := by
  have wings : ∀ w, w ∈ [Wing.kingside, Wing.queenside] := fun w => by cases w <;> decide
  simp only [castlingMoves, List.mem_filterMap, wings, true_and, Option.ite_none_right_eq_some,
    Option.some.injEq, eq_comm (a := m)]

theorem mem_kingMoves (consistent : p.Consistent) : m ∈ p.kingMoves c .all ↔
    (∃ s t, p.pieceOn s = some ⟨c, .king⟩ ∧ p.PieceAttacks ⟨c, .king⟩ s t ∧ p.FreeOf c t ∧
      m = ⟨s, t, p.pieceOn t, none, { MoveFlags.none with capture := (p.pieceOn t).isSome }⟩) ∨
    ∃ w, p.CastlingAllowed c w ∧
      m = ⟨(CastlePath.of c w).kingHome, (CastlePath.of c w).kingTarget, none, none,
        { MoveFlags.none with castle := true }⟩ := by
  have king : ∀ s, p.pieceOn s = some ⟨c, .king⟩ ↔ p.kingSquare c = some s := fun s =>
    (Shows.kingSquare_eq ⟨consistent, rfl⟩).symm
  unfold kingMoves
  cases noted : p.kingSquare c with
  | none =>
    simp only [king, noted, List.not_mem_nil, reduceCtorEq, false_and, exists_false, false_or,
      false_iff, not_exists]
    rintro w ⟨allowed, -⟩
    cases noted.symm.trans allowed.king
  | some s =>
    have steps := mem_movesTo_attackSet (c := c) (k := .king) (s := s) (m := m) consistent
    dsimp only
    rw [if_pos rfl, List.mem_append, mem_castlingMoves]
    refine or_congr ?_ (exists_congr fun w => ?_)
    · simp only [king, noted, Option.some.injEq, exists_and_left, exists_eq_left']
      exact steps
    · rw [mayCastle_iff consistent noted, and_assoc]
      constructor
      · rintro ⟨rfl, allowed, same⟩
        exact ⟨allowed, same⟩
      · rintro ⟨allowed, same⟩
        have home := Option.some.inj (noted.symm.trans allowed.king)
        subst home
        exact ⟨rfl, allowed, same⟩

/-! ## Pawns -/

theorem mem_pawnCaptures (consistent : p.Consistent) : m ∈ p.pawnCaptures c s ↔
    ∃ t victim promoted, p.PieceAttacks ⟨c, .pawn⟩ s t ∧ p.pieceOn t = some victim ∧
      victim.color = c.opposite ∧ PromotionFits c t promoted ∧
        m = ⟨s, t, some victim, promoted, { MoveFlags.none with capture := true }⟩ := by
  unfold pawnCaptures
  rw [List.mem_flatMap]
  refine exists_congr fun t => ?_
  rw [Bitboard.mem_squares, Bitboard.mem_inter, pieceAttacks_iff consistent.tallied,
    Shows.mem_occupiedBy ⟨consistent, rfl⟩, mem_pawnArrivals]
  constructor
  · rintro ⟨⟨attacked, k, held⟩, promoted, rfl, fits⟩
    refine ⟨⟨_, k⟩, promoted, attacked, held, rfl, fits, ?_⟩
    rw [show p.pieceOn t = _ from held]
  · rintro ⟨⟨d, k⟩, promoted, attacked, held, rfl, fits, rfl⟩
    exact ⟨⟨attacked, k, held⟩, promoted, by rw [held], fits⟩

theorem mem_pawnEnPassant (consistent : p.Consistent) : m ∈ p.pawnEnPassant c s ↔
    ∃ t, c = p.side ∧ p.enPassant = some t ∧ p.PieceAttacks ⟨c, .pawn⟩ s t ∧
      m = ⟨s, t, some ⟨c.opposite, .pawn⟩, none,
        { MoveFlags.none with capture := true, enPassant := true }⟩ := by
  unfold pawnEnPassant
  cases set : p.enPassant with
  | none => simp
  | some e =>
    simp only [Option.some.injEq, pieceAttacks_iff consistent.tallied]
    constructor
    · intro member
      split at member
      case isFalse => cases member
      case isTrue allowed => exact ⟨e, allowed.1, rfl, allowed.2, List.mem_singleton.1 member⟩
    · rintro ⟨_, mine, rfl, attacked, rfl⟩
      rw [if_pos ⟨mine, attacked⟩]
      exact List.mem_singleton_self _

theorem mem_pawnPushes (consistent : p.Consistent) : m ∈ p.pawnPushes c s ↔
    ∃ q, s.shift? 0 (Step.forward c) = some q ∧ p.pieceOn q = none ∧
      ((∃ promoted, PromotionFits c q promoted ∧ m = ⟨s, q, none, promoted, .none⟩) ∨
        s.rank = c.pawnRank ∧ ∃ t, q.shift? 0 (Step.forward c) = some t ∧ p.pieceOn t = none ∧
          m = ⟨s, t, none, none, { MoveFlags.none with doublePush := true }⟩) := by
  have shows : p.Shows p.basis := ⟨consistent, rfl⟩
  have ahead : ∀ q, p.emptyAhead? c s 1 = some q ↔
      s.shift? 0 (Step.forward c) = some q ∧ p.pieceOn q = none := fun q => by
    rw [emptyAhead?_eq_some shows, Int.one_mul]
    rfl
  -- Only the definition is needed, and its equation lemma takes seconds to derive.
  delta pawnPushes
  cases found : p.emptyAhead? c s 1 with
  | none =>
    refine iff_of_false List.not_mem_nil ?_
    rintro ⟨q, next, empty, -⟩
    cases found.symm.trans ((ahead q).2 ⟨next, empty⟩)
  | some q =>
    obtain ⟨next, empty⟩ := (ahead q).1 found
    have double : m ∈ p.pawnDoublePush c s ↔ s.rank = c.pawnRank ∧
        ∃ t, q.shift? 0 (Step.forward c) = some t ∧ p.pieceOn t = none ∧
          m = ⟨s, t, none, none, { MoveFlags.none with doublePush := true }⟩ := by
      unfold pawnDoublePush
      split
      case isFalse away => exact iff_of_false List.not_mem_nil fun start => away start.1
      case isTrue start =>
        rw [and_iff_right start]
        constructor
        · intro member
          split at member
          case h_2 => cases member
          case h_1 t two =>
            obtain ⟨shifted, free⟩ := (emptyAhead?_eq_some shows).1 two
            exact ⟨t, (Square.shift?_twice next).1 shifted, free, List.mem_singleton.1 member⟩
        · rintro ⟨t, shifted, free, rfl⟩
          rw [(emptyAhead?_eq_some shows).2 ⟨(Square.shift?_twice next).2 shifted, free⟩]
          exact List.mem_singleton_self _
    dsimp only
    rw [List.mem_append, mem_pawnArrivals, double]
    constructor
    · rintro (⟨promoted, rfl, fits⟩ | rest)
      · exact ⟨q, next, empty, .inl ⟨promoted, fits, rfl⟩⟩
      · exact ⟨q, next, empty, .inr rest⟩
    · rintro ⟨q', next', -, rest⟩
      cases next.symm.trans next'
      exact rest.imp_left fun ⟨promoted, fits, same⟩ => ⟨promoted, same, fits⟩

/-! ## All moves -/

/-- The moves of a side's pieces of one kind. -/
def movesOfKind (p : Position) (c : Color) (scope : Scope) : Kind → List Move
  | .pawn => p.pawnMoves c scope
  | .king => p.kingMoves c scope
  | k => p.pieceMoves c scope k

omit [ZobristKeys] in
theorem movesOfKind_of_ne {scope : Scope} (notPawn : k ≠ .pawn) (notKing : k ≠ .king) :
    p.movesOfKind c scope k = p.pieceMoves c scope k := by
  cases k <;> first | rfl | contradiction

omit [ZobristKeys] in
theorem pseudoMovesOf_eq {scope : Scope} :
    p.pseudoMovesOf c scope = Kind.all.flatMap (p.movesOfKind c scope) := by
  simp [pseudoMovesOf, Kind.all, movesOfKind]

theorem movement_of_mem_pawn (consistent : p.Consistent) (held : p.pieceOn s = some ⟨c, .pawn⟩)
    (member : m ∈ p.pawnCaptures c s ++ (p.pawnEnPassant c s ++ p.pawnPushes c s)) :
    p.Movement c m ∧ m.origin = s := by
  rw [List.mem_append, List.mem_append, mem_pawnCaptures consistent,
    mem_pawnEnPassant consistent, mem_pawnPushes consistent] at member
  rcases member with ⟨t, victim, promoted, attacks, taken, enemy, fits, rfl⟩ |
    ⟨t, mine, set, attacks, rfl⟩ |
    ⟨q, next, empty, ⟨promoted, fits, rfl⟩ | ⟨start, t, shifted, free, rfl⟩⟩
  · exact ⟨.pawnCapture held attacks taken enemy fits, rfl⟩
  · exact ⟨.enPassant mine set held attacks, rfl⟩
  · exact ⟨.push held next empty fits, rfl⟩
  · exact ⟨.doublePush held start next empty shifted free, rfl⟩

theorem movement_of_mem (consistent : p.Consistent) (member : m ∈ p.movesOfKind c .all k) :
    p.Movement c m ∧ p.pieceOn m.origin = some ⟨c, k⟩ := by
  cases k
  case pawn =>
    obtain ⟨s, listed, member⟩ := List.mem_flatMap.1 member
    have held : p.pieceOn s = some ⟨c, .pawn⟩ :=
      (Shows.mem_piecesOf ⟨consistent, rfl⟩).1 (Bitboard.mem_squares.1 listed)
    obtain ⟨movement, origin⟩ := movement_of_mem_pawn consistent held member
    exact ⟨movement, origin ▸ held⟩
  case king =>
    rcases (mem_kingMoves consistent).1 member with ⟨s, t, held, attacks, free, rfl⟩ |
      ⟨w, allowed, rfl⟩
    · exact ⟨.piece (by decide) held attacks free, held⟩
    · exact ⟨.castle allowed, (Shows.kingSquare_eq ⟨consistent, rfl⟩).1 allowed.king⟩
  all_goals
    obtain ⟨s, t, held, attacks, free, rfl⟩ :=
      (mem_pieceMoves consistent (by decide) (by decide)).1 member
    exact ⟨.piece (by decide) held attacks free, held⟩

theorem mem_of_movement (consistent : p.Consistent) (movement : p.Movement c m) :
    ∃ k, m ∈ p.movesOfKind c .all k := by
  have pawn : ∀ s, p.pieceOn s = some ⟨c, .pawn⟩ →
      m ∈ p.pawnCaptures c s ++ (p.pawnEnPassant c s ++ p.pawnPushes c s) →
        m ∈ p.movesOfKind c .all .pawn := fun s held member =>
    List.mem_flatMap.2 ⟨s, Bitboard.mem_squares.2 ((Shows.mem_piecesOf ⟨consistent, rfl⟩).2 held),
      member⟩
  simp only [List.mem_append, mem_pawnCaptures consistent, mem_pawnEnPassant consistent,
    mem_pawnPushes consistent] at pawn
  cases movement with
  | @piece k s t notPawn held attacks free =>
    by_cases king : k = .king
    · subst king
      exact ⟨.king, (mem_kingMoves consistent).2 (.inl ⟨s, t, held, attacks, free, rfl⟩)⟩
    · refine ⟨k, ?_⟩
      rw [movesOfKind_of_ne notPawn king]
      exact (mem_pieceMoves consistent notPawn king).2 ⟨s, t, held, attacks, free, rfl⟩
  | @pawnCapture s t victim promoted held attacks taken enemy fits =>
    exact ⟨_, pawn s held (.inl ⟨t, victim, promoted, attacks, taken, enemy, fits, rfl⟩)⟩
  | @enPassant s t mine set held attacks =>
    exact ⟨_, pawn s held (.inr (.inl ⟨t, mine, set, attacks, rfl⟩))⟩
  | @push s t promoted held next empty fits =>
    exact ⟨_, pawn s held (.inr (.inr ⟨t, next, empty, .inl ⟨promoted, fits, rfl⟩⟩))⟩
  | @doublePush s q t held start next empty shifted free =>
    exact ⟨_, pawn s held (.inr (.inr ⟨q, next, empty, .inr ⟨start, t, shifted, free, rfl⟩⟩))⟩
  | @castle w allowed =>
    exact ⟨.king, (mem_kingMoves consistent).2 (.inr ⟨w, allowed, rfl⟩)⟩

theorem mem_pseudoMovesOf (consistent : p.Consistent) :
    m ∈ p.pseudoMovesOf c .all ↔ p.Movement c m := by
  rw [pseudoMovesOf_eq, List.mem_flatMap]
  constructor
  · rintro ⟨k, -, member⟩
    exact (movement_of_mem consistent member).1
  · intro movement
    obtain ⟨k, member⟩ := mem_of_movement consistent movement
    exact ⟨k, by cases k <;> decide, member⟩

end

/-! ## A generator of captures offers nothing else -/

section

variable {p : Position} {c : Color} {k : Kind} {s : Square} {m : Move} {scope : Scope}

theorem mem_movesTo_all {targets : Bitboard} (member : m ∈ p.movesTo scope s targets) :
    m ∈ p.movesTo .all s targets := by
  obtain ⟨t, target, -, rfl⟩ := mem_movesTo.1 member
  exact mem_movesTo.2 ⟨t, target, .inl rfl, rfl⟩

theorem mem_of_mem_scope {l : List Move} (member : m ∈ if scope = .all then l else []) :
    m ∈ l := by
  split at member
  · exact member
  · cases member

theorem mem_movesOfKind_all (member : m ∈ p.movesOfKind c scope k) :
    m ∈ p.movesOfKind c .all k := by
  cases k
  case pawn =>
    obtain ⟨s, listed, member⟩ := List.mem_flatMap.1 member
    refine List.mem_flatMap.2 ⟨s, listed, ?_⟩
    simp only [List.mem_append] at member ⊢
    exact member.imp_right (.imp_right mem_of_mem_scope)
  case king =>
    unfold movesOfKind kingMoves at member ⊢
    cases noted : p.kingSquare c with
    | none => simp [noted] at member
    | some s =>
      simp only [noted, List.mem_append] at member ⊢
      exact member.imp mem_movesTo_all mem_of_mem_scope
  all_goals
    obtain ⟨s, listed, member⟩ := List.mem_flatMap.1 member
    exact List.mem_flatMap.2 ⟨s, listed, mem_movesTo_all member⟩

theorem mem_pseudoMovesOf_all (member : m ∈ p.pseudoMovesOf c scope) :
    m ∈ p.pseudoMovesOf c .all := by
  rw [pseudoMovesOf_eq, List.mem_flatMap] at member ⊢
  obtain ⟨k, listed, member⟩ := member
  exact ⟨k, listed, mem_movesOfKind_all member⟩

end

end Position

end ChessEngine
