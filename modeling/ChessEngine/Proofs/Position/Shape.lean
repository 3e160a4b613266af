import ChessEngine.Generator.Pseudo
import ChessEngine.Proofs.Position.Basis
import ChessEngine.Proofs.Square

/-!
# The shapes of generated moves

`Basis.Sound` is what a position needs besides consistency for its generated
moves to go through: castlers at home where a right is held, a pawn behind the
en-passant square, no pawn on a back rank.

The generator offers moves piece by piece.  For making a move only three shapes
matter, and `Shows.shape_of_mem` sorts every generated move into one of them:
an ordinary move takes what stands on its target, an en-passant capture takes a
pawn from another square, and castling moves a second piece.
-/

namespace ChessEngine

namespace Color

/-- The rank of the squares that a side's pawns can capture on en passant. -/
def passedRank : Color → Fin 8
  | white => 5
  | black => 2

/-- Whoever does not belong to one side belongs to the other. -/
theorem eq_opposite {c d : Color} (other : d ≠ c) : d = c.opposite := by
  cases c <;> cases d <;> first | rfl | exact absurd rfl other

end Color

namespace Basis

/-- A pawn of the side not to move has just passed the square `e`. -/
structure Passed (b : Basis) (e : Square) : Prop where
  rank : e.rank = b.side.passedRank
  empty : b.board e = none
  pawn : ∃ v, Position.enPassantVictim? b.side e = some v ∧
    b.board v = some ⟨b.side.opposite, .pawn⟩

/-- What keeps the moves of a position on firm ground. -/
structure Sound (b : Basis) : Prop where
  castlers : ∀ c w, b.rights.allows c w = true →
    b.board (CastlePath.of c w).kingHome = some ⟨c, .king⟩ ∧
      b.board (CastlePath.of c w).rookHome = some ⟨c, .rook⟩
  passed : ∀ e, b.enPassant = some e → b.Passed e
  pawns : ∀ c s, b.board s = some ⟨c, .pawn⟩ → s.rank ≠ 0 ∧ s.rank ≠ 7

/-- A double push over an empty square, which the other side may then capture on. -/
structure Leaps (b : Basis) (m : Move) : Prop where
  rank : (Position.passedSquare m.origin m.target).rank = b.side.opposite.passedRank
  empty : b.board (Position.passedSquare m.origin m.target) = none
  victim : Position.enPassantVictim? b.side.opposite
    (Position.passedSquare m.origin m.target) = some m.target

/-- A move that takes what stands on its target and leaves all other squares alone. -/
structure Ordinary (b : Basis) (mover : Piece) (m : Move) : Prop where
  origin : b.board m.origin = some mover
  own : mover.color = b.side
  target : b.board m.target = m.captured
  enemy : ∀ victim, m.captured = some victim → victim.color = b.side.opposite
  capture : m.isCapture = m.captured.isSome
  notEnPassant : m.isEnPassant = false
  notCastle : m.isCastle = false
  promoted : ∀ q, m.promoted = some q →
    mover.kind = .pawn ∧ q.color = b.side ∧ q.kind ∈ promotionKinds
  arrival : mover.kind = .pawn → m.promoted = none → m.target.rank ≠ 0 ∧ m.target.rank ≠ 7
  doublePush : m.isDoublePush = true → mover.kind = .pawn ∧ m.promoted = none ∧ b.Leaps m

/-- The three shapes of a generated move of the piece `mover`. -/
inductive Shape (b : Basis) (mover : Piece) : Move → Prop
  | ordinary {m : Move} : b.Ordinary mover m → Shape b mover m
  | enPassant {origin target : Square} : mover = ⟨b.side, .pawn⟩ →
    b.board origin = some mover → b.enPassant = some target →
    Shape b mover ⟨origin, target, some ⟨b.side.opposite, .pawn⟩, none,
      { MoveFlags.none with capture := true, enPassant := true }⟩
  | castle {w : Wing} : mover = ⟨b.side, .king⟩ → b.rights.allows b.side w = true →
    (∀ s ∈ (CastlePath.of b.side w).between, b.board s = none) →
    Shape b mover ⟨(CastlePath.of b.side w).kingHome, (CastlePath.of b.side w).kingTarget,
      none, none, { MoveFlags.none with castle := true }⟩

end Basis

namespace Position

variable {p : Position} {b : Basis} {c : Color} {s t : Square} {m : Move}

/-! ## Families of generated moves -/

theorem mem_movesTo {scope : Scope} {targets : Bitboard} :
    m ∈ p.movesTo scope s targets ↔
      ∃ t ∈ targets, (scope = .all ∨ (p.pieceOn t).isSome = true) ∧
        m = ⟨s, t, p.pieceOn t, none,
          { MoveFlags.none with capture := (p.pieceOn t).isSome }⟩ := by
  unfold movesTo
  rw [List.mem_filterMap]
  refine exists_congr fun t => and_congr Bitboard.mem_squares ?_
  cases p.pieceOn t with
  | none => cases scope <;> simp [Move.plain, MoveFlags.none, eq_comm]
  | some victim => simp [Move.taking, eq_comm]

theorem mem_pawnArrivals {captured : Option Piece} {flags : MoveFlags} :
    m ∈ pawnArrivals c s t captured flags ↔
      ∃ promoted, m = ⟨s, t, captured, promoted, flags⟩ ∧
        if t.rank = c.lastRank then ∃ k ∈ promotionKinds, promoted = some ⟨c, k⟩
        else promoted = none := by
  unfold pawnArrivals
  split
  · rw [List.mem_map]
    constructor
    · rintro ⟨k, listed, rfl⟩
      exact ⟨_, rfl, k, listed, rfl⟩
    · rintro ⟨_, rfl, k, listed, rfl⟩
      exact ⟨k, listed, rfl⟩
  · rw [List.mem_singleton]
    constructor
    · rintro rfl
      exact ⟨none, rfl, rfl⟩
    · rintro ⟨_, rfl, rfl⟩
      rfl

/-- Captures and single pushes of pawns, with or without promotion. -/
theorem ordinary_of_mem_pawnArrivals (sound : b.Sound) {captured : Option Piece}
    (held : b.board s = some ⟨b.side, .pawn⟩)
    (ahead : (t.rank.val : Int) = s.rank.val + Step.forward b.side)
    (target : b.board t = captured)
    (enemy : ∀ victim, captured = some victim → victim.color = b.side.opposite)
    (member : m ∈ pawnArrivals b.side s t captured
      { MoveFlags.none with capture := captured.isSome }) :
    b.Ordinary ⟨b.side, .pawn⟩ m := by
  obtain ⟨promoted, rfl, fits⟩ := mem_pawnArrivals.1 member
  constructor
  case origin => exact held
  case own => rfl
  case target => exact target
  case enemy => exact enemy
  case capture => rfl
  case notEnPassant => rfl
  case notCastle => rfl
  case promoted =>
    rintro q rfl
    split at fits
    · obtain ⟨k, listed, same⟩ := fits
      cases same
      exact ⟨rfl, rfl, listed⟩
    · cases fits
  case arrival =>
    rintro - rfl
    split at fits
    · obtain ⟨k, -, same⟩ := fits
      cases same
    · next short =>
      have inner := sound.pawns _ _ held
      show t.rank ≠ 0 ∧ t.rank ≠ 7
      cases side : b.side <;> rw [side] at ahead short <;>
        simp only [Step.forward, Color.lastRank, Fin.ext_iff, ne_eq] at ahead short inner ⊢ <;>
        omega
  case doublePush =>
    intro push
    cases push

variable [ZobristKeys]

/-! ## What the generator reads -/

theorem Shows.mem_piecesOf (shows : p.Shows b) {k : Kind} :
    s ∈ p.piecesOf c k ↔ b.board s = some ⟨c, k⟩ := by
  rw [← shows.pieceOn]
  exact shows.consistent.tallied.boards c k s

theorem Shows.mem_occupied (shows : p.Shows b) : s ∈ p.occupied ↔ b.board s ≠ none := by
  rw [← shows.pieceOn]
  exact shows.consistent.tallied.allOccupied s

theorem Shows.mem_occupiedBy (shows : p.Shows b) :
    s ∈ p.occupiedBy c ↔ ∃ k, b.board s = some ⟨c, k⟩ := by
  rw [← shows.pieceOn]
  exact shows.consistent.tallied.occupied c s

theorem Shows.kingSquare_eq (shows : p.Shows b) :
    p.kingSquare c = some s ↔ b.board s = some ⟨c, .king⟩ := by
  rw [← shows.pieceOn]
  exact shows.consistent.noted c s

theorem emptyAhead?_eq_some (shows : p.Shows b) {n : Int} :
    p.emptyAhead? c s n = some t ↔
      s.shift? 0 (n * Step.forward c) = some t ∧ b.board t = none := by
  unfold emptyAhead?
  cases s.shift? 0 (n * Step.forward c) with
  | none => simp
  | some u =>
    have held := shows.mem_occupied (s := u)
    rw [Bitboard.mem_def] at held
    by_cases empty : b.board u = none
    · have free : p.occupied.contains u = false := by
        rw [← Bool.not_eq_true, held]
        exact fun present => present empty
      simp only [free, Bool.false_eq_true, if_false, Option.some.injEq]
      exact ⟨fun same => ⟨same, same ▸ empty⟩, And.left⟩
    · simp only [held.2 empty, if_true, Option.some.injEq]
      exact ⟨nofun, fun ⟨same, absent⟩ => absurd (same ▸ absent) empty⟩

/-! ## Every generated move has a shape -/

/-- Moves of pieces other than pawns. -/
theorem Shows.ordinary_of_mem_movesTo (shows : p.Shows b) {k : Kind} {scope : Scope}
    {targets : Bitboard} (held : b.board s = some ⟨b.side, k⟩) (notPawn : k ≠ .pawn)
    (member : m ∈ p.movesTo scope s (targets \ p.occupiedBy b.side)) :
    b.Ordinary ⟨b.side, k⟩ m := by
  obtain ⟨t, target, -, rfl⟩ := mem_movesTo.1 member
  have foreign : ¬ t ∈ p.occupiedBy b.side := (Bitboard.mem_sdiff.1 target).2
  rw [shows.mem_occupiedBy] at foreign
  constructor
  case origin => exact held
  case own => rfl
  case target => exact congrFun shows.pieceOn.symm t
  case enemy =>
    intro victim taken
    change p.pieceOn t = some victim at taken
    rw [shows.pieceOn] at taken
    refine Color.eq_opposite fun own => foreign ⟨victim.kind, ?_⟩
    rw [taken, ← own]
  case capture => rfl
  case notEnPassant => rfl
  case notCastle => rfl
  case promoted => exact nofun
  case arrival => exact fun pawn => absurd pawn notPawn
  case doublePush => exact nofun

omit [ZobristKeys] in
/-- A double push passes over the square next to its origin. -/
theorem passedSquare_eq {q : Square} (next : s.shift? 0 (Step.forward c) = some q)
    (further : s.shift? 0 (2 * Step.forward c) = some t) : passedSquare s t = q := by
  obtain ⟨nextFile, nextRank⟩ := Square.shift?_eq_some_iff.1 next
  obtain ⟨file, rank⟩ := Square.shift?_eq_some_iff.1 further
  have atStart := s.val_eq
  have atNext := q.val_eq
  have atEnd := t.val_eq
  refine Fin.ext ?_
  show (s.val + t.val) / 2 = q.val
  cases c <;> simp only [Step.forward] at rank nextRank <;> omega

theorem Shows.ordinary_of_mem_pawnDoublePush (shows : p.Shows b)
    (held : b.board s = some ⟨b.side, .pawn⟩) {q : Square}
    (next : s.shift? 0 (Step.forward b.side) = some q) (empty : b.board q = none)
    (member : m ∈ p.pawnDoublePush b.side s) : b.Ordinary ⟨b.side, .pawn⟩ m := by
  unfold pawnDoublePush at member
  split at member
  case isFalse => cases member
  case isTrue start =>
    split at member
    case h_2 => cases member
    case h_1 t ahead =>
      obtain ⟨shifted, free⟩ := (emptyAhead?_eq_some shows).1 ahead
      rw [List.mem_singleton] at member
      obtain ⟨nextFile, nextRank⟩ := Square.shift?_eq_some_iff.1 next
      obtain ⟨file, rank⟩ := Square.shift?_eq_some_iff.1 shifted
      have passed := passedSquare_eq next shifted
      subst member
      constructor
      case origin => exact held
      case own => rfl
      case target => exact free
      case enemy => exact nofun
      case capture => rfl
      case notEnPassant => rfl
      case notCastle => rfl
      case promoted => exact nofun
      case arrival =>
        rintro - -
        show t.rank ≠ 0 ∧ t.rank ≠ 7
        cases side : b.side <;> rw [side] at rank start <;>
          simp only [Step.forward, Color.pawnRank, Fin.ext_iff, ne_eq] at rank start ⊢ <;> omega
      case doublePush =>
        rintro -
        refine ⟨rfl, rfl, ⟨?_, ?_, ?_⟩⟩
        · show (passedSquare s t).rank = b.side.opposite.passedRank
          rw [passed]
          cases side : b.side <;> rw [side] at nextRank start <;>
            simp only [Step.forward, Color.pawnRank, Color.opposite, Color.passedRank,
              Fin.ext_iff] at nextRank start ⊢ <;> omega
        · show b.board (passedSquare s t) = none
          rw [passed, empty]
        · show enPassantVictim? b.side.opposite (passedSquare s t) = some t
          rw [passed, enPassantVictim?, Step.forward_opposite, Square.shift?_eq_some_iff]
          omega

theorem Shows.shape_of_mem_pawnMoves (shows : p.Shows b) (sound : b.Sound)
    (member : m ∈ p.pawnMoves b.side .all) : ∃ mover, b.Shape mover m := by
  unfold pawnMoves at member
  obtain ⟨origin, listed, member⟩ := List.mem_flatMap.1 member
  have held := shows.mem_piecesOf.1 (Bitboard.mem_squares.1 listed)
  rcases List.mem_append.1 member with captures | member
  · obtain ⟨target, listed, member⟩ := List.mem_flatMap.1 captures
    obtain ⟨attacked, enemy⟩ := Bitboard.mem_inter.1 (Bitboard.mem_squares.1 listed)
    obtain ⟨k, victim⟩ := shows.mem_occupiedBy.1 enemy
    rw [shows.pieceOn, victim] at member
    refine ⟨_, .ordinary (ordinary_of_mem_pawnArrivals sound held
      (rank_of_mem_pawnAttacks attacked) victim ?_ member)⟩
    rintro _ ⟨⟩
    rfl
  rcases List.mem_append.1 member with enPassant | pushes
  · unfold pawnEnPassant at enPassant
    split at enPassant
    case h_2 => cases enPassant
    case h_1 target set =>
      split at enPassant
      case isFalse => cases enPassant
      case isTrue =>
        rw [List.mem_singleton] at enPassant
        subst enPassant
        exact ⟨_, .enPassant rfl held (shows.enPassant.symm.trans set)⟩
  · rw [if_pos rfl] at pushes
    -- Only the definition is needed, and its equation lemma takes seconds to derive.
    delta pawnPushes at pushes
    split at pushes
    case h_2 => cases pushes
    case h_1 target ahead =>
      obtain ⟨shifted, free⟩ := (emptyAhead?_eq_some shows).1 ahead
      rw [Int.one_mul] at shifted
      rcases List.mem_append.1 pushes with single | double
      · exact ⟨_, .ordinary (ordinary_of_mem_pawnArrivals sound held
          (Square.shift?_eq_some_iff.1 shifted).2 free nofun single)⟩
      · exact ⟨_, .ordinary (shows.ordinary_of_mem_pawnDoublePush held shifted free double)⟩

theorem Shows.shape_of_mem_pieceMoves (shows : p.Shows b) {k : Kind} (notPawn : k ≠ .pawn)
    (member : m ∈ p.pieceMoves b.side .all k) : ∃ mover, b.Shape mover m := by
  unfold pieceMoves at member
  obtain ⟨origin, listed, member⟩ := List.mem_flatMap.1 member
  have held := shows.mem_piecesOf.1 (Bitboard.mem_squares.1 listed)
  exact ⟨_, .ordinary (shows.ordinary_of_mem_movesTo held notPawn member)⟩

theorem Shows.shape_of_mem_kingMoves (shows : p.Shows b)
    (member : m ∈ p.kingMoves b.side .all) : ∃ mover, b.Shape mover m := by
  unfold kingMoves at member
  split at member
  case h_1 => cases member
  case h_2 king noted =>
    have held := shows.kingSquare_eq.1 noted
    rcases List.mem_append.1 member with step | castling
    · exact ⟨_, .ordinary (shows.ordinary_of_mem_movesTo held (by decide) step)⟩
    · rw [if_pos rfl, castlingMoves] at castling
      obtain ⟨w, -, offered⟩ := List.mem_filterMap.1 castling
      dsimp only at offered
      split at offered
      case isFalse => cases offered
      case isTrue allowed =>
        simp only [mayCastle, Bool.and_eq_true, beq_iff_eq, Bool.not_eq_true'] at allowed
        obtain ⟨⟨⟨⟨right, home⟩, clear⟩, -⟩, -⟩ := allowed
        cases offered
        subst home
        refine ⟨_, .castle rfl (shows.rights ▸ right) fun s inside => ?_⟩
        by_contra occupied
        rw [← Bool.not_eq_true, Bitboard.meets_iff] at clear
        exact clear ⟨s, shows.mem_occupied.2 occupied, inside⟩

theorem Shows.shape_of_mem (shows : p.Shows b) (sound : b.Sound) (member : m ∈ p.pseudoMoves) :
    ∃ mover, b.Shape mover m := by
  unfold pseudoMoves pseudoMovesOf at member
  rw [shows.side] at member
  simp only [List.mem_append] at member
  rcases member with pawn | knight | bishop | rook | queen | king
  · exact shows.shape_of_mem_pawnMoves sound pawn
  · exact shows.shape_of_mem_pieceMoves (by decide) knight
  · exact shows.shape_of_mem_pieceMoves (by decide) bishop
  · exact shows.shape_of_mem_pieceMoves (by decide) rook
  · exact shows.shape_of_mem_pieceMoves (by decide) queen
  · exact shows.shape_of_mem_kingMoves king

end Position

end ChessEngine
