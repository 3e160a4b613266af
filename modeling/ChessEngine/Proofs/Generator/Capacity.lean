import ChessEngine.Proofs.Attack.Mobility
import ChessEngine.Proofs.Generator.Captures
import ChessEngine.Proofs.Search.Score

/-!
# How many moves a position can have

The generator expects at most 256 moves.  On any board the pieces of a side add no more than their
mobility to a hundred moves (`Position.length_pseudoMovesOf_le`): the moves of pawns, knights and
the king are counted by piece, and what sliders see along the lines of the board is bounded for all
of them together.  Captures remove mobility and promotions add none, so the pieces of a setup bound
the number of moves for all games that start from it, and the pieces of the initial position are
few enough.  But a setup may hold any number of queens: a queen on every square of the edge makes
288 moves.
-/

namespace ChessEngine

open Finset

/-! ## Lists of squares -/

theorem sum_map_squares (b : Bitboard) (f : Square → Nat) :
    (b.squares.map f).sum = ∑ s with s ∈ b, f s := by
  rw [← List.sum_toFinset f (Placement.nodup_squares b)]
  congr 1
  ext s
  simp

theorem length_flatMap_squares {α : Type} (b : Bitboard) (f : Square → List α) :
    (b.squares.flatMap f).length = ∑ s with s ∈ b, (f s).length := by
  rw [List.length_flatMap, sum_map_squares]

theorem length_squares (b : Bitboard) : b.squares.length = #{s | s ∈ b} := by
  simpa using sum_map_squares b fun _ => 1

/-- The squares that a list of steps leads to are no more than the steps. -/
theorem card_steps_le (steps : List Step) (s : Square) {targets : Bitboard}
    (led : ∀ t ∈ targets, ∃ step ∈ steps, s.shift? step.1 step.2 = some t) :
    #{t | t ∈ targets} ≤ steps.length := by
  have listed : ({t | t ∈ targets} : Finset Square) ⊆ (Step.targets steps s).toFinset := by
    intro t member
    rw [List.mem_toFinset, Step.targets, List.mem_filterMap]
    exact led t ((mem_filter_univ t).1 member)
  exact (card_le_card listed).trans ((List.toFinset_card_le _).trans (List.length_filterMap_le ..))

namespace Position

section

variable {p : Position} {c : Color} {k : Kind} {s t : Square} {captured : Option Piece}
  {flags : MoveFlags}

/-- The kinds of a side's pieces by square. -/
def kindsOf (p : Position) (c : Color) (s : Square) : Option Kind :=
  (p.pieceOn s).bind fun piece => if piece.color = c then some piece.kind else none

theorem kindsOf_eq_some_iff : p.kindsOf c s = some k ↔ p.pieceOn s = some ⟨c, k⟩ := by
  unfold kindsOf
  cases p.pieceOn s with
  | none => simp
  | some piece =>
    rcases piece with ⟨d, l⟩
    by_cases own : d = c <;> simp [own]

theorem length_movesTo_le (scope : Scope) (s : Square) (targets : Bitboard) :
    (p.movesTo scope s targets).length ≤ #{t | t ∈ targets} := by
  rw [← length_squares]
  exact List.length_filterMap_le ..

/-! ## Pawns -/

theorem length_pawnArrivals : (pawnArrivals c s t captured flags).length =
    if t.rank = c.lastRank then 4 else 1 := by
  unfold pawnArrivals
  split <;> rfl

theorem length_pawnArrivals_le : (pawnArrivals c s t captured flags).length ≤ 4 := by
  rw [length_pawnArrivals]
  split <;> decide

theorem length_pawnCaptures_le : (p.pawnCaptures c s).length ≤ 8 := by
  have attacked : #{t | t ∈ pawnAttacks c s ∩ p.occupiedBy c.opposite} ≤ 2 :=
    card_steps_le (Step.pawn c) s fun t member => mem_pawnAttacks.1 (Bitboard.mem_inter.1 member).1
  unfold pawnCaptures
  rw [length_flatMap_squares]
  refine (sum_le_card_nsmul _ _ 4 fun t _ => length_pawnArrivals_le).trans ?_
  rw [smul_eq_mul]
  omega

theorem length_pawnEnPassant_le : (p.pawnEnPassant c s).length ≤ 1 := by
  unfold pawnEnPassant
  split
  · split
    · exact le_rfl
    · exact Nat.zero_le 1
  · exact Nat.zero_le 1

theorem length_pawnDoublePush_le :
    (p.pawnDoublePush c s).length ≤ if s.rank = c.pawnRank then 1 else 0 := by
  unfold pawnDoublePush
  split
  · split
    · exact le_rfl
    · exact Nat.zero_le 1
  · exact le_rfl

section

variable [ZobristKeys]

/-- A pawn that may advance two squares is not about to promote. -/
theorem length_pawnPushes_le (consistent : p.Consistent) : (p.pawnPushes c s).length ≤ 4 := by
  delta pawnPushes
  cases ahead : p.emptyAhead? c s 1 with
  | none => exact Nat.zero_le 4
  | some t =>
    have next := Square.shift?_eq_some_iff.1
      ((emptyAhead?_eq_some ⟨consistent, rfl⟩).1 ahead).1
    have double := length_pawnDoublePush_le (p := p) (c := c) (s := s)
    have apart : t.rank = c.lastRank → s.rank ≠ c.pawnRank := by
      intro last first
      rw [last, first] at next
      cases c <;> exact absurd next.2 (by decide)
    dsimp only
    rw [List.length_append, length_pawnArrivals]
    split
    · next last =>
      rw [if_neg (apart last)] at double
      omega
    · split at double <;> omega

theorem length_pawnMoves_le (consistent : p.Consistent) :
    (p.pawnMoves c .all).length ≤ ∑ s with s ∈ p.piecesOf c .pawn, Kind.leaps .pawn := by
  unfold pawnMoves
  rw [length_flatMap_squares]
  refine sum_le_sum fun s _ => ?_
  rw [if_pos rfl, List.length_append, List.length_append]
  have captures := length_pawnCaptures_le (p := p) (c := c) (s := s)
  have passing := length_pawnEnPassant_le (p := p) (c := c) (s := s)
  have pushes := length_pawnPushes_le (c := c) (s := s) consistent
  simp only [Kind.leaps]
  omega

end

/-! ## The king -/

theorem length_castlingMoves_le :
    (p.castlingMoves c s).length ≤ if s = (CastlePath.of c .kingside).kingHome then 2 else 0 := by
  split
  · exact List.length_filterMap_le ..
  · next away =>
    refine (List.length_eq_zero_iff.2 (List.eq_nil_iff_forall_not_mem.2 fun m member => ?_)).le
    obtain ⟨w, may, -⟩ := mem_castlingMoves.1 member
    simp only [mayCastle, Bool.and_eq_true, beq_iff_eq] at may
    have home : (CastlePath.of c w).kingHome = (CastlePath.of c .kingside).kingHome := by
      cases c <;> cases w <;> rfl
    exact away (may.1.1.1.2.trans home)

/-- A king that may castle stands on the edge, where it has five squares to go to. -/
theorem card_kingAttacks_le (c : Color) (s : Square) : #{t | t ∈ kingAttacks s} +
    (if s = (CastlePath.of c .kingside).kingHome then 2 else 0) ≤ Kind.leaps .king := by
  split
  · next home =>
    subst home
    cases c <;> decide +kernel
  · exact card_steps_le Step.king s fun t => mem_kingAttacks.1

theorem length_kingMoves_le (noted : p.kingSquare c = some s) :
    (p.kingMoves c .all).length ≤ Kind.leaps .king := by
  unfold kingMoves
  rw [noted]
  dsimp only
  rw [if_pos rfl, List.length_append]
  have steps := length_movesTo_le (p := p) .all s (kingAttacks s \ p.occupiedBy c)
  have within : #{t | t ∈ kingAttacks s \ p.occupiedBy c} ≤ #{t | t ∈ kingAttacks s} :=
    card_le_card (monotone_filter_right _ fun t _ member => (Bitboard.mem_sdiff.1 member).1)
  have castling := length_castlingMoves_le (p := p) (c := c) (s := s)
  have few := card_kingAttacks_le c s
  omega

/-! ## The other pieces -/

/-- What a slider sees lies on one of its axes, on the one side of it or on the other. -/
theorem card_slides_le {targets : Bitboard} (free : ∀ t ∈ targets, p.kindsOf c t = none)
    (sees : ∀ t ∈ targets, ∃ step ∈ Step.sliding k, ∃ n, 0 < n ∧ step.Sees p.occupied n s t) :
    #{t | t ∈ targets} ≤ freedom (p.kindsOf c) p.occupied k s := by
  have covered : ({t | t ∈ targets} : Finset Square) ⊆
      ({a | k ∈ a.kinds} : Finset Axis).biUnion fun a =>
        Axis.seen (p.kindsOf c) p.occupied a false s ∪
          Axis.seen (p.kindsOf c) p.occupied a true s := by
    intro t member
    have member := (mem_filter_univ t).1 member
    obtain ⟨step, listed, n, positive, seen⟩ := sees t member
    obtain ⟨a, ofKind, back, rfl⟩ := Axis.exists_step listed
    have here : t ∈ Axis.seen (p.kindsOf c) p.occupied a back s :=
      mem_filter.2 ⟨(mem_filter_univ t).2 (free t member), Axis.views_of_sees positive seen⟩
    refine mem_biUnion.2 ⟨a, (mem_filter_univ a).2 ofKind, ?_⟩
    cases back
    · exact mem_union_left _ here
    · exact mem_union_right _ here
  refine (card_le_card covered).trans (card_biUnion_le.trans ?_)
  rw [sum_filter, freedom]
  refine le_add_left (sum_le_sum fun a _ => ?_)
  split
  · exact card_union_le _ _
  · exact le_rfl

section

variable [ZobristKeys]

theorem kindsOf_eq_none (consistent : p.Consistent) (vacant : ¬ s ∈ p.occupiedBy c) :
    p.kindsOf c s = none := by
  rw [Shows.mem_occupiedBy ⟨consistent, rfl⟩] at vacant
  exact Option.eq_none_iff_forall_ne_some.2 fun k own => vacant ⟨k, kindsOf_eq_some_iff.1 own⟩

theorem length_targets_le (consistent : p.Consistent) (k : Kind) :
    (p.movesTo .all s (p.pieceAttacks k s \ p.occupiedBy c)).length ≤
      freedom (p.kindsOf c) p.occupied k s := by
  refine (length_movesTo_le ..).trans ?_
  have free : ∀ t ∈ p.pieceAttacks k s \ p.occupiedBy c, p.kindsOf c t = none := fun t member =>
    kindsOf_eq_none consistent (Bitboard.mem_sdiff.1 member).2
  cases k with
  | pawn | king => simp [pieceAttacks]
  | knight =>
    refine (card_steps_le Step.knight s fun t member => ?_).trans
      (leaps_le_freedom (p.kindsOf c) p.occupied .knight s)
    exact mem_knightAttacks.1 (Bitboard.mem_sdiff.1 member).1
  | bishop =>
    exact card_slides_le free fun t member => mem_bishopAttacks.1 (Bitboard.mem_sdiff.1 member).1
  | rook =>
    exact card_slides_le free fun t member => mem_rookAttacks.1 (Bitboard.mem_sdiff.1 member).1
  | queen =>
    exact card_slides_le free fun t member => mem_queenAttacks.1 (Bitboard.mem_sdiff.1 member).1

theorem length_pieceMoves_le (consistent : p.Consistent) (c : Color) (k : Kind) :
    (p.pieceMoves c .all k).length ≤
      ∑ s with s ∈ p.piecesOf c k, freedom (p.kindsOf c) p.occupied k s := by
  rw [pieceMoves, length_flatMap_squares]
  exact sum_le_sum fun s _ => length_targets_le consistent k

/-! ## All moves -/

theorem length_movesOfKind_le (consistent : p.Consistent) (c : Color) (k : Kind) :
    (p.movesOfKind c .all k).length ≤
      ∑ s with p.kindsOf c s = some k, freedom (p.kindsOf c) p.occupied k s := by
  have counted : ∀ k (f : Square → Nat),
      ∑ s with s ∈ p.piecesOf c k, f s = ∑ s with p.kindsOf c s = some k, f s := by
    refine fun k f => sum_congr (filter_congr fun s _ => ?_) fun _ _ => rfl
    rw [kindsOf_eq_some_iff]
    exact Shows.mem_piecesOf ⟨consistent, rfl⟩
  cases k with
  | pawn =>
    rw [← counted]
    exact (length_pawnMoves_le consistent).trans (sum_le_sum fun s _ => leaps_le_freedom ..)
  | king =>
    cases noted : p.kingSquare c with
    | none => simp [movesOfKind, kingMoves, noted]
    | some s =>
      have here : s ∈ ({s | p.kindsOf c s = some .king} : Finset Square) :=
        (mem_filter_univ s).2
          (kindsOf_eq_some_iff.2 ((Shows.kingSquare_eq ⟨consistent, rfl⟩).1 noted))
      have share := single_le_sum (f := freedom (p.kindsOf c) p.occupied .king)
        (fun _ _ => Nat.zero_le _) here
      exact (length_kingMoves_le noted).trans ((leaps_le_freedom ..).trans share)
  | knight | bishop | rook | queen =>
    rw [← counted]
    exact length_pieceMoves_le consistent c _

/-- A side has no more than a hundred moves besides the mobility of its pieces, whatever stands on
the board and where. -/
theorem length_pseudoMovesOf_le (consistent : p.Consistent) (c : Color) (scope : Scope) :
    (p.pseudoMovesOf c scope).length ≤ 100 + census (p.kindsOf c) fun k _ => k.mobility := by
  have all : (p.pseudoMovesOf c .all).length ≤
      census (p.kindsOf c) (freedom (p.kindsOf c) p.occupied) := by
    rw [pseudoMovesOf_eq, List.length_flatMap, census_eq_sum_kinds]
    exact List.sum_le_sum fun k _ => length_movesOfKind_le consistent c k
  have standing : ∀ s, p.kindsOf c s ≠ none → s ∈ p.occupied := fun s own => by
    rw [Shows.mem_occupied ⟨consistent, rfl⟩]
    intro empty
    have board : p.pieceOn s = none := empty
    exact own (by rw [kindsOf, board]; rfl)
  have most := all.trans (census_freedom_le (p.kindsOf c) standing)
  cases scope with
  | all => exact most
  | captures =>
    rw [← filter_pseudoMovesOf]
    exact (List.length_filter_le ..).trans most

end

end

end Position

/-! ## Along a game -/

/-- The pieces of side `c` by what they may add to the number of its moves. -/
def Weight.mobility (c : Color) : Weight where
  of piece := if piece.color = c then piece.kind.mobility else 0
  nonneg piece := by split <;> omega
  promotion d k listed := by
    cases c <;> cases d <;> revert k <;> decide

namespace Position

theorem total_mobility (p : Position) (c : Color) : (Weight.mobility c).total p.pieceOn =
    (census (p.kindsOf c) fun k _ => k.mobility : Nat) := by
  rw [Weight.total, Square.all, ← Fin.sum_univ_def, census, Nat.cast_sum]
  refine sum_congr rfl fun s _ => ?_
  unfold kindsOf Weight.on
  cases p.pieceOn s with
  | none => rfl
  | some piece => by_cases own : piece.color = c <;> simp [Weight.mobility, own]

section

variable [ZobristKeys] {start p : Position}

/-- No move adds to the mobility of the pieces, so the pieces at the start bound the number of
moves in every later position. -/
theorem Follows.length_pseudoMovesOf_le (grounded : start.Grounded) (follows : Follows start p)
    (c : Color) (scope : Scope) : ((p.pseudoMovesOf c scope).length : Int) ≤
      100 + (Weight.mobility c).total start.pieceOn := by
  have few := Position.length_pseudoMovesOf_le (follows.grounded grounded).firm.consistent c scope
  have gainless := follows.total_le grounded (Weight.mobility c)
  rw [total_mobility] at gainless
  omega

omit [ZobristKeys] in
theorem generate_eq_ok {c : Color} {scope : Scope} (few : ((p.pseudoMovesOf c scope).length : Int) ≤
    maxPositionMoves) : p.generate c scope = .ok (p.pseudoMovesOf c scope) :=
  if_pos (Int.ofNat_le.1 few)

/-- A side never has more than a hundred moves besides the mobility of the pieces in its setup.
Up to a mobility of 156 these are not too many, however the game goes on. -/
theorem generate_of_reaches {setup : Setup} (accepted : setup.toPosition = .ok start)
    (reaches : Reaches start p) (c : Color) (scope : Scope) :
    ((p.pseudoMovesOf c scope).length : Int) ≤ 100 + (Weight.mobility c).total start.pieceOn ∧
      ((Weight.mobility c).total start.pieceOn ≤ 156 →
        p.generate c scope = .ok (p.pseudoMovesOf c scope)) := by
  obtain ⟨grounded, unplayed⟩ := grounded_of_toPosition accepted
  have few := (reaches.follows grounded unplayed).length_pseudoMovesOf_le grounded c scope
  refine ⟨few, fun light => generate_eq_ok (few.trans ?_)⟩
  rw [maxPositionMoves]
  omega

end

theorem total_mobility_initial (c : Color) : (Weight.mobility c).total initial.pieceOn = 155 := by
  cases c <;> decide +kernel

theorem generate_of_opening : ∃ setup : Setup, setup.toPosition = .ok initial ∧
    Reaches initial Opening.last ∧ (Weight.mobility .black).total initial.pieceOn ≤ 156 ∧
    Opening.last.generate .black .all = .ok (Opening.last.pseudoMovesOf .black .all) := by
  obtain ⟨setup, -, accepted⟩ := bind_eq_ok ofFen_initial
  have light := (total_mobility_initial .black).le.trans (by decide : (155 : Int) ≤ 156)
  exact ⟨setup, accepted, Opening.played.reaches, light,
    (generate_of_reaches accepted Opening.played.reaches .black .all).2 light⟩

/-- In a game from the initial position there are never too many moves. -/
theorem generate_of_initial {p : Position} (reaches : Reaches initial p) (c : Color)
    (scope : Scope) : p.generate c scope = .ok (p.pseudoMovesOf c scope) := by
  obtain ⟨grounded, unplayed⟩ := grounded_initial
  have few := (reaches.follows grounded unplayed).length_pseudoMovesOf_le grounded c scope
  rw [total_mobility_initial] at few
  exact generate_eq_ok (few.trans (by decide))

end Position

/-! ## Queens on the edge -/

namespace Queens

/-- A white queen on every square of the edge, and no king. -/
def setup : Setup where
  pieces := (Square.all.filter fun s => s.rank = 0 ∨ s.rank = 7 ∨ s.file = 0 ∨ s.file = 7).map
    fun s => (s.val, ⟨.white, .queen⟩)
  side := .white
  rights := .none
  enPassant := none
  fifty := 0
  fullmove := 1

def start : Position := setup.toPosition.toOption.get (by decide +kernel)

end Queens

/-- A setup may be accepted although its queens have more moves than a position should have. -/
theorem Position.generate_of_queens : Queens.setup.toPosition = .ok Queens.start ∧
    Reaches Queens.start Queens.start ∧
    Queens.start.generate .white .all = .error (.tooManyMoves 288) := by
  have many : (Queens.start.pseudoMovesOf .white .all).length = 288 := by decide +kernel
  refine ⟨eq_ok_get _, .refl, ?_⟩
  rw [generate, many]
  exact if_neg (by decide)

end ChessEngine
