import ChessEngine.Proofs.Reflection.Play

/-!
# Reflected setups

A setup and its reflection are checked alike, and what they describe are positions
that mirror each other.  Pieces are put on both boards in the same order; while this
goes on White is to move on both of them, so that only the boards are compared
(`Faces`).  `Setup.alike_reflect` puts this in front of what `Twins` says about games.
-/

namespace ChessEngine

theorem Square.ofIndex?_reflect {n : Nat} {s : Square} (index : Square.ofIndex? n = some s) :
    Square.ofIndex? (n ^^^ 56) = some s.reflect := by
  rw [ofIndex?_eq_some_iff] at index ⊢
  rw [index, val_reflect]

theorem CastlingRights.restrict_reflect (r : CastlingRights) {keep keep' : Color → Wing → Bool}
    (same : ∀ c w, keep' c.opposite w = keep c w) :
    r.reflect.restrict keep' = (r.restrict keep).reflect := by
  refine ext_allows fun c w => ?_
  have kept := same c.opposite w
  rw [Color.opposite_opposite] at kept
  rw [allows_restrict, allows_reflect, allows_reflect, allows_restrict, kept]

namespace Basis

/-- A square that a pawn has just passed, seen from the other side. -/
theorem Passed.reflect {b b' : Basis} {target : Square} (passed : b.Passed target)
    (turned : Turned b.board b'.board) (side : b'.side = b.side.opposite) :
    b'.Passed target.reflect := by
  obtain ⟨rank, empty, victim, behind, held⟩ := passed
  refine ⟨?_, turned.vacant empty, victim.reflect, ?_, ?_⟩
  · rw [Square.rank_reflect, rank, side]
    cases b.side <;> rfl
  · rw [side, enPassantVictim?_reflect, behind]
    rfl
  · rw [side]
    exact turned.held held

end Basis

namespace Setup

section

variable [ZobristKeys] {p q p' : Position} {piece : Piece} {s : Square} {n : Nat} {c : Color}

/-! ## Pieces -/

omit [ZobristKeys] in
theorem isBackRank_reflect (s : Square) : isBackRank s.reflect = isBackRank s := by
  revert s
  decide

/-- Two boards that are being set up, turned with respect to each other. -/
structure Faces (p q : Position) : Prop where
  left : Blank p
  right : Blank q
  board : Turned p.pieceOn q.pieceOn
  leftSide : p.side = .white
  rightSide : q.side = .white

theorem Faces.empty : Faces .empty .empty where
  left := .empty
  right := .empty
  board s := by
    rw [Position.Shows.empty.pieceOn]
    rfl
  leftSide := rfl
  rightSide := rfl

theorem Faces.kingSquare_eq_none (faces : Faces p q) (missing : p.kingSquare c = none) :
    q.kingSquare c.opposite = none := by
  refine Option.eq_none_iff_forall_ne_some.2 fun t noted => ?_
  have king := faces.board.symm.held (faces.right.shows.kingSquare_eq.1 noted)
  rw [show Piece.reflect ⟨c.opposite, .king⟩ = ⟨c, .king⟩ by simp [Piece.reflect]] at king
  cases missing.symm.trans (faces.left.shows.kingSquare_eq.2 king)

theorem Faces.place (faces : Faces p q) (placed : place p n piece = .ok p') :
    ∃ q', Setup.place q (n ^^^ 56) piece.reflect = .ok q' ∧ Faces p' q' := by
  have blank := faces.left.place placed
  obtain ⟨s, index, free, inside, alone, rfl⟩ := place_eq_ok_iff.1 placed
  have placed' : Setup.place q (n ^^^ 56) piece.reflect = .ok (q.put piece.reflect s.reflect) := by
    refine place_eq_ok_iff.2 ⟨s.reflect, Square.ofIndex?_reflect index, faces.board.vacant free,
      fun pawn => ?_, fun king => ?_, rfl⟩
    · rw [isBackRank_reflect, inside pawn]
    · exact faces.kingSquare_eq_none (alone king)
  refine ⟨_, placed', blank, faces.right.place placed', ?_, faces.leftSide, faces.rightSide⟩
  rw [Position.pieceOn_put, Position.pieceOn_put]
  exact faces.board.update s (some piece)

theorem Faces.placeAll {pieces : List (Nat × Piece)} (faces : Faces p q)
    (placed : placeAll p pieces = .ok p') :
    ∃ q', Setup.placeAll q (pieces.map fun (n, piece) => (n ^^^ 56, piece.reflect)) = .ok q' ∧
      Faces p' q' := by
  induction pieces generalizing p q with
  | nil =>
    cases placed
    exact ⟨q, rfl, faces⟩
  | cons entry rest ih =>
    obtain ⟨next, one, others⟩ := bind_eq_ok placed
    obtain ⟨next', one', faces'⟩ := faces.place one
    obtain ⟨q', others', done⟩ := ih faces' others
    refine ⟨q', ?_, done⟩
    show (Setup.place q _ _ >>= fun r => Setup.placeAll r _) = _
    rw [one', ok_bind, others']

/-! ## Rights and the en-passant square -/

omit [ZobristKeys] in
theorem castlersHome_opposite (turned : Turned p.pieceOn q.pieceOn) (c : Color) (w : Wing) :
    castlersHome q c.opposite w = castlersHome p c w := by
  have home : ∀ {p q : Position} {c : Color}, Turned p.pieceOn q.pieceOn →
      castlersHome p c w = true → castlersHome q c.opposite w = true := by
    intro p q c turned stand
    simp only [castlersHome, Bool.and_eq_true, beq_iff_eq] at stand ⊢
    rw [CastlePath.kingHome_opposite, CastlePath.rookHome_opposite]
    exact ⟨turned.held stand.1, turned.held stand.2⟩
  refine Bool.eq_iff_iff.2 ⟨fun stand => ?_, home turned⟩
  have back := home turned.symm stand
  rwa [Color.opposite_opposite] at back

/-- The last check of a setup comes out the same on positions that mirror each other. -/
theorem mirrors_of_placeEnPassant (mirrors : p.Mirrors q) {target : Option Nat}
    (placed : placeEnPassant p target = .ok p') :
    ∃ q', placeEnPassant q (target.map (· ^^^ 56)) = .ok q' ∧ p'.Mirrors q' := by
  cases target with
  | none =>
    cases placed
    exact ⟨q, rfl, mirrors⟩
  | some n =>
    unfold placeEnPassant at placed
    dsimp only at placed
    split at placed
    · cases placed
    · next s index =>
      split at placed
      · next checked =>
        cases placed
        have passed : q.basis.Passed s.reflect :=
          (passed_of_isPassed checked).reflect mirrors.board mirrors.side
        refine ⟨q.setEnPassant (some s.reflect), ?_, ⟨mirrors.board, mirrors.side,
          mirrors.rights, rfl⟩⟩
        rw [Option.map_some, placeEnPassant, Square.ofIndex?_reflect index]
        exact if_pos (isPassed_of_passed passed)
      · cases placed

/-! ## Whole setups -/

/-- The steps after the pieces, on boards that are turned and with opposite sides to move. -/
theorem mirrors_of_turned (left : Blank p) (right : Blank q) (board : Turned p.pieceOn q.pieceOn)
    (side : q.side = p.side.opposite) {rights : CastlingRights} {target : Option Nat}
    {fifty fullmove : Counter}
    (finished : (do
      let r ← placeEnPassant (p.setRights (rights.restrict (castlersHome p))) target
      return { r with fifty, fullmove }) = .ok p') :
    ∃ q', (do
      let r ← placeEnPassant (q.setRights (rights.reflect.restrict (castlersHome q)))
        (target.map (· ^^^ 56))
      return { r with fifty, fullmove }) = .ok q' ∧ p'.Mirrors q' := by
  have mirrors : (p.setRights (rights.restrict (castlersHome p))).Mirrors
      (q.setRights (rights.reflect.restrict (castlersHome q))) := by
    refine ⟨board, side, rights.restrict_reflect (castlersHome_opposite board), ?_⟩
    show q.enPassant = p.enPassant.map _
    rw [left.enPassant, right.enPassant]
    rfl
  obtain ⟨passed, enPassant, finished⟩ := bind_eq_ok finished
  obtain ⟨passed', enPassant', done⟩ := mirrors_of_placeEnPassant mirrors enPassant
  cases finished
  rw [enPassant']
  exact ⟨_, rfl, done.board, done.side, done.rights, done.enPassant⟩

/-- The reflection of an accepted setup is accepted, and the positions mirror each other. -/
theorem mirrors_of_toPosition {setup : Setup} (accepted : setup.toPosition = .ok p) :
    ∃ q, setup.reflect.toPosition = .ok q ∧ p.Mirrors q := by
  obtain ⟨placed, pieces, accepted⟩ := bind_eq_ok accepted
  obtain ⟨placed', pieces', faces⟩ := Faces.empty.placeAll pieces
  unfold toPosition
  rw [show placeAll .empty setup.reflect.pieces = .ok placed' from pieces', ok_bind]
  have here := faces.leftSide
  have there := faces.rightSide
  cases side : setup.side with
  | white =>
    rw [side] at accepted
    rw [show setup.reflect.side = .black from congrArg Color.opposite side]
    refine mirrors_of_turned faces.left faces.right.flipSide faces.board ?_ accepted
    show placed'.side.opposite = _
    rw [here, there]
  | black =>
    rw [side] at accepted
    rw [show setup.reflect.side = .white from congrArg Color.opposite side]
    refine mirrors_of_turned faces.left.flipSide faces.right faces.board ?_ accepted
    show _ = placed.side.opposite.opposite
    rw [here, there]
    rfl

/-- In a position that was just set up as many moves can be made as a history has room for. -/
theorem roomy_of_toPosition {setup : Setup} (accepted : setup.toPosition = .ok p)
    (less : n ≤ historyCapacity) : p.Roomy n := by
  obtain ⟨firm, unplayed⟩ := firm_of_toPosition accepted
  refine ⟨firm, ?_⟩
  rw [unplayed, show History.empty.size = 0 from rfl, Nat.zero_add]
  exact less

theorem twins_of_toPosition {setup : Setup} (accepted : setup.toPosition = .ok p)
    (accepted' : setup.reflect.toPosition = .ok q) (less : n ≤ historyCapacity) :
    Position.Twins n p q := by
  obtain ⟨q', reflected, mirrors⟩ := mirrors_of_toPosition accepted
  cases accepted'.symm.trans reflected
  exact ⟨mirrors, roomy_of_toPosition accepted less, roomy_of_toPosition accepted' less⟩

end

/-- A setup is accepted if and only if its reflection is.  Then the leaf counts of the two positions
are the same to any depth that a history has room for, and the legal moves of one are the
reflections of the legal moves of the other. -/
theorem alike_reflect [ZobristKeys] (setup : Setup) :
    ((∃ p, setup.toPosition = .ok p) ↔ ∃ q, setup.reflect.toPosition = .ok q) ∧
      ∀ p q, setup.toPosition = .ok p → setup.reflect.toPosition = .ok q →
        (∀ depth ≤ historyCapacity, ∃ counts p' q',
          p.perft depth = .ok (counts, p') ∧ q.perft depth = .ok (counts, q')) ∧
        ∃ moves moves' p' q', p.legalMoves = .ok (moves, p') ∧ q.legalMoves = .ok (moves', q') ∧
          moves'.Perm (moves.map Move.reflect) := by
  refine ⟨⟨?_, ?_⟩, fun p q accepted accepted' => ⟨fun depth less => ?_, ?_⟩⟩
  · rintro ⟨p, accepted⟩
    obtain ⟨q, accepted', -⟩ := mirrors_of_toPosition accepted
    exact ⟨q, accepted'⟩
  · rintro ⟨q, accepted⟩
    obtain ⟨p, accepted', -⟩ := mirrors_of_toPosition accepted
    rw [reflect_reflect] at accepted'
    exact ⟨p, accepted'⟩
  · exact (twins_of_toPosition accepted accepted' less).perft
  · have once : Position.Twins (0 + 1) p q :=
      twins_of_toPosition accepted accepted' (by decide)
    exact once.legalMoves

/-- The reflected rehearsal starts like the rehearsal. -/
theorem alike_rehearsal : ∃ q, Rehearsal.setup.reflect.toPosition = .ok q ∧
    (∃ counts p' q', Rehearsal.start.perft 5 = .ok (counts, p') ∧
      q.perft 5 = .ok (counts, q')) ∧
    ∃ moves moves' p' q', Rehearsal.start.legalMoves = .ok (moves, p') ∧
      q.legalMoves = .ok (moves', q') ∧ moves'.Perm (moves.map Move.reflect) := by
  obtain ⟨acceptance, alike⟩ := alike_reflect Rehearsal.setup
  obtain ⟨q, reflected⟩ := acceptance.1 ⟨_, Rehearsal.accepted⟩
  obtain ⟨counts, legal⟩ := alike _ q Rehearsal.accepted reflected
  exact ⟨q, reflected, counts 5 (by decide), legal⟩

end Setup

end ChessEngine
