import ChessEngine.Proofs.Perft
import ChessEngine.Proofs.Reflection.Movement

/-!
# Playing on turned boards

A move and its reflection lead from positions that mirror each other to positions
that mirror each other.  What the move does to the board, the rights and the
en-passant square is compared part by part; that this was a generated move is only
needed for the squares that special moves touch besides origin and target.

`Twins n p q` adds that both positions can be played on for `n` moves.  One accepted
move leads from twins to twins (`Twins.after?`), and so everything that is counted
or listed over all accepted moves is the same on both sides (`Twins.gains`,
`Twins.leaves`, `Twins.legal`).
-/

namespace ChessEngine

namespace CastlingRights

variable {r : CastlingRights} {c : Color} {w : Wing} {origin target : Square}

theorem afterTouching_reflect (r : CastlingRights) (origin target : Square) :
    r.reflect.afterTouching origin.reflect target.reflect =
      (r.afterTouching origin target).reflect := by
  refine ext_allows fun c w => Bool.eq_iff_iff.2 ?_
  have king := CastlePath.kingHome_opposite c.opposite w
  have rook := CastlePath.rookHome_opposite c.opposite w
  rw [Color.opposite_opposite] at king rook
  rw [allows_reflect, allows_afterTouching, allows_afterTouching, allows_reflect, king, rook]
  simp only [ne_eq, Square.reflect_inj]

end CastlingRights

/-! ## The effect of a move -/

namespace Basis

variable {b b' : Basis} {mover : Piece} {m : Move} {origin target : Square}

theorem enPassantVictim?_reflect (c : Color) (target : Square) :
    Position.enPassantVictim? c.opposite target.reflect =
      (Position.enPassantVictim? c target).map Square.reflect := by
  rw [Position.enPassantVictim?, Step.forward_opposite]
  exact Square.shift?_reflect

/-- The pawn taken in passing leaves both boards, and the castling rook moves on both. -/
theorem Shape.turned_aside (shape : b.Shape mover m) (sound : b.Sound)
    (turned : Turned b.board b'.board) (side : b'.side = b.side.opposite) :
    Turned (b.boardAside m) (b'.boardAside m.reflect) := by
  cases shape with
  | ordinary ordinary =>
    have here : b.boardAside m = b.board := ordinary.boardAside_eq
    have there : b'.boardAside m.reflect = b'.board := by
      unfold boardAside
      rw [show m.reflect.isEnPassant = false from ordinary.notEnPassant,
        show m.reflect.isCastle = false from ordinary.notCastle]
      rfl
    rw [here, there]
    exact turned
  | @enPassant origin target _ _ set =>
    obtain ⟨victim, behind, -⟩ := (sound.passed target set).pawn
    have behind' : Position.enPassantVictim? b'.side target.reflect = some victim.reflect := by
      rw [side, enPassantVictim?_reflect, behind]
      rfl
    rw [boardAside_enPassant behind]
    show Turned _ (b'.boardAside ⟨origin.reflect, target.reflect, _, _, _⟩)
    rw [boardAside_enPassant behind']
    exact turned.update victim none
  | @castle w _ _ _ =>
    have castled := boardAside_castle (b := b') (w := w)
    rw [side, CastlePath.kingHome_opposite, CastlePath.kingTarget_opposite,
      CastlePath.rookHome_opposite, CastlePath.rookTarget_opposite, turned] at castled
    have moved := (turned.update (CastlePath.of b.side w).rookHome none).update
      (CastlePath.of b.side w).rookTarget (b.board (CastlePath.of b.side w).rookHome)
    rw [Option.map_none, ← castled] at moved
    rw [boardAside_castle]
    exact moved

theorem Shape.turned_after (shape : b.Shape mover m) (sound : b.Sound)
    (turned : Turned b.board b'.board) (side : b'.side = b.side.opposite) :
    Turned (b.boardAfter mover m) (b'.boardAfter mover.reflect m.reflect) := by
  have arrived : (m.promoted.or (some mover)).map Piece.reflect =
      m.reflect.promoted.or (some mover.reflect) := by
    show _ = (m.promoted.map Piece.reflect).or (some mover.reflect)
    cases m.promoted <;> rfl
  unfold boardAfter
  rw [← arrived]
  exact ((shape.turned_aside sound turned side).update m.origin none).update m.target _

end Basis

namespace Position

variable [ZobristKeys] {p q p' q' : Position} {m : Move} {mover : Piece} {c : Color} {n : Nat}

omit [ZobristKeys] in
/-- The square that a double push passes over is reflected with the push. -/
theorem Movement.passedSquare_reflect (movement : p.Movement c m) (double : m.isDoublePush = true) :
    passedSquare m.origin.reflect m.target.reflect = (passedSquare m.origin m.target).reflect := by
  cases movement with
  | doublePush _ _ next _ further _ =>
    have next' := Square.shift?_reflect_iff.2 next
    have further' := Square.shift?_reflect_iff.2 further
    rw [← Step.forward_opposite] at next' further'
    rw [passedSquare_eq next ((Square.shift?_twice next).2 further),
      passedSquare_eq next' ((Square.shift?_twice next').2 further')]
  | piece | pawnCapture | enPassant | push | castle => cases double

omit [ZobristKeys] in
theorem Movement.enPassantAfter_reflect (movement : p.Movement c m) (mover : Piece) :
    enPassantAfter m.reflect mover.reflect = (enPassantAfter m mover).map Square.reflect := by
  show (if mover.kind = .pawn && m.isDoublePush then
    some (passedSquare m.origin.reflect m.target.reflect) else none) = _
  unfold enPassantAfter
  split
  · next double =>
    rw [movement.passedSquare_reflect (Bool.and_eq_true_iff.1 double).2]
    rfl
  · rfl

/-- A move and its reflection, carried out in positions that mirror each other. -/
theorem Mirrors.apply (mirrors : p.Mirrors q) (left : p.Firm) (right : q.Firm)
    (member : m ∈ p.pseudoMoves) (applied : p.apply m = .ok p')
    (applied' : q.apply m.reflect = .ok q') : p'.Mirrors q' := by
  have member' := mirrors.mem_pseudoMoves left.consistent right.consistent member
  have movement := (mem_pseudoMovesOf left.consistent).1 member
  obtain ⟨mover, shape, shows⟩ := left.shows_of_apply member applied
  obtain ⟨mover', shape', shows'⟩ := right.shows_of_apply member' applied'
  have same : mover' = mover.reflect := Option.some.inj
    ((shape'.carries right.sound).origin.symm.trans
      (mirrors.board.held (shape.carries left.sound).origin))
  subst same
  constructor
  case board =>
    rw [shows.pieceOn, shows'.pieceOn]
    exact shape.turned_after left.sound mirrors.board mirrors.side
  case side =>
    rw [shows.side, shows'.side]
    exact congrArg Color.opposite mirrors.side
  case rights =>
    rw [shows.rights, shows'.rights]
    show q.rights.afterTouching m.origin.reflect m.target.reflect = _
    rw [mirrors.rights, CastlingRights.afterTouching_reflect]
    rfl
  case enPassant =>
    rw [shows.enPassant, shows'.enPassant]
    exact movement.enPassantAfter_reflect mover

/-! ## Accepted moves -/

/-- Positions that mirror each other and can be played on for `n` moves. -/
structure Twins (n : Nat) (p q : Position) : Prop where
  mirrors : p.Mirrors q
  left : p.Roomy n
  right : q.Roomy n

theorem Twins.symm (twins : Twins n p q) : Twins n q p :=
  ⟨twins.mirrors.symm, twins.right, twins.left⟩

theorem Twins.pseudoMoves (twins : Twins n p q) :
    q.pseudoMoves.Perm (p.pseudoMoves.map Move.reflect) :=
  twins.mirrors.pseudoMoves twins.left.firm.consistent twins.right.firm.consistent

/-- An accepted move is accepted on the other side, and both lead to twins. -/
theorem Twins.after? (twins : Twins (n + 1) p q) (member : m ∈ p.pseudoMoves)
    (after : p.after? m = some p') : ∃ q', q.after? m.reflect = some q' ∧ Twins n p' q' := by
  obtain ⟨mirrors, left, right⟩ := twins
  have member' := mirrors.mem_pseudoMoves left.firm.consistent right.firm.consistent member
  have made := after?_eq_some.1 after
  have applied := left.firm.applied_of_make member made
  have room := right.room
  obtain ⟨q', applied'⟩ := right.firm.apply member' (by omega)
  have mirrors' := mirrors.apply left.firm right.firm member applied applied'
  have firm := left.firm.of_apply member applied
  have firm' := right.firm.of_apply member' applied'
  have unattacked : q'.inCheck q.side = false := by
    rw [mirrors.side, inCheck_opposite mirrors'.board firm.consistent firm'.consistent,
      inCheck_of_make made]
  have made' : q.make m.reflect = .ok (true, q') := by
    rw [Position.make, applied', ok_bind, unattacked]
    rfl
  refine ⟨q', after?_eq_some.2 made', mirrors', ⟨firm, ?_⟩, firm', ?_⟩
  · have before := left.room
    rw [left.firm.size_of_apply member applied]
    omega
  · rw [right.firm.size_of_apply member' applied']
    omega

theorem Twins.after?_eq_none (twins : Twins (n + 1) p q) (member : m ∈ p.pseudoMoves)
    (rejected : p.after? m = none) : q.after? m.reflect = none := by
  refine Option.eq_none_iff_forall_ne_some.2 fun q' after => ?_
  have member' := twins.mirrors.mem_pseudoMoves twins.left.firm.consistent
    twins.right.firm.consistent member
  obtain ⟨p', back, -⟩ := twins.symm.after? member' after
  rw [Move.reflect_reflect, rejected] at back
  cases back

theorem Twins.isSome_after? (twins : Twins (n + 1) p q) (member : m ∈ p.pseudoMoves) :
    (q.after? m.reflect).isSome = (p.after? m).isSome := by
  cases after : p.after? m with
  | none => rw [twins.after?_eq_none member after]
  | some p' =>
    obtain ⟨q', after', -⟩ := twins.after? member after
    rw [after']
    rfl

/-- The legal moves of twins are the reflections of each other. -/
theorem Twins.legal (twins : Twins (n + 1) p q) :
    (q.legalAmong q.pseudoMoves).Perm ((p.legalAmong p.pseudoMoves).map Move.reflect) := by
  refine (twins.pseudoMoves.filter _).trans ?_
  rw [List.filter_map]
  refine .of_eq (congrArg _ (List.filter_congr fun m member => ?_))
  exact twins.isSome_after? member

theorem Twins.legalMoves (twins : Twins (n + 1) p q) :
    ∃ moves moves' p' q', p.legalMoves = .ok (moves, p') ∧ q.legalMoves = .ok (moves', q') ∧
      moves'.Perm (moves.map Move.reflect) := by
  obtain ⟨fullmove, listed, -⟩ := (twins.left.mono (Nat.le_add_left 1 n)).legalMoves
  obtain ⟨fullmove', listed', -⟩ := (twins.right.mono (Nat.le_add_left 1 n)).legalMoves
  exact ⟨_, _, _, _, listed, listed', twins.legal⟩

/-- What is computed alike from twins comes to the same over all accepted moves. -/
theorem Twins.gains {α : Type} {value : Move → Position → α} (twins : Twins (n + 1) p q)
    (same : ∀ m p' q', Twins n p' q' → value m.reflect q' = value m p') :
    (q.gains value q.pseudoMoves).Perm (p.gains value p.pseudoMoves) := by
  refine (twins.pseudoMoves.filterMap _).trans ?_
  rw [List.filterMap_map]
  refine .of_eq (List.filterMap_congr fun m member => ?_)
  show (q.after? m.reflect).map (value m.reflect) = (p.after? m).map (value m)
  cases after : p.after? m with
  | none => rw [twins.after?_eq_none member after]; rfl
  | some p' =>
    obtain ⟨q', after', further⟩ := twins.after? member after
    rw [after']
    exact congrArg some (same m p' q' further)

/-! ## Leaf counts -/

theorem Twins.leaf (twins : Twins n p q) (m : Move) :
    PerftCounts.leaf m.reflect q = PerftCounts.leaf m p := by
  have checks : q.inCheck q.side = p.inCheck p.side := by
    rw [twins.mirrors.side]
    exact inCheck_opposite twins.mirrors.board twins.left.firm.consistent
      twins.right.firm.consistent p.side
  have promotions : m.reflect.isPromotion = m.isPromotion := Option.isSome_map
  unfold PerftCounts.leaf
  rw [promotions, show q.placement.inCheck q.side = p.placement.inCheck p.side from checks]
  rfl

theorem Twins.leavesBelow (depth : Nat) (m : Move) (p q : Position) (twins : Twins depth p q) :
    leavesBelow depth m.reflect q = leavesBelow depth m p := by
  induction depth generalizing m p q with
  | zero => exact twins.leaf m
  | succ depth ih => exact PerftCounts.sum_eq_of_perm (twins.gains ih)

theorem Twins.leaves {depth : Nat} (twins : Twins depth p q) :
    q.leaves depth = p.leaves depth := by
  cases depth with
  | zero => rfl
  | succ depth => exact PerftCounts.sum_eq_of_perm (twins.gains (Twins.leavesBelow depth))

theorem Twins.perft {depth : Nat} (twins : Twins depth p q) : ∃ counts p' q',
    p.perft depth = .ok (counts, p') ∧ q.perft depth = .ok (counts, q') := by
  obtain ⟨fullmove, counted, -⟩ := twins.left.perft
  obtain ⟨fullmove', counted', -⟩ := twins.right.perft
  rw [twins.leaves] at counted'
  exact ⟨_, _, _, counted, counted'⟩

end Position

end ChessEngine
