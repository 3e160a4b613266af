import ChessEngine.Position.Setup
import ChessEngine.Proofs.Position.Make

/-!
# Soundness is kept

A generated move of a sound position leads to a sound position, whether or not
the legality gate accepts it, and every accepted setup describes a sound one.
The three parts of `Basis.Sound` are taken one after the other, each by the
shapes of a move.
-/

namespace ChessEngine

namespace CastlingRights

variable {r : CastlingRights} {c : Color} {w : Wing} {origin target : Square}

theorem allows_restrict {keep : Color → Wing → Bool} :
    (r.restrict keep).allows c w = (r.allows c w && keep c w) :=
  allows_ofPred ..

/-- A right survives only moves that touch neither of its two home squares. -/
theorem untouched_of_allows (allowed : (r.afterTouching origin target).allows c w = true) :
    r.allows c w = true ∧
      ((CastlePath.of c w).kingHome ≠ origin ∧ (CastlePath.of c w).kingHome ≠ target) ∧
      ((CastlePath.of c w).rookHome ≠ origin ∧ (CastlePath.of c w).rookHome ≠ target) := by
  unfold afterTouching at allowed
  split at allowed
  · next empty =>
    rw [empty] at allowed
    cases c <;> cases w <;> cases allowed
  · rw [allows_restrict, Bool.and_eq_true] at allowed
    obtain ⟨held, apart⟩ := allowed
    simp only [Bool.and_eq_true, bne_iff_ne, ne_eq] at apart
    exact ⟨held, ⟨apart.1.1.1, apart.1.1.2⟩, ⟨apart.1.2, apart.2⟩⟩

theorem allows_afterTouching : (r.afterTouching origin target).allows c w = true ↔
    r.allows c w = true ∧
      ((CastlePath.of c w).kingHome ≠ origin ∧ (CastlePath.of c w).kingHome ≠ target) ∧
      ((CastlePath.of c w).rookHome ≠ origin ∧ (CastlePath.of c w).rookHome ≠ target) := by
  refine ⟨untouched_of_allows, ?_⟩
  rintro ⟨held, king, rook⟩
  unfold afterTouching
  split
  · exact held
  · rw [allows_restrict]
    simp [held, king, rook]

end CastlingRights

/-- The squares of castling moves of different sides are different. -/
theorem CastlePath.homes_apart {c d : Color} {w v : Wing}
    (other : (of c w).kingHome ≠ (of d v).kingHome) :
    (of c w).kingHome ≠ (of d v).rookHome ∧ (of c w).kingHome ≠ (of d v).rookTarget ∧
      (of c w).rookHome ≠ (of d v).rookHome ∧ (of c w).rookHome ≠ (of d v).rookTarget := by
  revert other
  cases c <;> cases d <;> cases w <;> cases v <;> decide

namespace Basis

variable {b : Basis} {mover piece : Piece} {m : Move} {hash : UInt64} {s : Square}

/-! ## The board after a move -/

theorem boardAfter_target : b.boardAfter mover m m.target = m.promoted.or (some mover) :=
  Function.update_self ..

theorem boardAfter_of_ne (notTarget : s ≠ m.target) (notOrigin : s ≠ m.origin) :
    b.boardAfter mover m s = b.boardAside m s := by
  rw [boardAfter, Function.update_of_ne notTarget, Function.update_of_ne notOrigin]

/-- What stands on a square after a move arrived there or stood aside. -/
theorem of_boardAfter_eq_some (held : b.boardAfter mover m s = some piece) :
    s = m.target ∧ m.promoted.or (some mover) = some piece ∨ b.boardAside m s = some piece := by
  by_cases atTarget : s = m.target
  · rw [atTarget, boardAfter_target] at held
    exact .inl ⟨atTarget, held⟩
  · rw [boardAfter, Function.update_of_ne atTarget] at held
    by_cases atOrigin : s = m.origin
    · rw [atOrigin, Function.update_self] at held
      cases held
    · rw [Function.update_of_ne atOrigin] at held
      exact .inr held

theorem Sound.withClocks (sound : b.Sound) (fifty fullmove : Counter) (ply : Nat)
    (history : History Undo) : { b with fifty, fullmove, ply, history }.Sound where
  castlers := sound.castlers
  passed e set := by
    obtain ⟨rank, empty, pawn⟩ := sound.passed e set
    exact ⟨rank, empty, pawn⟩
  pawns := sound.pawns

/-! ## No pawn on a back rank -/

/-- Standing aside takes a pawn off the board or moves a rook: anything else stood there before. -/
theorem Shape.of_boardAside (shape : b.Shape mover m) (sound : b.Sound)
    (notRook : piece.kind ≠ .rook) (held : b.boardAside m s = some piece) :
    b.board s = some piece := by
  cases shape with
  | ordinary ordinary => rwa [ordinary.boardAside_eq] at held
  | @enPassant origin target _ _ set =>
    obtain ⟨victim, behind, -⟩ := (sound.passed target set).pawn
    rw [boardAside_enPassant behind] at held
    by_cases here : s = victim
    · rw [here, Function.update_self] at held
      cases held
    · rwa [Function.update_of_ne here] at held
  | @castle w _ right _ =>
    have rook := (sound.castlers b.side w right).2
    rw [boardAside_castle] at held
    by_cases onTarget : s = (CastlePath.of b.side w).rookTarget
    · rw [onTarget, Function.update_self, rook] at held
      cases held
      exact absurd rfl notRook
    · rw [Function.update_of_ne onTarget] at held
      by_cases atHome : s = (CastlePath.of b.side w).rookHome
      · rw [atHome, Function.update_self] at held
        cases held
      · rwa [Function.update_of_ne atHome] at held

theorem Shape.arrival (shape : b.Shape mover m) (sound : b.Sound) {c : Color}
    (arrived : m.promoted.or (some mover) = some ⟨c, .pawn⟩) :
    m.target.rank ≠ 0 ∧ m.target.rank ≠ 7 := by
  cases shape with
  | ordinary ordinary =>
    cases chosen : m.promoted with
    | some piece =>
      rw [chosen] at arrived
      cases arrived
      have listed : Kind.pawn ∈ promotionKinds := (ordinary.promoted _ chosen).2.2
      exact absurd listed (by decide)
    | none =>
      rw [chosen] at arrived
      cases arrived
      exact ordinary.arrival rfl chosen
  | @enPassant origin target _ _ set =>
    have rank := (sound.passed target set).rank
    show target.rank ≠ 0 ∧ target.rank ≠ 7
    rw [rank]
    cases b.side <;> decide
  | castle king =>
    subst king
    cases arrived

theorem Shape.pawns_after (shape : b.Shape mover m) (sound : b.Sound) {c : Color}
    (held : b.boardAfter mover m s = some ⟨c, .pawn⟩) : s.rank ≠ 0 ∧ s.rank ≠ 7 := by
  rcases of_boardAfter_eq_some held with ⟨rfl, arrived⟩ | aside
  · exact shape.arrival sound arrived
  · exact sound.pawns c s (shape.of_boardAside sound nofun aside)

/-! ## Castlers at home -/

theorem Shape.boardAside_home (shape : b.Shape mover m) (sound : b.Sound) {c : Color} {w : Wing}
    (allowed : b.rights.allows c w = true) (unmoved : (CastlePath.of c w).kingHome ≠ m.origin) :
    b.boardAside m (CastlePath.of c w).kingHome = some ⟨c, .king⟩ ∧
      b.boardAside m (CastlePath.of c w).rookHome = some ⟨c, .rook⟩ := by
  obtain ⟨king, rook⟩ := sound.castlers c w allowed
  cases shape with
  | ordinary ordinary => exact ordinary.boardAside_eq ▸ ⟨king, rook⟩
  | @enPassant origin target _ _ set =>
    obtain ⟨victim, behind, pawn⟩ := (sound.passed target set).pawn
    -- A pawn is no castler, so the one that is taken stood on neither home square.
    have kingApart : (CastlePath.of c w).kingHome ≠ victim := by
      rintro rfl
      rw [king] at pawn
      cases pawn
    have rookApart : (CastlePath.of c w).rookHome ≠ victim := by
      rintro rfl
      rw [rook] at pawn
      cases pawn
    rw [boardAside_enPassant behind, Function.update_of_ne kingApart,
      Function.update_of_ne rookApart]
    exact ⟨king, rook⟩
  | @castle v =>
    obtain ⟨kingHome, kingTarget, rookHome, rookTarget⟩ := CastlePath.homes_apart unmoved
    rw [boardAside_castle, Function.update_of_ne kingTarget, Function.update_of_ne kingHome,
      Function.update_of_ne rookTarget, Function.update_of_ne rookHome]
    exact ⟨king, rook⟩

theorem Shape.castlers_after (shape : b.Shape mover m) (sound : b.Sound) {c : Color} {w : Wing}
    (allowed : (b.rights.afterTouching m.origin m.target).allows c w = true) :
    b.boardAfter mover m (CastlePath.of c w).kingHome = some ⟨c, .king⟩ ∧
      b.boardAfter mover m (CastlePath.of c w).rookHome = some ⟨c, .rook⟩ := by
  obtain ⟨held, king, rook⟩ := CastlingRights.untouched_of_allows allowed
  rw [boardAfter_of_ne king.2 king.1, boardAfter_of_ne rook.2 rook.1]
  exact shape.boardAside_home sound held king.1

/-! ## The passed square -/

theorem Ordinary.passed_after (ordinary : b.Ordinary mover m) (pawn : mover.kind = .pawn)
    (push : m.isDoublePush = true) :
    (b.after mover m hash).Passed (Position.passedSquare m.origin m.target) := by
  obtain ⟨-, plain, leaps⟩ := ordinary.doublePush push
  have notTarget : Position.passedSquare m.origin m.target ≠ m.target := by
    intro same
    have behind := (Square.shift?_eq_some_iff.1 leaps.victim).2
    rw [same] at behind
    cases side : b.side <;> rw [side] at behind <;>
      simp only [Color.opposite, Step.forward] at behind <;> omega
  have notOrigin : Position.passedSquare m.origin m.target ≠ m.origin := by
    intro same
    have empty := leaps.empty
    rw [same, ordinary.origin] at empty
    cases empty
  refine ⟨leaps.rank, ?_, m.target, leaps.victim, ?_⟩
  · show b.boardAfter mover m _ = none
    rw [boardAfter_of_ne notTarget notOrigin, ordinary.boardAside_eq, leaps.empty]
  · show b.boardAfter mover m m.target = some ⟨b.side.opposite.opposite, .pawn⟩
    rw [boardAfter_target, plain, Color.opposite_opposite, ← ordinary.own, ← pawn]
    rfl

theorem Shape.passed_after (shape : b.Shape mover m) {e : Square}
    (set : Position.enPassantAfter m mover = some e) : (b.after mover m hash).Passed e := by
  unfold Position.enPassantAfter at set
  split at set
  case isFalse => cases set
  case isTrue pushed =>
    simp only [Bool.and_eq_true, decide_eq_true_eq] at pushed
    cases set
    cases shape with
    | ordinary ordinary => exact ordinary.passed_after pushed.1 pushed.2
    | enPassant => cases pushed.2
    | castle => cases pushed.2

/-- A generated move of a sound position leads to a sound position. -/
theorem Shape.sound_after (shape : b.Shape mover m) (sound : b.Sound) :
    (b.after mover m hash).Sound where
  castlers _ _ allowed := shape.castlers_after sound allowed
  passed _ set := shape.passed_after set
  pawns _ _ held := shape.pawns_after sound held

end Basis

end ChessEngine
