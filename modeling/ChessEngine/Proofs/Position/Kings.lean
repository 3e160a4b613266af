import ChessEngine.Proofs.Generator.Movement
import ChessEngine.Proofs.Position.Safety

/-!
# Kings stay on the board

The legality gate keeps the mover's king out of attack, and the generator offers
captures by attack.  If the side that has just moved left no king attacked, the
other side therefore has no king to capture, and no king ever disappears.

`Calm start p` is what a line of accepted moves from `start` preserves, and
`Calm.of_make` is its step.
-/

namespace ChessEngine

namespace Basis

variable {b : Basis} {mover piece : Piece} {m : Move} {c : Color} {s : Square}

/-- Nobody but a pawn or a rook stands aside. -/
theorem Shape.boardAside_of_board (shape : b.Shape mover m) (sound : b.Sound)
    (held : b.board s = some piece) (notPawn : piece.kind ≠ .pawn) (notRook : piece.kind ≠ .rook) :
    b.boardAside m s = some piece := by
  cases shape with
  | ordinary ordinary => rwa [ordinary.boardAside_eq]
  | @enPassant origin target _ _ set =>
    obtain ⟨victim, behind, pawn⟩ := (sound.passed target set).pawn
    rw [boardAside_enPassant behind, Function.update_of_ne, held]
    rintro rfl
    rw [held] at pawn
    cases pawn
    exact notPawn rfl
  | @castle w _ right clear =>
    have rook := (sound.castlers b.side w right).2
    have crossing := clear _ (CastlePath.apart b.side w).cross_between
    rw [boardAside_castle, Function.update_of_ne, Function.update_of_ne, held]
    · rintro rfl
      rw [held] at rook
      cases rook
      exact notRook rfl
    · rintro rfl
      rw [held] at crossing
      cases crossing

/-- A move that takes no king leaves each side its king. -/
theorem Shape.exists_king_after (shape : b.Shape mover m) (sound : b.Sound)
    (spares : ∀ c, b.board m.target ≠ some ⟨c, .king⟩) :
    (∃ s, b.boardAfter mover m s = some ⟨c, .king⟩) ↔ ∃ s, b.board s = some ⟨c, .king⟩ := by
  have carries := shape.carries sound
  constructor
  · rintro ⟨s, held⟩
    rcases of_boardAfter_eq_some held with ⟨-, arrived⟩ | aside
    · cases promoted : m.promoted with
      | none =>
        rw [promoted] at arrived
        exact ⟨m.origin, carries.origin.trans arrived⟩
      | some piece =>
        rw [promoted] at arrived
        cases arrived
        exact absurd rfl (carries.promoted _ promoted).2
    · exact ⟨s, shape.of_boardAside sound nofun aside⟩
  · rintro ⟨s, held⟩
    by_cases moves : s = m.origin
    · have king : mover = ⟨c, .king⟩ :=
        Option.some.inj (carries.origin.symm.trans (moves ▸ held))
      have plain : m.promoted = none := by
        refine Option.eq_none_iff_forall_ne_some.2 fun piece promoted => ?_
        have pawn := (carries.promoted piece promoted).1
        rw [king] at pawn
        cases pawn
      exact ⟨m.target, by rw [boardAfter_target, plain, king]; rfl⟩
    · have stays : s ≠ m.target := fun same => spares c (same ▸ held)
      exact ⟨s, by rw [boardAfter_of_ne stays moves,
        shape.boardAside_of_board sound held nofun nofun]⟩

end Basis

namespace Position

/-- Side `c` has a king on the board. -/
def HasKing (p : Position) (c : Color) : Prop := ∃ s, p.pieceOn s = some ⟨c, .king⟩

/-- A move that would take a king, by its own record or by what stands on its target. -/
def TakesKing (p : Position) (m : Move) : Prop :=
  ∃ c, m.captured = some ⟨c, .king⟩ ∨ p.pieceOn m.target = some ⟨c, .king⟩

section

variable [ZobristKeys] {start p q : Position} {m : Move} {c : Color} {t : Square}

/-! ## Attacked kings -/

theorem inCheck_of_attackedBy (consistent : p.Consistent)
    (king : p.pieceOn t = some ⟨c, .king⟩) (attacked : p.AttackedBy c.opposite t) :
    p.inCheck c = true := by
  have noted : p.placement.kings.get c = some t := (consistent.noted c t).2 king
  rw [inCheck, Placement.inCheck, noted]
  exact (attackedBy_iff consistent.tallied).1 attacked

theorem inCheck_iff (consistent : p.Consistent) : p.inCheck c = true ↔
    ∃ s, p.pieceOn s = some ⟨c, .king⟩ ∧ p.AttackedBy c.opposite s := by
  constructor
  · intro check
    rw [inCheck, Placement.inCheck] at check
    split at check
    · next s noted =>
      exact ⟨s, (consistent.noted c s).1 noted, (attackedBy_iff consistent.tallied).2 check⟩
    · cases check
  · rintro ⟨s, king, attacked⟩
    exact inCheck_of_attackedBy consistent king attacked

omit [ZobristKeys] in
/-- What a move captures on its target was attacked. -/
theorem Movement.attacked (movement : p.Movement c m) {victim : Piece}
    (captured : m.captured = some victim) (notPawn : victim.kind ≠ .pawn) :
    p.pieceOn m.target = some victim ∧ victim.color = c.opposite ∧ p.AttackedBy c m.target := by
  cases movement with
  | piece _ held attacks free =>
    exact ⟨captured, Color.eq_opposite (free victim captured), _, _, held, attacks⟩
  | pawnCapture held attacks taken enemy =>
    cases captured
    exact ⟨taken, enemy, _, _, held, attacks⟩
  | enPassant =>
    cases captured
    exact absurd rfl notPawn
  | push => cases captured
  | doublePush => cases captured
  | castle => cases captured

/-- A move records what stands on its target. -/
theorem Firm.captured_of_target (firm : p.Firm) (member : m ∈ p.pseudoMoves) {piece : Piece}
    (held : p.pieceOn m.target = some piece) : m.captured = some piece := by
  obtain ⟨mover, shape⟩ := firm.shape_of_mem member
  cases shape with
  | ordinary ordinary => exact ordinary.target.symm.trans held
  | @enPassant _ target _ _ set => cases (firm.sound.passed target set).empty.symm.trans held
  | @castle w _ _ clear =>
    cases (clear _ (CastlePath.apart p.side w).target_between).symm.trans held

theorem Firm.not_takesKing (firm : p.Firm) (unattacked : p.inCheck p.side.opposite = false)
    (member : m ∈ p.pseudoMoves) : ¬ p.TakesKing m := by
  rintro ⟨c, taken⟩
  have captured : m.captured = some ⟨c, .king⟩ :=
    taken.elim id (firm.captured_of_target member)
  have movement := (mem_pseudoMovesOf firm.consistent).1 member
  obtain ⟨king, enemy, attacked⟩ := movement.attacked captured nofun
  subst enemy
  rw [← Color.opposite_opposite p.side] at attacked
  rw [inCheck_of_attackedBy firm.consistent king attacked] at unattacked
  cases unattacked

/-! ## Along a line of accepted moves -/

/-- No king can be taken, and the kings of `start` are all there is. -/
structure Calm (start p : Position) : Prop where
  unattacked : p.inCheck p.side.opposite = false
  kings : ∀ c, p.HasKing c ↔ start.HasKing c

omit [ZobristKeys] in
theorem Calm.recount (calm : Calm start p) (fullmove : Counter) (ply : Nat) :
    Calm start (p.recount fullmove ply) :=
  ⟨calm.unattacked, calm.kings⟩

theorem Calm.of_make (calm : Calm start p) (firm : p.Firm) (member : m ∈ p.pseudoMoves)
    (made : p.make m = .ok (true, q)) : Calm start q := by
  have applied := firm.applied_of_make member made
  obtain ⟨mover, shape, shows⟩ := firm.shows_of_apply member applied
  have side : q.side.opposite = p.side := by
    rw [shows.side]
    exact p.side.opposite_opposite
  have spares : ∀ c, p.pieceOn m.target ≠ some ⟨c, .king⟩ := fun c held =>
    firm.not_takesKing calm.unattacked member ⟨c, .inr held⟩
  refine ⟨side ▸ inCheck_of_make made, fun c => Iff.trans ?_ (calm.kings c)⟩
  rw [HasKing, shows.pieceOn]
  exact shape.exists_king_after firm.sound spares

theorem Follows.calm (grounded : start.Grounded)
    (unattacked : start.inCheck start.side.opposite = false) (follows : Follows start p) :
    Calm start p := by
  induction follows with
  | start fullmove ply => exact Calm.recount ⟨unattacked, fun _ => Iff.rfl⟩ fullmove ply
  | made fullmove ply line member made calm =>
    exact (calm.of_make (line.grounded grounded).firm member made).recount fullmove ply

end

/-- If a setup leaves the king of the side not to move unattacked, so does every position of the
game: no generated move takes a king, and each side has a king if and only if it had one. -/
theorem kings_of_reaches [ZobristKeys] {setup : Setup} {start p : Position}
    (accepted : setup.toPosition = .ok start)
    (unattacked : start.inCheck start.side.opposite = false) (reaches : Reaches start p) :
    p.inCheck p.side.opposite = false ∧
      (∀ scope, ∀ m ∈ p.pseudoMovesOf p.side scope, ¬ p.TakesKing m) ∧
      ∀ c, p.HasKing c ↔ start.HasKing c := by
  obtain ⟨firm, unplayed⟩ := Setup.firm_of_toPosition accepted
  have grounded := Grounded.start firm unplayed
  have follows := reaches.follows grounded unplayed
  have calm := follows.calm grounded unattacked
  have here := (follows.grounded grounded).firm
  exact ⟨calm.unattacked, fun _ _ member =>
    here.not_takesKing calm.unattacked (mem_pseudoMovesOf_all member), calm.kings⟩

theorem kings_of_rehearsal :
    Rehearsal.last.inCheck Rehearsal.last.side.opposite = false ∧
      (∀ scope, ∀ m ∈ Rehearsal.last.pseudoMovesOf Rehearsal.last.side scope,
        ¬ Rehearsal.last.TakesKing m) ∧
      ∀ c, Rehearsal.last.HasKing c ↔ Rehearsal.start.HasKing c :=
  kings_of_reaches Rehearsal.accepted (by decide +kernel) Rehearsal.played.reaches

end Position

end ChessEngine
