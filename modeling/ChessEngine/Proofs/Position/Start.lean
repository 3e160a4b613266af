import ChessEngine.Proofs.Position.Soundness

/-!
# Accepted setups

The checks of a `Setup` are what a sound position needs: every position that a
setup is turned into is consistent and sound, and nothing was played in it yet.
-/

namespace ChessEngine

namespace Position

variable [ZobristKeys]

/-- A consistent position whose generated moves are on firm ground. -/
structure Firm (p : Position) : Prop where
  consistent : p.Consistent
  sound : p.basis.Sound

theorem Shows.firm {p : Position} {b : Basis} (shows : p.Shows b) (sound : b.Sound) : p.Firm :=
  ⟨shows.consistent, shows.basis_eq ▸ sound⟩

theorem Firm.shows {p : Position} (firm : p.Firm) : p.Shows p.basis := ⟨firm.consistent, rfl⟩

theorem Firm.withClocks {p : Position} (firm : p.Firm) (fifty fullmove : Counter) (ply : Nat)
    (history : History Undo) : { p with fifty, fullmove, ply, history }.Firm :=
  (firm.shows.withClocks fifty fullmove ply history).firm (firm.sound.withClocks _ _ _ _)

end Position

namespace Setup

variable [ZobristKeys] {p q : Position} {piece : Piece} {s : Square}

/-- A position that still lacks everything but its pieces. -/
structure Blank (p : Position) : Prop extends p.Firm where
  rights : p.rights = .none
  enPassant : p.enPassant = none
  history : p.history = .empty

theorem Blank.empty : Blank .empty where
  consistent := Position.Shows.empty.consistent
  sound := by
    rw [Position.Shows.empty.basis_eq]
    refine ⟨fun c w allowed => ?_, nofun, nofun⟩
    cases c <;> cases w <;> cases allowed
  rights := rfl
  enPassant := rfl
  history := rfl

theorem Blank.put (blank : Blank p) (empty : p.pieceOn s = none)
    (inside : piece.kind = .pawn → isBackRank s = false)
    (alone : piece.kind = .king → p.kingSquare piece.color = none) : Blank (p.put piece s) := by
  have shown : (p.put piece s).Shows (p.basis.assign s (some piece)) :=
    blank.toFirm.shows.put empty fun king t other => by
      have noted := alone king
      rcases piece with ⟨c, k⟩
      cases king
      rw [blank.toFirm.shows.kingSquare_eq.2 other] at noted
      cases noted
  refine ⟨shown.firm ⟨?_, ?_, ?_⟩, blank.rights, blank.enPassant, blank.history⟩
  · intro c w allowed
    change p.rights.allows c w = true at allowed
    rw [blank.rights] at allowed
    cases c <;> cases w <;> cases allowed
  · intro e set
    cases blank.enPassant.symm.trans set
  · intro c t held
    rw [Basis.board_assign] at held
    by_cases here : t = s
    · rw [here, Function.update_self] at held
      cases held
      simpa [isBackRank, here] using inside rfl
    · rw [Function.update_of_ne here] at held
      exact blank.sound.pawns c t held

/-- The checks of one piece, all passed. -/
theorem place_eq_ok_iff {n : Nat} : place p n piece = .ok q ↔
    ∃ s, Square.ofIndex? n = some s ∧ p.pieceOn s = none ∧
      (piece.kind = .pawn → isBackRank s = false) ∧
      (piece.kind = .king → p.kingSquare piece.color = none) ∧ p.put piece s = q := by
  unfold Setup.place
  cases index : Square.ofIndex? n with
  | none => simp
  | some s =>
    simp only [ite_error_eq_ok_iff, Bool.not_eq_true, Option.isSome_eq_false_iff,
      Option.isNone_iff_eq_none, Bool.and_eq_true, decide_eq_true_eq, not_and, Except.ok.injEq,
      Option.some.injEq, exists_eq_left']

theorem Blank.place (blank : Blank p) {n : Nat} (placed : place p n piece = .ok q) : Blank q := by
  obtain ⟨s, -, free, inside, alone, rfl⟩ := place_eq_ok_iff.1 placed
  exact blank.put free inside alone

theorem Blank.placeAll {pieces : List (Nat × Piece)} (blank : Blank p)
    (placed : placeAll p pieces = .ok q) : Blank q := by
  induction pieces generalizing p with
  | nil =>
    cases placed
    exact blank
  | cons entry rest ih =>
    obtain ⟨next, one, others⟩ := bind_eq_ok placed
    exact ih (blank.place one) others

theorem Blank.flipSide (blank : Blank p) : Blank p.flipSide := by
  refine ⟨blank.toFirm.shows.flipSide.firm ⟨?_, ?_, ?_⟩, blank.rights, blank.enPassant,
    blank.history⟩
  · exact blank.sound.castlers
  · intro e set
    cases blank.enPassant.symm.trans set
  · exact blank.sound.pawns

/-- Rights are kept only where king and rook stand at home. -/
theorem Blank.restrict (blank : Blank p) (rights : CastlingRights) :
    (p.setRights (rights.restrict (castlersHome p))).Firm := by
  refine (blank.toFirm.shows.setRights _).firm ⟨?_, ?_, ?_⟩
  · intro c w allowed
    have kept : (rights.allows c w && castlersHome p c w) = true :=
      CastlingRights.allows_restrict.symm.trans allowed
    simp only [castlersHome, Bool.and_eq_true, beq_iff_eq] at kept
    exact kept.2
  · intro e set
    cases blank.enPassant.symm.trans set
  · exact blank.sound.pawns

omit [ZobristKeys] in
theorem passed_of_isPassed {e : Square} (checked : isPassed p e = true) : p.basis.Passed e := by
  unfold isPassed at checked
  rw [Bool.and_eq_true, Bool.and_eq_true, beq_iff_eq, Option.isNone_iff_eq_none] at checked
  obtain ⟨⟨rank, empty⟩, behind⟩ := checked
  split at behind
  case h_2 => cases behind
  case h_1 victim shifted =>
    refine ⟨?_, empty, victim, shifted, beq_iff_eq.1 behind⟩
    rw [rank]
    show _ = p.side.passedRank
    cases p.side <;> rfl

omit [ZobristKeys] in
theorem isPassed_of_passed {e : Square} (passed : p.basis.Passed e) : isPassed p e = true := by
  obtain ⟨rank, empty, victim, behind, held⟩ := passed
  have shifted : e.shift? 0 (-Step.forward p.side) = some victim := behind
  have vacant : p.pieceOn e = none := empty
  have pawn : p.pieceOn victim = some ⟨p.side.opposite, .pawn⟩ := held
  have expected : e.rank = p.side.passedRank := rank
  unfold isPassed
  rw [shifted, vacant, expected]
  dsimp only
  rw [pawn]
  cases p.side <;> rfl

theorem firm_of_placeEnPassant (firm : p.Firm) {target : Option Nat}
    (placed : placeEnPassant p target = .ok q) : q.Firm ∧ q.history = p.history := by
  unfold placeEnPassant at placed
  split at placed
  · cases placed
    exact ⟨firm, rfl⟩
  · split at placed
    · cases placed
    · next s index =>
      split at placed
      · next checked =>
        cases placed
        refine ⟨(firm.shows.setEnPassant (some s)).firm ⟨firm.sound.castlers, ?_,
          firm.sound.pawns⟩, rfl⟩
        rintro e ⟨⟩
        obtain ⟨rank, empty, pawn⟩ := passed_of_isPassed checked
        exact ⟨rank, empty, pawn⟩
      · cases placed

/-- The last steps of a setup, once the pieces stand and the side to move is known. -/
theorem firm_of_turned (blank : Blank q) {rights : CastlingRights} {target : Option Nat}
    {fifty fullmove : Counter}
    (finished : (do
      let r ← placeEnPassant (q.setRights (rights.restrict (castlersHome q))) target
      return { r with fifty, fullmove }) = .ok p) :
    p.Firm ∧ p.history = .empty := by
  obtain ⟨passed, enPassant, finished⟩ := bind_eq_ok finished
  obtain ⟨firm, history⟩ := firm_of_placeEnPassant (blank.restrict rights) enPassant
  cases finished
  exact ⟨firm.withClocks _ _ _ _, history.trans blank.history⟩

/-- An accepted setup describes a firm position in which nothing was played. -/
theorem firm_of_toPosition {setup : Setup} (accepted : setup.toPosition = .ok p) :
    p.Firm ∧ p.history = .empty := by
  obtain ⟨placed, pieces, accepted⟩ := bind_eq_ok accepted
  have blank := Blank.empty.placeAll pieces
  cases side : setup.side with
  | white =>
    rw [side] at accepted
    exact firm_of_turned blank accepted
  | black =>
    rw [side] at accepted
    exact firm_of_turned blank.flipSide accepted

end Setup

end ChessEngine
