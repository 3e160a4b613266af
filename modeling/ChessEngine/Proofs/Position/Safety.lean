import ChessEngine.Proofs.Position.Run
import ChessEngine.Zobrist.Standard

/-!
# What holds throughout a game

The results for callers that keep to generated moves.  The tables kept beside the
board never disagree with it, and no call of such a caller fails; what the
generator and the legality gate take for granted (`Position.Safe`) holds in every
position they see; and taking back what was played restores the position with all
its tables.

`Rehearsal` is a short game with a double push, an en-passant capture, a
promotion and castling, on which the results are tried.
-/

namespace ChessEngine

namespace Position

variable [ZobristKeys] {p q r : Position} {moves : List Move}

/-- The position that a list of moves leads to, if each is generated and accepted in its turn. -/
def follow? (p : Position) : List Move → Option Position
  | [] => some p
  | m :: rest => if m ∈ p.pseudoMoves then (p.after? m).bind (·.follow? rest) else none

theorem played_of_follow? (followed : p.follow? moves = some q) : Played p moves q := by
  induction moves generalizing p with
  | nil =>
    cases followed
    exact .nil
  | cons m rest ih =>
    unfold follow? at followed
    split at followed
    · next member =>
      obtain ⟨next, made, followed⟩ := Option.bind_eq_some_iff.1 followed
      exact .cons member (after?_eq_some.1 made) (ih followed)
    · cases followed

end Position

/-! ## A rehearsal -/

namespace Rehearsal

/-- White castles king-side and promotes; the pawns on d7 and e5 meet en passant. -/
def setup : Setup where
  pieces := [(4, ⟨.white, .king⟩), (7, ⟨.white, .rook⟩), (36, ⟨.white, .pawn⟩),
    (49, ⟨.white, .pawn⟩), (60, ⟨.black, .king⟩), (56, ⟨.black, .rook⟩), (51, ⟨.black, .pawn⟩)]
  side := .black
  rights := ⟨true, false, false, true⟩
  enPassant := none
  fifty := 3
  fullmove := 20

/-- 20. … d5 21. exd6 Kf7 22. bxa8=Q Kg6 23. O-O -/
def moves : List Move :=
  [⟨51, 35, none, none, { MoveFlags.none with doublePush := true }⟩,
    ⟨36, 43, some ⟨.black, .pawn⟩, none,
      { MoveFlags.none with capture := true, enPassant := true }⟩,
    .plain 60 53,
    ⟨49, 56, some ⟨.black, .rook⟩, some ⟨.white, .queen⟩,
      { MoveFlags.none with capture := true }⟩,
    .plain 53 46,
    ⟨4, 6, none, none, { MoveFlags.none with castle := true }⟩]

/-- The position of the setup. -/
def start : Position := setup.toPosition.toOption.get (by decide +kernel)

/-- The position after the moves. -/
def last : Position := (start.follow? moves).get (by decide +kernel)

theorem accepted : setup.toPosition = .ok start := eq_ok_get _

theorem reachable : start.Reachable := ⟨setup, start, accepted, .refl⟩

theorem played : Position.Played start moves last :=
  Position.played_of_follow? (Option.some_get _).symm

theorem reachable_last : last.Reachable := reachable.of_reaches played.reaches

end Rehearsal

namespace Position

/-! ## The tables agree with the board -/

/-- Every position of a game passes its audit, and the game can go on from it: what was played can
be taken back, and while there is room for its record a generated move can be made. -/
theorem audit_of_reachable [ZobristKeys] {p : Position} (reachable : p.Reachable) :
    p.audit = .ok () ∧
      (p.history ≠ .empty → ∃ q, p.takeBack = .ok q) ∧
      (p.history.size < historyCapacity →
        ∀ m ∈ p.pseudoMoves, ∃ accepted q, p.make m = .ok (accepted, q)) := by
  have grounded := reachable.grounded
  refine ⟨grounded.firm.consistent.audit, fun played => ?_, fun room m member => ?_⟩
  · obtain ⟨q, taken, -⟩ := grounded.takeBack played
    exact ⟨q, taken⟩
  · exact grounded.firm.make member room

theorem audit_of_rehearsal :
    Rehearsal.last.audit = .ok () ∧ ∃ q, Rehearsal.last.takeBack = .ok q := by
  have audited := audit_of_reachable Rehearsal.reachable_last
  exact ⟨audited.1, audited.2.1 (by decide +kernel)⟩

/-! ## What the generator takes for granted -/

/-- What the generator and the steps of a move rely on without looking. -/
structure Safe (p : Position) : Prop where
  castlers : ∀ c w, p.rights.allows c w = true →
    p.pieceOn (CastlePath.of c w).kingHome = some ⟨c, .king⟩ ∧
      p.pieceOn (CastlePath.of c w).rookHome = some ⟨c, .rook⟩
  passed : ∀ e, p.enPassant = some e →
    p.pieceOn e = none ∧ e.rank = p.side.passedRank ∧
      ∃ v : Square, (v.val : Int) = e.val - 8 * Step.forward p.side ∧
        p.pieceOn v = some ⟨p.side.opposite, .pawn⟩
  pawns : ∀ c s, p.pieceOn s = some ⟨c, .pawn⟩ → s.rank ≠ 0 ∧ s.rank ≠ 7
  kings : ∀ c s t, p.pieceOn s = some ⟨c, .king⟩ → p.pieceOn t = some ⟨c, .king⟩ → s = t
  push : ∀ c s, p.pieceOn s = some ⟨c, .pawn⟩ → ∃ t, s.shift? 0 (Step.forward c) = some t
  doublePush : ∀ c s, p.pieceOn s = some ⟨c, .pawn⟩ → s.rank = c.pawnRank →
    ∃ t, s.shift? 0 (2 * Step.forward c) = some t

theorem exists_ahead {c : Color} {s : Square} (inside : s.rank ≠ 0 ∧ s.rank ≠ 7) :
    ∃ t, s.shift? 0 (Step.forward c) = some t := by
  obtain ⟨notFirst, notLast⟩ := inside
  rw [ne_eq, Fin.ext_iff] at notFirst notLast
  have bound := s.rank.isLt
  cases c <;> refine Square.exists_shift? ?_ ?_ <;> simp only [Step.forward] <;> omega

theorem exists_twoAhead {c : Color} {s : Square} (start : s.rank = c.pawnRank) :
    ∃ t, s.shift? 0 (2 * Step.forward c) = some t := by
  rw [Fin.ext_iff] at start
  cases c <;> refine Square.exists_shift? ?_ ?_ <;>
    simp only [Step.forward, Color.pawnRank] at start ⊢ <;> omega

theorem Firm.safe [ZobristKeys] {p : Position} (firm : p.Firm) : p.Safe where
  castlers := firm.sound.castlers
  passed e set := by
    obtain ⟨rank, empty, victim, behind, pawn⟩ := firm.sound.passed e set
    refine ⟨empty, rank, victim, ?_, pawn⟩
    obtain ⟨file, rank⟩ := Square.shift?_eq_some_iff.1 behind
    have atEnd := e.val_eq
    have atVictim := victim.val_eq
    change _ = _ + -Step.forward p.side at rank
    omega
  pawns := firm.sound.pawns
  kings _ _ _ := firm.shows.king_unique
  push c s held := exists_ahead (firm.sound.pawns c s held)
  doublePush _ _ _ start := exists_twoAhead start

/-- Every position of a game is safe, and no move that is generated in it can fail while there is
room for its record. -/
theorem safe_of_reachable [ZobristKeys] {p : Position} (reachable : p.Reachable) :
    p.Safe ∧ ∀ m ∈ p.pseudoMoves, p.history.size < historyCapacity →
      ∃ accepted q, p.make m = .ok (accepted, q) := by
  have firm := reachable.grounded.firm
  exact ⟨firm.safe, fun m member room => firm.make member room⟩

theorem safe_of_rehearsal : Rehearsal.last.Safe ∧
    ∀ m ∈ Rehearsal.last.pseudoMoves, ∃ accepted q, Rehearsal.last.make m = .ok (accepted, q) := by
  have safe := safe_of_reachable Rehearsal.reachable_last
  exact ⟨safe.1, fun m member => safe.2 m member (by decide +kernel)⟩

/-! ## Taking back what was played -/

section

variable [ZobristKeys] {p q r : Position} {moves : List Move}

theorem takeBackMany_succ (n : Nat) :
    p.takeBackMany (n + 1) = p.takeBackMany n >>= Position.takeBack := by
  induction n generalizing p with
  | zero =>
    show (p.takeBack >>= fun q => .ok q) = .ok p >>= Position.takeBack
    rw [ok_bind]
    cases p.takeBack <;> rfl
  | succ n ih =>
    show (p.takeBack >>= fun q => q.takeBackMany (n + 1)) =
      (p.takeBack >>= fun q => q.takeBackMany n) >>= Position.takeBack
    cases p.takeBack with
    | error e => rfl
    | ok q => exact ih

/-- Taking back as many moves as were played leads back, whatever became of the number of the move,
and restores that as well unless its counter was full on the way. -/
theorem Firm.takeBackMany_played (firm : p.Firm) (played : Played p moves q) (fullmove : Counter) :
    ∃ fullmove', (q.recount fullmove q.ply).takeBackMany moves.length =
        .ok (p.recount fullmove' p.ply) ∧
      (fullmove = q.fullmove → p.fullmove.toNat + moves.length ≤ 65535 →
        fullmove' = p.fullmove) := by
  induction played with
  | nil => exact ⟨fullmove, rfl, fun same _ => same⟩
  | @cons p q r m rest member made played ih =>
    have back := firm.takeBack_of_make member made
    have applied := firm.applied_of_make member made
    obtain ⟨between, taken, exact⟩ := ih (firm.of_apply member applied)
    refine ⟨Basis.fullmoveBefore between p.side, ?_, fun same count => ?_⟩
    · rw [List.length_cons, takeBackMany_succ, taken, ok_bind, back]
    · have step := firm.toNat_fullmove_le member applied
      rw [List.length_cons] at count
      rw [exact same (by omega), firm.fullmove_of_apply member applied,
        Basis.fullmoveBefore_fullmoveAfter p.side (fullmove_ne_of_room count)]

theorem Grounded.takeBackMany_played (grounded : p.Grounded) (played : Played p moves q)
    (count : p.fullmove.toNat + moves.length < 65535) : q.takeBackMany moves.length = .ok p := by
  obtain ⟨fullmove, taken, exact⟩ := grounded.firm.takeBackMany_played played q.fullmove
  rw [exact rfl (Nat.le_of_lt count)] at taken
  exact taken

end

/-- Taking back as many moves as were played restores the position in every field. -/
theorem takeBackMany_of_played [ZobristKeys] {p q : Position} {moves : List Move}
    (reachable : p.Reachable) (played : Played p moves q)
    (count : p.fullmove.toNat + moves.length < 65535) : q.takeBackMany moves.length = .ok p :=
  reachable.grounded.takeBackMany_played played count

theorem takeBackMany_of_rehearsal : Rehearsal.last.takeBackMany 6 = .ok Rehearsal.start :=
  takeBackMany_of_played Rehearsal.reachable Rehearsal.played (by decide +kernel)

end Position

end ChessEngine
