import ChessEngine.Proofs.Position.Repetition

/-!
# Collisions of hashes

A repetition is recognised by its hash, and hashes may collide.  `Reachable.collides`
names a case in which a collision is the only explanation: a position in which every
move is rejected.  It cannot have stood on the board before, because from every
position of a game but the last a move was made (`Reachable.move_of_record`), and
whether a move is accepted, and where it leads, depends on nothing that hashes leave
out (`Firm.make_of_sameDiagram`).
-/

namespace ChessEngine

namespace Position

variable [ZobristKeys]

/-- Another position, reached from some setup, has the same hash. -/
def Collides (p : Position) : Prop :=
  ∃ q : Position, q.Reachable ∧ q.hash = p.hash ∧ ¬ q.SameDiagram p

/-- Every move is rejected. -/
def Stuck (p : Position) : Prop := ∀ m ∈ p.pseudoMoves, ∃ q, p.make m = .ok (false, q)

variable {p q r r' : Position} {m : Move}

/-! ## What hashes leave out -/

theorem Firm.mem_of_sameDiagram (left : p.Firm) (right : q.Firm) (same : p.SameDiagram q)
    (member : m ∈ q.pseudoMoves) : m ∈ p.pseudoMoves := by
  rw [left.eq_of_sameDiagram right same]
  exact member

/-- A move does the same to the same diagram. -/
theorem Firm.sameDiagram_of_apply (left : p.Firm) (right : q.Firm) (same : p.SameDiagram q)
    (member : m ∈ q.pseudoMoves) (applied : p.apply m = .ok r) (applied' : q.apply m = .ok r') :
    r.SameDiagram r' := by
  obtain ⟨mover, shape, shows⟩ :=
    left.shows_of_apply (left.mem_of_sameDiagram right same member) applied
  obtain ⟨mover', shape', shows'⟩ := right.shows_of_apply member applied'
  have origin : some mover = some mover' :=
    (shape.carries left.sound).origin.symm.trans
      ((congrFun same.board _).trans (shape'.carries right.sound).origin)
  cases origin
  refine ⟨?_, ?_, ?_, shows.enPassant.trans shows'.enPassant.symm⟩
  · rw [shows.pieceOn, shows'.pieceOn]
    show p.basis.boardAfter mover m = q.basis.boardAfter mover m
    rw [left.eq_of_sameDiagram right same]
    rfl
  · rw [shows.side, shows'.side]
    exact congrArg Color.opposite same.side
  · rw [shows.rights, shows'.rights]
    exact congrArg (·.afterTouching m.origin m.target) same.rights

/-- What is accepted in one position is accepted in any other with the same diagram. -/
theorem Firm.make_of_sameDiagram (left : p.Firm) (right : q.Firm) (same : p.SameDiagram q)
    (member : m ∈ q.pseudoMoves) (made : q.make m = .ok (true, r))
    (room : p.history.size < historyCapacity) :
    ∃ r', p.make m = .ok (true, r') ∧ r'.SameDiagram r := by
  have member' := left.mem_of_sameDiagram right same member
  have applied := right.applied_of_make member made
  obtain ⟨r', applied'⟩ := left.apply member' room
  have after := left.sameDiagram_of_apply right same member applied' applied
  have alike := congrArg Position.placement
    ((left.of_apply member' applied').eq_of_sameDiagram (right.of_apply member applied) after)
  have unattacked : r'.inCheck p.side = false := by
    rw [inCheck, alike, same.side]
    show r.inCheck q.side = false
    exact inCheck_of_make made
  refine ⟨r', ?_, after⟩
  rw [left.make_eq member' applied', unattacked]
  rfl

/-- What is accepted in one position is not rejected in another with the same diagram. -/
theorem Firm.not_stuck_of_make (left : p.Firm) (right : q.Firm) (same : p.SameDiagram q)
    (member : m ∈ q.pseudoMoves) (made : q.make m = .ok (true, r)) : ¬ p.Stuck := by
  intro stuck
  obtain ⟨s, rejected⟩ := stuck m (left.mem_of_sameDiagram right same member)
  obtain ⟨_, applied, -⟩ := bind_eq_ok rejected
  obtain ⟨r', accepted, -⟩ :=
    left.make_of_sameDiagram right same member made (room_of_apply applied)
  cases rejected.symm.trans accepted

/-! ## What histories hold -/

/-- Taking a move back drops its record. -/
theorem Grounded.mem_of_takeBack (grounded : p.Grounded) (taken : p.takeBack = .ok q) {u : Undo}
    (recorded : u ∈ q.history.entries) : u ∈ p.history.entries := by
  cases grounded with
  | start _ unplayed => exact absurd unplayed (played_of_takeBack taken)
  | @made _ r _ fullmove ply before member applied =>
    rw [before.firm.takeBack_of_apply member applied fullmove ply] at taken
    cases taken
    obtain ⟨v, entries, -⟩ := before.firm.record_of_apply member applied
    show u ∈ r.history.entries
    rw [entries]
    exact List.mem_cons_of_mem v recorded

/-- Every record of a game holds the hash of a position in which a move was made. -/
theorem Reachable.move_of_record (reachable : p.Reachable) {u : Undo}
    (recorded : u ∈ p.history.entries) :
    ∃ (q r : Position) (m : Move), q.Reachable ∧ m ∈ q.pseudoMoves ∧
      q.make m = .ok (true, r) ∧ u.hash = q.hash := by
  obtain ⟨setup, start, accepted, reaches⟩ := reachable
  obtain ⟨grounded, unplayed⟩ := grounded_of_toPosition accepted
  induction reaches with
  | refl =>
    rw [unplayed] at recorded
    cases recorded
  | @turn p q before turn ih =>
    have here := grounded.of_reaches before
    cases turn with
    | @make m acceptance member made =>
      cases acceptance with
      | true =>
        obtain ⟨applied, -⟩ := here.apply_of_make member made
        obtain ⟨v, entries, hash⟩ := here.firm.record_of_apply member applied
        rw [entries] at recorded
        rcases List.mem_cons.1 recorded with rfl | earlier
        · exact ⟨p, q, m, ⟨setup, start, accepted, before⟩, member, made, hash⟩
        · exact ih earlier
      | false =>
        rcases here.firm.make_cases member made with ⟨⟨⟩, -⟩ | ⟨-, rfl⟩
        exact ih recorded
    | takeBack taken =>
      exact ih (here.mem_of_takeBack taken recorded)

/-- Where every move is rejected, only a collision of hashes can look like a repetition: from a
position that is repeated, some move was made. -/
theorem Reachable.collides (reachable : p.Reachable) (stuck : p.Stuck)
    (repeated : p.isRepetition = true) : p.Collides := by
  rw [isRepetition, History.recalls_iff] at repeated
  obtain ⟨k, u, -, found, same⟩ := repeated
  obtain ⟨q, r, m, there, member, made, hash⟩ :=
    reachable.move_of_record (List.mem_of_getElem? found)
  refine ⟨q, there, hash.symm.trans same, fun alike => ?_⟩
  exact reachable.grounded.firm.not_stuck_of_make there.grounded.firm alike.symm member made stuck

end Position

end ChessEngine
