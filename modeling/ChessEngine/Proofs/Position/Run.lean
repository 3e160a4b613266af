import ChessEngine.Fen
import ChessEngine.Position.Reachable
import ChessEngine.Proofs.Position.Start

/-!
# Positions in the course of a game

`Grounded` describes the positions from which every recorded move can be taken
back: they were built by applying generated moves to a firm position without
history, and only the move counters may have been changed on the way.  The
legality gate takes rejected moves back and the search resets the ply, so that
the record of a game says no more about its counters.

Both calls of a caller succeed on grounded positions and lead to grounded ones,
hence every reachable position is grounded.  `Follows start` keeps to the moves that
were accepted: what holds at the start and survives an accepted move holds along
every such line, and `Reaches.follows` finds all of a game on lines of this kind.
-/

namespace ChessEngine

namespace Basis

variable {fullmove : Counter}

/-- Counting a move and taking it back restores the number, unless the counter is full. -/
theorem fullmoveBefore_fullmoveAfter (c : Color) (count : fullmove ≠ 65535) :
    fullmoveBefore (fullmoveAfter fullmove c) c = fullmove := by
  cases c with
  | white => rfl
  | black =>
    have next : Counter.next fullmove = fullmove + 1 := if_neg count
    have positive : fullmove + 1 ≠ 0 := by
      intro zero
      have back : fullmove + 1 - 1 = 0 - 1 := by rw [zero]
      rw [UInt16.add_sub_cancel] at back
      exact count back
    show Counter.previous (Counter.next fullmove) = fullmove
    rw [next, Counter.previous, if_neg positive, UInt16.add_sub_cancel]

theorem toNat_fullmoveAfter_le (c : Color) :
    (fullmoveAfter fullmove c).toNat ≤ fullmove.toNat + 1 := by
  cases c with
  | white => exact Nat.le_succ _
  | black =>
    show (Counter.next fullmove).toNat ≤ _
    unfold Counter.next
    split
    · exact Nat.le_succ _
    · rw [UInt16.toNat_add]
      exact Nat.mod_le _ _

end Basis

namespace Position

/-- Replaces the counters that the record of a game says nothing about. -/
def recount (p : Position) (fullmove : Counter) (ply : Nat) : Position := { p with fullmove, ply }

theorem recount_recount {p : Position} (fullmove fullmove' : Counter) (ply ply' : Nat) :
    (p.recount fullmove ply).recount fullmove' ply' = p.recount fullmove' ply' :=
  rfl

/-- A number of the move that leaves room for another is not the last. -/
theorem fullmove_ne_of_room {p : Position} {n : Nat}
    (count : p.fullmove.toNat + (n + 1) ≤ 65535) : p.fullmove ≠ 65535 := by
  intro full
  rw [full] at count
  exact absurd count (by simp)

variable [ZobristKeys] {p q r : Position} {m : Move} {accepted : Bool}

theorem Shows.recount {b : Basis} (shows : p.Shows b) (fullmove : Counter) (ply : Nat) :
    (p.recount fullmove ply).Shows { b with fullmove, ply } := by
  obtain ⟨consistent, rfl⟩ := shows
  exact (Shows.mk consistent rfl).withClocks _ _ _ _

theorem Firm.recount (firm : p.Firm) (fullmove : Counter) (ply : Nat) :
    (p.recount fullmove ply).Firm :=
  firm.withClocks _ _ _ _

/-! ## One generated move of a firm position -/

theorem Firm.shape_of_mem (firm : p.Firm) (member : m ∈ p.pseudoMoves) :
    ∃ mover, p.basis.Shape mover m :=
  firm.shows.shape_of_mem firm.sound member

/-- Carrying a move out starts by recording it. -/
theorem room_of_apply (applied : p.apply m = .ok q) : p.history.size < historyCapacity := by
  unfold Position.apply at applied
  split at applied
  · cases applied
  · obtain ⟨recorded, first, -⟩ := bind_eq_ok applied
    obtain ⟨history, pushed, -⟩ := bind_eq_ok first
    unfold History.push at pushed
    split at pushed
    · assumption
    · cases pushed

theorem Firm.apply (firm : p.Firm) (member : m ∈ p.pseudoMoves)
    (room : p.history.size < historyCapacity) : ∃ q, p.apply m = .ok q := by
  obtain ⟨mover, shape⟩ := firm.shape_of_mem member
  obtain ⟨q, applied, -⟩ := firm.shows.apply firm.sound shape room
  exact ⟨q, applied⟩

theorem Firm.shows_of_apply (firm : p.Firm) (member : m ∈ p.pseudoMoves)
    (applied : p.apply m = .ok q) :
    ∃ mover, p.basis.Shape mover m ∧ q.Shows (p.basis.after mover m p.hash) := by
  obtain ⟨mover, shape⟩ := firm.shape_of_mem member
  obtain ⟨q', applied', shows⟩ := firm.shows.apply firm.sound shape (room_of_apply applied)
  rw [applied] at applied'
  cases applied'
  exact ⟨mover, shape, shows⟩

theorem Firm.of_apply (firm : p.Firm) (member : m ∈ p.pseudoMoves)
    (applied : p.apply m = .ok q) : q.Firm := by
  obtain ⟨mover, shape, shows⟩ := firm.shows_of_apply member applied
  exact shows.firm (shape.sound_after firm.sound)

theorem Firm.fullmove_of_apply (firm : p.Firm) (member : m ∈ p.pseudoMoves)
    (applied : p.apply m = .ok q) : q.fullmove = Basis.fullmoveAfter p.fullmove p.side := by
  obtain ⟨mover, -, shows⟩ := firm.shows_of_apply member applied
  exact congrArg Basis.fullmove shows.basis_eq

/-- An accepted move raises the number of the move by one at most. -/
theorem Firm.toNat_fullmove_le (firm : p.Firm) (member : m ∈ p.pseudoMoves)
    (applied : p.apply m = .ok q) : q.fullmove.toNat ≤ p.fullmove.toNat + 1 := by
  rw [firm.fullmove_of_apply member applied]
  exact Basis.toNat_fullmoveAfter_le p.side

theorem Firm.ply_of_apply (firm : p.Firm) (member : m ∈ p.pseudoMoves)
    (applied : p.apply m = .ok q) : q.ply = p.ply + 1 := by
  obtain ⟨mover, -, shows⟩ := firm.shows_of_apply member applied
  exact congrArg Basis.ply shows.basis_eq

theorem Firm.size_of_apply (firm : p.Firm) (member : m ∈ p.pseudoMoves)
    (applied : p.apply m = .ok q) : q.history.size = p.history.size + 1 := by
  obtain ⟨mover, -, shows⟩ := firm.shows_of_apply member applied
  rw [shows.history]
  rfl

/-- Taking a move back restores everything but what became of the counters. -/
theorem Firm.takeBack_of_apply (firm : p.Firm) (member : m ∈ p.pseudoMoves)
    (applied : p.apply m = .ok q) (fullmove : Counter) (ply : Nat) :
    (q.recount fullmove ply).takeBack =
      .ok (p.recount (Basis.fullmoveBefore fullmove p.side) (ply - 1)) := by
  obtain ⟨mover, shape, shows⟩ := firm.shows_of_apply member applied
  obtain ⟨back, taken, shown⟩ := firm.shows.takeBack firm.sound shape
    (shows.recount fullmove ply)
  rw [taken, shown.unique (firm.shows.recount _ _)]
  rfl

/-- Where the legality gate leads with a move that it rejects: only the number of the move may
differ, and only if the counter is full. -/
def rejected (p : Position) : Position :=
  p.recount (Basis.fullmoveBefore (Basis.fullmoveAfter p.fullmove p.side) p.side) p.ply

omit [ZobristKeys] in
theorem rejected_eq_self (count : p.fullmove ≠ 65535) : p.rejected = p := by
  rw [rejected, Basis.fullmoveBefore_fullmoveAfter p.side count]
  rfl

theorem Firm.takeBack_apply (firm : p.Firm) (member : m ∈ p.pseudoMoves)
    (applied : p.apply m = .ok q) :
    q.takeBack = .ok p.rejected := by
  have taken : q.takeBack = .ok (p.recount (Basis.fullmoveBefore q.fullmove p.side) (q.ply - 1)) :=
    firm.takeBack_of_apply member applied q.fullmove q.ply
  rw [taken, firm.fullmove_of_apply member applied, firm.ply_of_apply member applied]
  rfl

/-! ## The legality gate -/

theorem Firm.make_eq (firm : p.Firm) (member : m ∈ p.pseudoMoves) (applied : p.apply m = .ok q) :
    p.make m = if q.inCheck p.side then .ok (false, p.rejected) else .ok (true, q) := by
  unfold Position.make
  rw [applied, ok_bind, firm.takeBack_apply member applied]
  rfl

/-- The legality gate leads to where the move leads, or back. -/
theorem Firm.make_cases (firm : p.Firm) (member : m ∈ p.pseudoMoves)
    (made : p.make m = .ok (accepted, q)) :
    accepted = true ∧ p.apply m = .ok q ∨
      accepted = false ∧ q = p.rejected := by
  obtain ⟨applied, first, made⟩ := bind_eq_ok made
  split at made
  · rw [firm.takeBack_apply member first] at made
    cases made
    exact .inr ⟨rfl, rfl⟩
  · cases made
    exact .inl ⟨rfl, first⟩

/-- An accepted move is carried out. -/
theorem Firm.applied_of_make (firm : p.Firm) (member : m ∈ p.pseudoMoves)
    (made : p.make m = .ok (true, q)) : p.apply m = .ok q := by
  rcases firm.make_cases member made with ⟨-, applied⟩ | ⟨⟨⟩, -⟩
  exact applied

theorem Firm.make (firm : p.Firm) (member : m ∈ p.pseudoMoves)
    (room : p.history.size < historyCapacity) : ∃ accepted q, p.make m = .ok (accepted, q) := by
  obtain ⟨q, applied⟩ := firm.apply member room
  rw [firm.make_eq member applied]
  split
  · exact ⟨_, _, rfl⟩
  · exact ⟨_, _, rfl⟩

/-- An accepted move is taken back with its ply. -/
theorem Firm.takeBack_of_make (firm : p.Firm) (member : m ∈ p.pseudoMoves)
    (made : p.make m = .ok (true, q)) (fullmove : Counter) :
    (q.recount fullmove q.ply).takeBack =
      .ok (p.recount (Basis.fullmoveBefore fullmove p.side) p.ply) := by
  have applied := firm.applied_of_make member made
  rw [firm.takeBack_of_apply member applied, firm.ply_of_apply member applied,
    Nat.add_sub_cancel]

/-- The legality gate accepts no move that leaves the mover's king attacked. -/
theorem inCheck_of_make (made : p.make m = .ok (true, q)) : q.inCheck p.side = false := by
  obtain ⟨r, -, made⟩ := bind_eq_ok made
  split at made
  · obtain ⟨back, -, made⟩ := bind_eq_ok made
    cases made
  · next unattacked =>
    cases made
    simpa using unattacked

/-! ## The counters have no say -/

theorem Firm.apply_recount (firm : p.Firm) (member : m ∈ p.pseudoMoves)
    (applied : p.apply m = .ok q) (fullmove : Counter) (ply : Nat) :
    (p.recount fullmove ply).apply m =
      .ok (q.recount (Basis.fullmoveAfter fullmove p.side) (ply + 1)) := by
  obtain ⟨mover, shape, shows⟩ := firm.shows_of_apply member applied
  have room := room_of_apply applied
  have firm' := firm.recount fullmove ply
  obtain ⟨q', applied'⟩ := firm'.apply member room
  obtain ⟨mover', shape', shows'⟩ := firm'.shows_of_apply member applied'
  have same : mover' = mover := Option.some.inj
    ((shape'.carries firm'.sound).origin.symm.trans (shape.carries firm.sound).origin)
  subst same
  rw [applied', shows'.unique (shows.recount _ _)]
  rfl

theorem Firm.make_recount (firm : p.Firm) (member : m ∈ p.pseudoMoves)
    (made : p.make m = .ok (true, q)) (fullmove : Counter) (ply : Nat) :
    (p.recount fullmove ply).make m =
      .ok (true, q.recount (Basis.fullmoveAfter fullmove p.side) (ply + 1)) := by
  have applied := firm.applied_of_make member made
  have unattacked : ¬ q.inCheck p.side = true := by simp [inCheck_of_make made]
  unfold Position.make
  rw [firm.apply_recount member applied, ok_bind]
  exact if_neg unattacked

/-- The same moves can be played whatever the counters say. -/
theorem Firm.played_recount {moves : List Move} (firm : p.Firm) (played : Played p moves q)
    (fullmove : Counter) (ply : Nat) :
    ∃ fullmove' ply', Played (p.recount fullmove ply) moves (q.recount fullmove' ply') := by
  induction played generalizing fullmove ply with
  | nil => exact ⟨fullmove, ply, .nil⟩
  | cons member made _ ih =>
    have applied := firm.applied_of_make member made
    obtain ⟨fullmove', ply', played⟩ := ih (firm.of_apply member applied)
      (Basis.fullmoveAfter fullmove _) (ply + 1)
    exact ⟨fullmove', ply', .cons member (firm.make_recount member made fullmove ply) played⟩

theorem Firm.of_mem_successors (firm : p.Firm) (member : q ∈ p.successors) :
    q.Firm ∧ q.ply = p.ply + 1 := by
  obtain ⟨m, listed, made⟩ := mem_successors.1 member
  have applied := firm.applied_of_make listed made
  exact ⟨firm.of_apply listed applied, firm.ply_of_apply listed applied⟩

theorem Firm.after?_recount (firm : p.Firm) {m : Move} (member : m ∈ p.pseudoMoves)
    (fullmove : Counter) (ply : Nat) :
    (p.recount fullmove ply).after? m =
      (p.after? m).map (·.recount (Basis.fullmoveAfter fullmove p.side) (ply + 1)) := by
  cases after : p.after? m with
  | some q =>
    exact after?_eq_some.2 (firm.make_recount member (after?_eq_some.1 after) fullmove ply)
  | none =>
    refine Option.eq_none_iff_forall_ne_some.2 fun q recounted => ?_
    have made := (firm.recount fullmove ply).make_recount member (after?_eq_some.1 recounted)
      p.fullmove p.ply
    cases after.symm.trans (after?_eq_some.2 made)

/-- The counters have no say in which moves are accepted. -/
theorem Firm.successors_recount (firm : p.Firm) (fullmove : Counter) (ply : Nat) :
    (p.recount fullmove ply).successors =
      p.successors.map (·.recount (Basis.fullmoveAfter fullmove p.side) (ply + 1)) := by
  unfold successors
  rw [List.map_filterMap]
  exact List.filterMap_congr fun m member => firm.after?_recount member fullmove ply

/-! ## Grounded positions -/

/-- Built by generated moves from a firm position without history, up to the counters. -/
inductive Grounded : Position → Prop
  | start {p : Position} : p.Firm → p.history = .empty → Grounded p
  | made {p q : Position} {m : Move} (fullmove : Counter) (ply : Nat) :
    Grounded p → m ∈ p.pseudoMoves → p.apply m = .ok q → Grounded (q.recount fullmove ply)

theorem Grounded.firm (grounded : p.Grounded) : p.Firm := by
  induction grounded with
  | start firm _ => exact firm
  | made fullmove ply _ member applied firm =>
    exact (firm.of_apply member applied).recount fullmove ply

theorem Grounded.recount (grounded : p.Grounded) (fullmove : Counter) (ply : Nat) :
    (p.recount fullmove ply).Grounded := by
  cases grounded with
  | start firm unplayed => exact .start (firm.recount fullmove ply) unplayed
  | made _ _ before member applied =>
    rw [recount_recount]
    exact .made fullmove ply before member applied

theorem Grounded.of_apply (grounded : p.Grounded) (member : m ∈ p.pseudoMoves)
    (applied : p.apply m = .ok q) : q.Grounded :=
  .made q.fullmove q.ply grounded member applied

theorem Grounded.of_make (grounded : p.Grounded) (member : m ∈ p.pseudoMoves)
    (made : p.make m = .ok (accepted, q)) : q.Grounded := by
  rcases grounded.firm.make_cases member made with ⟨-, applied⟩ | ⟨-, rfl⟩
  · exact grounded.of_apply member applied
  · exact grounded.recount _ p.ply

/-- What was played can be taken back. -/
theorem Grounded.takeBack (grounded : p.Grounded) (played : p.history ≠ .empty) :
    ∃ q, p.takeBack = .ok q ∧ q.Grounded := by
  cases grounded with
  | start _ unplayed => exact absurd unplayed played
  | made fullmove ply before member applied =>
    exact ⟨_, before.firm.takeBack_of_apply member applied fullmove ply, before.recount _ _⟩

theorem played_of_takeBack (taken : p.takeBack = .ok q) : p.history ≠ .empty := by
  intro unplayed
  unfold Position.takeBack at taken
  rw [unplayed] at taken
  cases taken

theorem Grounded.of_turn (grounded : p.Grounded) (turn : Turn p q) : q.Grounded := by
  cases turn with
  | make member made => exact grounded.of_make member made
  | takeBack taken =>
    obtain ⟨back, taken', grounded'⟩ := grounded.takeBack (played_of_takeBack taken)
    rw [taken] at taken'
    cases taken'
    exact grounded'

theorem Grounded.of_reaches (grounded : p.Grounded) (reaches : Reaches p q) : q.Grounded := by
  induction reaches with
  | refl => exact grounded
  | turn _ turn ih => exact ih.of_turn turn

theorem grounded_of_toPosition {setup : Setup} (accepted : setup.toPosition = .ok p) :
    p.Grounded ∧ p.history = .empty := by
  obtain ⟨firm, unplayed⟩ := Setup.firm_of_toPosition accepted
  exact ⟨.start firm unplayed, unplayed⟩

theorem grounded_of_fen {fen : String} (read : ofFen fen = .ok p) :
    p.Grounded ∧ p.history = .empty := by
  obtain ⟨setup, -, accepted⟩ := bind_eq_ok read
  exact grounded_of_toPosition accepted

theorem Reachable.grounded (reachable : p.Reachable) : p.Grounded := by
  obtain ⟨setup, start, accepted, reaches⟩ := reachable
  exact (grounded_of_toPosition accepted).1.of_reaches reaches

/-! ## Lines of accepted moves -/

/-- Accepted moves lead from `start` to the position, up to the counters: what was rejected or taken
back has left no trace. -/
inductive Follows (start : Position) : Position → Prop
  | start (fullmove : Counter) (ply : Nat) : Follows start (start.recount fullmove ply)
  | made {p q : Position} {m : Move} (fullmove : Counter) (ply : Nat) :
    Follows start p → m ∈ p.pseudoMoves → p.make m = .ok (true, q) →
    Follows start (q.recount fullmove ply)

section

variable {start : Position}

theorem Follows.recount (follows : Follows start p) (fullmove : Counter) (ply : Nat) :
    Follows start (p.recount fullmove ply) := by
  cases follows with
  | start =>
    rw [recount_recount]
    exact .start fullmove ply
  | made _ _ before member made =>
    rw [recount_recount]
    exact .made fullmove ply before member made

theorem Follows.grounded (grounded : start.Grounded) (follows : Follows start p) :
    p.Grounded := by
  induction follows with
  | start fullmove ply => exact grounded.recount fullmove ply
  | made fullmove ply _ member made ih => exact (ih.of_make member made).recount fullmove ply

theorem Follows.of_takeBack (grounded : start.Grounded) (unplayed : start.history = .empty)
    (follows : Follows start p) (taken : p.takeBack = .ok q) : Follows start q := by
  cases follows with
  | start fullmove ply =>
    have played := played_of_takeBack taken
    exact absurd unplayed played
  | @made before _ _ fullmove ply line member made =>
    have firm := (line.grounded grounded).firm
    have applied := firm.applied_of_make member made
    rw [firm.takeBack_of_apply member applied fullmove ply] at taken
    cases taken
    exact line.recount _ _

theorem Follows.of_turn (grounded : start.Grounded) (unplayed : start.history = .empty)
    (follows : Follows start p) (turn : Turn p q) : Follows start q := by
  cases turn with
  | @make m accepted member made =>
    cases accepted with
    | true => exact .made q.fullmove q.ply follows member made
    | false =>
      rcases (follows.grounded grounded).firm.make_cases member made with ⟨⟨⟩, -⟩ | ⟨-, rfl⟩
      exact follows.recount _ _
  | takeBack taken => exact follows.of_takeBack grounded unplayed taken

/-- However a caller plays and takes back, what stands is a line of accepted moves. -/
theorem Reaches.follows (grounded : start.Grounded) (unplayed : start.history = .empty)
    (reaches : Reaches start p) : Follows start p := by
  induction reaches with
  | refl => exact .start start.fullmove start.ply
  | turn _ turn ih => exact ih.of_turn grounded unplayed turn

end

end Position

end ChessEngine
