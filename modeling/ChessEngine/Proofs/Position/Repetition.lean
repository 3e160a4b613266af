import ChessEngine.Proofs.Position.Succession

/-!
# Repetitions

A position looks itself up among the hashes in its history, as far back as its
fifty-move counter says.  Two counters decide together what is found: the length of
the history and a counter that a setup may start anywhere.
`isRepetition_iff_of_played` says what they amount to, in terms of the moves alone:
the hash stood on the board at least two half-moves ago, and since then nothing was
captured and no pawn was moved.

`Grounded.records_of_played` places the records of a line in the history, and
`Grounded.shuffled_iff` compares the counter with the moves of the line.
-/

namespace ChessEngine

/-- The latest record is left out, and the window counts it all the same. -/
theorem History.recalls_iff {h : History Undo} {hash : UInt64} {window : Nat} :
    h.recalls hash window = true ↔
      ∃ k u, k + 2 ≤ window ∧ h.entries[k + 1]? = some u ∧ u.hash = hash := by
  simp only [recalls, List.any_eq_true, beq_iff_eq, List.mem_iff_getElem?, List.getElem?_take,
    List.getElem?_tail]
  constructor
  · rintro ⟨u, ⟨k, found⟩, same⟩
    split at found
    · exact ⟨k, u, by omega, found, same⟩
    · cases found
  · rintro ⟨k, u, inside, found, same⟩
    exact ⟨u, ⟨k, by rw [if_pos (by omega), found]⟩, same⟩

namespace Position

/-- A capture or a pawn move.  Capturing en passant is a pawn move anyway. -/
def Commits (p : Position) (m : Move) : Prop :=
  (p.pieceOn m.target).isSome = true ∨ ∃ c, p.pieceOn m.origin = some ⟨c, .pawn⟩

/-- Two positions agree in everything that hashes are made of. -/
structure SameDiagram (p q : Position) : Prop where
  board : p.pieceOn = q.pieceOn
  side : p.side = q.side
  rights : p.rights = q.rights
  enPassant : p.enPassant = q.enPassant

namespace SameDiagram

variable {p q r : Position}

theorem refl (p : Position) : p.SameDiagram p := ⟨rfl, rfl, rfl, rfl⟩

theorem symm (same : p.SameDiagram q) : q.SameDiagram p :=
  ⟨same.board.symm, same.side.symm, same.rights.symm, same.enPassant.symm⟩

theorem trans (first : p.SameDiagram q) (second : q.SameDiagram r) : p.SameDiagram r :=
  ⟨first.board.trans second.board, first.side.trans second.side,
    first.rights.trans second.rights, first.enPassant.trans second.enPassant⟩

end SameDiagram

section

variable [ZobristKeys]

/-- The listed moves were generated and accepted one after the other, and none of them was a capture
or a pawn move. -/
inductive Shuffled : Position → List Move → Position → Prop
  | nil {p : Position} : Shuffled p [] p
  | cons {p q r : Position} {m : Move} {rest : List Move} :
    m ∈ p.pseudoMoves → p.make m = .ok (true, q) → ¬ p.Commits m → Shuffled q rest r →
    Shuffled p (m :: rest) r

variable {start p q r : Position} {m : Move} {moves earlier later rest : List Move}

/-! ## What hashes leave out -/

/-- Positions with the same diagram differ in their clocks alone. -/
theorem Firm.eq_of_sameDiagram (left : p.Firm) (right : q.Firm) (same : p.SameDiagram q) :
    p = { q with
      fifty := p.fifty, fullmove := p.fullmove, ply := p.ply, history := p.history } :=
  left.consistent.eq_of_basis (right.withClocks _ _ _ _).consistent
    (Basis.ext same.board same.side same.rights same.enPassant rfl rfl rfl rfl)

theorem Firm.hash_eq (left : p.Firm) (right : q.Firm) (same : p.SameDiagram q) :
    p.hash = q.hash := by
  have kept := congrArg Position.hash (left.eq_of_sameDiagram right same)
  exact kept

/-! ## What one move leaves behind -/

omit [ZobristKeys] in
theorem commits_iff {mover : Piece} (shape : p.basis.Shape mover m) (sound : p.basis.Sound) :
    p.Commits m ↔ m.isCapture = true ∨ mover.kind = .pawn := by
  have origin : p.pieceOn m.origin = some mover := (shape.carries sound).origin
  have pawn : (∃ c, p.pieceOn m.origin = some ⟨c, .pawn⟩) ↔ mover.kind = .pawn := by
    rw [origin]
    constructor
    · rintro ⟨c, same⟩
      cases same
      rfl
    · exact fun kind => ⟨mover.color, kind ▸ rfl⟩
  rw [Commits, pawn]
  cases shape with
  | ordinary ordinary =>
    have target : p.pieceOn m.target = m.captured := ordinary.target
    rw [target, ordinary.capture]
  | enPassant mover =>
    exact iff_of_true (.inr (mover ▸ rfl)) (.inr (mover ▸ rfl))
  | @castle w _ _ clear =>
    have target : p.pieceOn (CastlePath.of p.basis.side w).kingTarget = none :=
      clear _ (CastlePath.apart p.side w).target_between
    exact or_congr_left (by rw [target]; rfl)

theorem Firm.fifty_of_apply (firm : p.Firm) (member : m ∈ p.pseudoMoves)
    (applied : p.apply m = .ok q) :
    (p.Commits m → q.fifty = 0) ∧ (¬ p.Commits m → q.fifty = Counter.next p.fifty) := by
  obtain ⟨mover, shape, shows⟩ := firm.shows_of_apply member applied
  have counted : q.fifty = fiftyAfter p.fifty m mover := congrArg Basis.fifty shows.basis_eq
  rw [counted, commits_iff shape firm.sound, fiftyAfter]
  simp only [Bool.or_eq_true, decide_eq_true_eq]
  exact ⟨fun commits => if_pos commits, fun quiet => if_neg quiet⟩

theorem Firm.record_of_apply (firm : p.Firm) (member : m ∈ p.pseudoMoves)
    (applied : p.apply m = .ok q) :
    ∃ u, q.history.entries = u :: p.history.entries ∧ u.hash = p.hash := by
  obtain ⟨mover, -, shows⟩ := firm.shows_of_apply member applied
  exact ⟨_, congrArg History.entries shows.history, rfl⟩

theorem Grounded.apply_of_make (grounded : p.Grounded) (member : m ∈ p.pseudoMoves)
    (made : p.make m = .ok (true, q)) : p.apply m = .ok q ∧ q.Grounded := by
  have applied := grounded.firm.applied_of_make member made
  exact ⟨applied, grounded.of_apply member applied⟩

theorem Grounded.size_le (grounded : p.Grounded) : p.history.size ≤ historyCapacity := by
  cases grounded with
  | start _ unplayed =>
    rw [unplayed]
    exact Nat.zero_le _
  | @made q r m fullmove ply before member applied =>
    have room := room_of_apply applied
    have size := before.firm.size_of_apply member applied
    show r.history.size ≤ _
    omega

/-! ## A line and its records -/

theorem Played.of_append (played : Played p (earlier ++ later) r) :
    ∃ q, Played p earlier q ∧ Played q later r := by
  induction earlier generalizing p with
  | nil => exact ⟨p, .nil, played⟩
  | cons m rest ih =>
    cases played with
    | cons member made played =>
      obtain ⟨q, first, second⟩ := ih played
      exact ⟨q, .cons member made first, second⟩

theorem Shuffled.played (shuffled : Shuffled p moves q) : Played p moves q := by
  induction shuffled with
  | nil => exact .nil
  | cons member made _ _ ih => exact .cons member made ih

/-- A line adds one record for each move on top of those that were there. -/
theorem Grounded.records_of_played (grounded : p.Grounded) (played : Played p moves q) :
    ∃ records, q.history.entries = records ++ p.history.entries ∧
      records.length = moves.length := by
  induction played with
  | nil => exact ⟨[], rfl, rfl⟩
  | cons member made _ ih =>
    obtain ⟨applied, next⟩ := grounded.apply_of_make member made
    obtain ⟨u, first, -⟩ := grounded.firm.record_of_apply member applied
    obtain ⟨records, others, length⟩ := ih next
    refine ⟨records ++ [u], ?_, by rw [List.length_append, length]; rfl⟩
    rw [others, first, List.append_assoc]
    rfl

/-- Where the hash before a line is found in the history after it. -/
theorem Grounded.record_of_played (grounded : p.Grounded) (played : Played p (m :: rest) q) :
    ∃ u, q.history.entries[rest.length]? = some u ∧ u.hash = p.hash := by
  cases played with
  | cons member made played =>
    obtain ⟨applied, next⟩ := grounded.apply_of_make member made
    obtain ⟨u, first, hash⟩ := grounded.firm.record_of_apply member applied
    obtain ⟨records, others, length⟩ := next.records_of_played played
    refine ⟨u, ?_, hash⟩
    rw [others, first, ← length, List.getElem?_append_right (Nat.le_refl _), Nat.sub_self]
    rfl

theorem Grounded.size_of_played (grounded : p.Grounded) (played : Played p moves q) :
    q.history.size = moves.length + p.history.size := by
  obtain ⟨records, entries, length⟩ := grounded.records_of_played played
  rw [History.size, entries, List.length_append, length]
  rfl

/-! ## The window -/

theorem Grounded.fifty_of_shuffled (grounded : p.Grounded) (shuffled : Shuffled p moves q) :
    q.fifty.toNat = min (p.fifty.toNat + moves.length) 65535 := by
  induction shuffled with
  | @nil p =>
    have bound := p.fifty.toNat_lt
    show p.fifty.toNat = min (p.fifty.toNat + 0) 65535
    omega
  | cons member made quiet _ ih =>
    obtain ⟨applied, next⟩ := grounded.apply_of_make member made
    have step := (grounded.firm.fifty_of_apply member applied).2 quiet
    rw [ih next, step, Counter.toNat_next, List.length_cons]
    omega

/-- The counter reaches back to the start of a line exactly if nothing happened since. -/
theorem Grounded.shuffled_iff (grounded : p.Grounded) (played : Played p moves q) :
    Shuffled p moves q ↔ moves.length ≤ q.fifty.toNat := by
  constructor
  · intro shuffled
    have counted := grounded.fifty_of_shuffled shuffled
    have size := grounded.size_of_played played
    have bound := (grounded.of_reaches played.reaches).size_le
    have capacity : historyCapacity = 2048 := rfl
    omega
  · intro reaches
    induction played with
    | nil => exact .nil
    | cons member made played ih =>
      obtain ⟨applied, next⟩ := grounded.apply_of_make member made
      rw [List.length_cons] at reaches
      have later := ih next (by omega)
      refine .cons member made (fun commits => ?_) later
      have counted := next.fifty_of_shuffled later
      rw [(grounded.firm.fifty_of_apply member applied).1 commits] at counted
      change _ = min (0 + _) 65535 at counted
      omega

theorem Grounded.isRepetition_iff (grounded : start.Grounded) (unplayed : start.history = .empty)
    (played : Played start moves p) :
    p.isRepetition = true ↔ ∃ earlier later q, moves = earlier ++ later ∧ 2 ≤ later.length ∧
      Played start earlier q ∧ Shuffled q later p ∧ q.hash = p.hash := by
  rw [isRepetition, History.recalls_iff]
  constructor
  · rintro ⟨k, u, inside, found, same⟩
    have size := grounded.size_of_played played
    obtain ⟨recorded, -⟩ := List.getElem?_eq_some_iff.1 found
    rw [unplayed] at size
    change p.history.entries.length = moves.length + 0 at size
    -- The record `k + 1` places below the latest is that of the position `k + 2` moves ago.
    obtain ⟨earlier, later, rfl, length⟩ : ∃ earlier later, moves = earlier ++ later ∧
        later.length = k + 2 :=
      ⟨_, _, (List.take_append_drop (moves.length - (k + 2)) moves).symm, by
        rw [List.length_drop]; omega⟩
    obtain ⟨q, before, since⟩ := played.of_append
    have there := grounded.of_reaches before.reaches
    refine ⟨earlier, later, q, rfl, by omega, before, (there.shuffled_iff since).2 (by omega), ?_⟩
    cases later with
    | nil => cases length
    | cons m rest =>
      obtain ⟨u', found', hash⟩ := there.record_of_played since
      rw [Nat.succ.inj length, found] at found'
      cases found'
      exact hash.symm.trans same
  · rintro ⟨earlier, later, q, rfl, long, before, shuffled, same⟩
    have there := grounded.of_reaches before.reaches
    have inside := (there.shuffled_iff shuffled.played).1 shuffled
    match later, long with
    | m :: m' :: rest, _ =>
      obtain ⟨u, found, hash⟩ := there.record_of_played shuffled.played
      exact ⟨rest.length, u, inside, found, hash.trans same⟩

end

/-- In a game from an accepted setup, whatever its counter started with, a position is a repetition
if and only if its hash stood on the board at least two half-moves ago and no move since then was a
capture or a pawn move. -/
theorem isRepetition_iff_of_played [ZobristKeys] {setup : Setup} {start p : Position}
    {moves : List Move} (accepted : setup.toPosition = .ok start) (played : Played start moves p) :
    p.isRepetition = true ↔ ∃ earlier later q, moves = earlier ++ later ∧ 2 ≤ later.length ∧
      Played start earlier q ∧ Shuffled q later p ∧ q.hash = p.hash := by
  obtain ⟨firm, unplayed⟩ := Setup.firm_of_toPosition accepted
  exact (Grounded.start firm unplayed).isRepetition_iff unplayed played

end Position

/-! ## Knights that go out and come home -/

namespace KnightsHome

/-- A pawn on each wing of a board with two knights; the counter starts at 57. -/
def setup : Setup where
  pieces := [(4, ⟨.white, .king⟩), (6, ⟨.white, .knight⟩), (8, ⟨.white, .pawn⟩),
    (60, ⟨.black, .king⟩), (62, ⟨.black, .knight⟩)]
  side := .white
  rights := .none
  enPassant := none
  fifty := 57
  fullmove := 31

/-- 31. … Nf6 32. Nf3 Ng8 33. Ng1 -/
def moves : List Move := [.plain 62 45, .plain 6 21, .plain 45 62, .plain 21 6]

def start : Position := setup.toPosition.toOption.get (by decide +kernel)

/-- The position after 31. a3, in which the knights go out. -/
def home : Position := (start.follow? [.plain 8 16]).get (by decide +kernel)

/-- The position in which they have come home. -/
def last : Position := (home.follow? moves).get (by decide +kernel)

theorem accepted : setup.toPosition = .ok start := eq_ok_get _

theorem first : Position.Played start [.plain 8 16] home :=
  Position.played_of_follow? (Option.some_get _).symm

theorem others : Position.Played home moves last :=
  Position.played_of_follow? (Option.some_get _).symm

theorem played : Position.Played start (.plain 8 16 :: moves) last := by
  cases first with
  | cons member made nil =>
    cases nil
    exact .cons member made others

theorem grounded : home.Grounded :=
  Position.Reachable.grounded ⟨setup, start, accepted, first.reaches⟩

theorem sameDiagram : home.SameDiagram last where
  board := by
    funext s
    revert s
    decide +kernel
  side := by decide +kernel
  rights := by decide +kernel
  enPassant := by decide +kernel

end KnightsHome

namespace Position

/-- The position after the pawn move comes back. -/
theorem isRepetition_of_knightsHome : KnightsHome.last.isRepetition = true := by
  have grounded := KnightsHome.grounded
  have firm := (grounded.of_reaches KnightsHome.others.reaches).firm
  have shuffled := (grounded.shuffled_iff KnightsHome.others).2 (by decide +kernel)
  exact (isRepetition_iff_of_played KnightsHome.accepted KnightsHome.played).2
    ⟨[.plain 8 16], KnightsHome.moves, KnightsHome.home, rfl, by decide, KnightsHome.first,
      shuffled, grounded.firm.hash_eq firm KnightsHome.sameDiagram⟩

end Position

end ChessEngine
