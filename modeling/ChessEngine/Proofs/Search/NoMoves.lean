import ChessEngine.Proofs.Position.Collision
import ChessEngine.Proofs.Search.BestMove

/-!
# Positions without a legal move

The legality gate has to reject every generated move before a node knows that it
has none (`Stuck.tryMoves`).  Only then does it ask whether the king is attacked,
and by then the rules for draws have had their say: a counter of a hundred
half-moves makes a draw of a checkmate, also of one that the hundredth half-move
delivers.  The other rule for draws never speaks of a checkmate or a stalemate,
unless hashes collide (`Reachable.collides`).
-/

namespace ChessEngine

namespace Position

section

variable [ZobristKeys] {p q : Position} {m : Move}

/-- Every move is rejected if and only if no position can follow. -/
theorem Roomy.stuck_iff (roomy : p.Roomy 1) : p.Stuck ↔ p.successors = [] := by
  constructor
  · intro stuck
    refine List.eq_nil_iff_forall_not_mem.2 fun q next => ?_
    obtain ⟨m, member, made⟩ := mem_successors.1 next
    obtain ⟨r, rejected⟩ := stuck m member
    cases made.symm.trans rejected
  · intro none m member
    rcases roomy.make_cases member with ⟨-, fullmove, rejected, -⟩ | ⟨q, -, made, -⟩
    · exact ⟨_, rejected⟩
    · have next : q ∈ p.successors := mem_successors.2 ⟨m, member, made⟩
      rw [none] at next
      cases next

/-- What is rejected is rejected whatever the counters say. -/
theorem Firm.stuck_recount (firm : p.Firm) (stuck : p.Stuck) (fullmove : Counter) (ply : Nat) :
    (p.recount fullmove ply).Stuck := by
  intro m member
  obtain ⟨r, rejected⟩ := stuck m member
  obtain ⟨q, applied, -⟩ := bind_eq_ok rejected
  have room : p.history.size < historyCapacity := room_of_apply applied
  obtain ⟨accepted, s, made⟩ := (firm.recount fullmove ply).make member room
  cases accepted with
  | false => exact ⟨s, made⟩
  | true =>
    have back := (firm.recount fullmove ply).make_recount member made p.fullmove p.ply
    cases rejected.symm.trans back

end

end Position

namespace Engine

open Position

section

variable [ZobristKeys] {p : Position}

/-- The loop rejects its moves one by one and is left with what it started with. -/
theorem tryMoves_of_stuck (child : Engine → Position → Int → Int → Except Fault (Answer Int))
    (ply n count : Nat) (beta : Int) (moves : List RankedMove) (progress : Progress)
    (e : Engine) (p : Position) (firm : p.Firm) (stuck : p.Stuck)
    (generated : ∀ m ∈ moves, m.move ∈ p.pseudoMoves) :
    Settles (tryMoves child ply n beta count moves progress e p) p fun ending _ =>
      ending = .exhausted progress := by
  induction count generalizing moves e p with
  | zero => exact ⟨.exhausted progress, e, p.fullmove, rfl, rfl⟩
  | succ count ih =>
    cases picked : (if e.config.ordering then selectBest moves else moves) with
    | nil =>
      rw [tryMoves, picked]
      exact ⟨.exhausted progress, e, p.fullmove, rfl, rfl⟩
    | cons first rest =>
      obtain ⟨member, others⟩ := forall_of_pick picked generated
      obtain ⟨m, rank⟩ := first
      obtain ⟨q, rejected⟩ := stuck m member
      rcases firm.make_cases member rejected with ⟨⟨⟩, -⟩ | ⟨-, rfl⟩
      rw [tryMoves_reject picked rejected]
      have run := ih rest e.countNode.countInvalid p.rejected (firm.recount _ p.ply)
        (firm.stuck_recount stuck _ p.ply) others
      exact run.of_recount

/-- A node that tries its moves and has none accepted answers by the attack on its king. -/
theorem alphaBeta_of_verdict {e : Engine} (firm : p.Firm) (stuck : p.Stuck)
    (verdict : e.verdict? p = none) (depth : Nat) (alpha beta : Int) :
    Settles (alphaBeta (depth + 1) e p alpha beta) p fun v _ => v = noMoveScore p p.ply := by
  obtain ⟨_, e', fullmove, run, rfl⟩ := tryMoves_of_stuck (alphaBeta depth) p.ply (depth + 1) _
    beta _ ⟨alpha, none, false⟩ (e.candidates p).2 p firm stuck (generated_of_candidates e p)
  exact ⟨_, e', fullmove, alphaBeta_of_tryMoves fullmove verdict run, rfl⟩

end

/-- What a position without a legal move is worth: the rules for draws are asked first, then whether
the king is attacked.  Where repetition has a say, another position has the same hash. -/
theorem alphaBeta_of_stuck [ZobristKeys] {p : Position} (reachable : p.Reachable)
    (stuck : ∀ m ∈ p.pseudoMoves, ∃ q, p.make m = .ok (false, q)) {ply : Nat} (inside : ply < 64)
    (e : Engine) (depth : Nat) (alpha beta : Int) :
    (∃ e' fullmove, Engine.alphaBeta (depth + 1) e (p.setPly ply) alpha beta =
      .ok (if 100 ≤ p.fifty ∨ p.isRepetition = true then 0
        else if p.inCheck p.side = true then -mateScore + ply else 0,
        e', p.recount fullmove ply)) ∧
      (p.isRepetition = true → ∃ q : Position, q.Reachable ∧ q.hash = p.hash ∧
        ¬ q.SameDiagram p) := by
  refine ⟨?_, reachable.collides stuck⟩
  have firm := reachable.grounded.firm
  have rooted : (p.setPly ply).Firm := firm.recount p.fullmove ply
  have still : (p.setPly ply).Stuck := firm.stuck_recount stuck p.fullmove ply
  have drawn : (p.setPly ply).isDrawn = true ↔ 100 ≤ p.fifty ∨ p.isRepetition = true := by
    rw [isDrawn, Bool.or_eq_true, decide_eq_true_iff, or_comm]
    rfl
  rcases verdict_cases e (p.setPly ply) with
    ⟨byRule, info, verdict⟩ | ⟨-, last, -⟩ | ⟨undecided, -, verdict⟩
  · rw [alphaBeta, verdict, if_pos (drawn.1 byRule)]
    exact ⟨{ e with info }, p.fullmove, rfl⟩
  · exact absurd inside (Nat.not_lt.2 last)
  · obtain ⟨_, e', fullmove, searched, rfl⟩ :=
      alphaBeta_of_verdict rooted still verdict depth alpha beta
    rw [if_neg fun byRule => Bool.false_ne_true (undecided.symm.trans (drawn.2 byRule))]
    exact ⟨e', fullmove, searched⟩

end Engine

namespace BackRank

/-- White, to move, mates with the rook on the back rank. -/
def setup (fifty : Counter) : Setup where
  pieces := [(6, ⟨.white, .king⟩), (0, ⟨.white, .rook⟩), (62, ⟨.black, .king⟩),
    (53, ⟨.black, .pawn⟩), (54, ⟨.black, .pawn⟩), (55, ⟨.black, .pawn⟩)]
  side := .white
  rights := .none
  enPassant := none
  fifty
  fullmove := 90

/-- The position after the mate, which the given number of half-moves precede. -/
def mated? (fifty : Counter) : Option Position :=
  match (setup fifty).toPosition with
  | .ok start => start.follow? [.plain 0 56]
  | .error _ => none

theorem reachable {fifty : Counter} {p : Position} (mated : mated? fifty = some p) :
    p.Reachable := by
  unfold mated? at mated
  split at mated
  · next start accepted =>
    exact ⟨setup fifty, start, accepted, (Position.played_of_follow? mated).reaches⟩
  · cases mated

theorem stuck {fifty : Counter} {p : Position} (mated : mated? fifty = some p)
    (none : p.successors = []) (room : p.history.size + 1 ≤ historyCapacity) : p.Stuck :=
  Position.Roomy.stuck_iff ⟨(reachable mated).grounded.firm, room⟩ |>.2 none

/-- The ninety-ninth half-move mates. -/
def early : Position := (mated? 98).get (by decide +kernel)

/-- The hundredth half-move mates. -/
def late : Position := (mated? 99).get (by decide +kernel)

end BackRank

namespace Engine

theorem alphaBeta_early : ∃ e' fullmove,
    Engine.alphaBeta 1 (.new .standard Position.materialScore) BackRank.early (-30000) 30000 =
      .ok (-28999, e', BackRank.early.recount fullmove BackRank.early.ply) := by
  have mated : BackRank.mated? 98 = some BackRank.early := (Option.some_get _).symm
  obtain ⟨⟨e', fullmove, searched⟩, -⟩ := alphaBeta_of_stuck (BackRank.reachable mated)
    (BackRank.stuck mated (by decide +kernel) (by decide +kernel))
    (by decide +kernel : BackRank.early.ply < 64) (.new .standard Position.materialScore) 0
    (-30000) 30000
  have undecided : ¬ (100 ≤ BackRank.early.fifty ∨ BackRank.early.isRepetition = true) := by
    decide +kernel
  have attacked : BackRank.early.inCheck BackRank.early.side = true := by decide +kernel
  have value : -mateScore + (BackRank.early.ply : Int) = -28999 := by decide +kernel
  rw [if_neg undecided, if_pos attacked, value] at searched
  exact ⟨e', fullmove, searched⟩

/-- Whoever is mated by the hundredth half-move has drawn. -/
theorem alphaBeta_late : BackRank.late.Reachable ∧ BackRank.late.Stuck ∧ BackRank.late.ply = 1 ∧
    BackRank.late.inCheck BackRank.late.side = true ∧ ∃ e',
      Engine.alphaBeta 1 (.new .standard Position.materialScore) BackRank.late (-30000) 30000 =
        .ok (0, e', BackRank.late) ∧ (0 : Int) ≠ -mateScore + BackRank.late.ply := by
  have mated : BackRank.mated? 99 = some BackRank.late := (Option.some_get _).symm
  have stuck := BackRank.stuck mated (by decide +kernel) (by decide +kernel)
  refine ⟨BackRank.reachable mated, stuck, by decide +kernel, by decide +kernel, ?_⟩
  rcases verdict_cases (.new .standard Position.materialScore) BackRank.late with
    ⟨-, info, verdict⟩ | ⟨undecided, -⟩ | ⟨undecided, -⟩
  · refine ⟨{ Engine.new .standard Position.materialScore with info }, ?_, by decide +kernel⟩
    rw [alphaBeta, verdict]
    rfl
  · exact absurd undecided (by decide +kernel)
  · exact absurd undecided (by decide +kernel)

end Engine

end ChessEngine
