import ChessEngine.Proofs.Perft
import ChessEngine.Proofs.Search.Iteration

/-!
# Calls that leave a position untouched

A search, a principal variation read off the table, legal moves, a move text and
leaf counts are all computed on the caller's own position.  `untouched_of_reachable`
says that each of them succeeds and hands the position back equal in every field,
whatever the engine has learned before and whether or not a text names a move.

A search in a window of the caller's choice asks for the opposites of both bounds.
The lowest word has none, so with this lower bound the first move that is accepted
ends the search with a fault, and nobody takes the move back
(`alphaBeta_of_lowestBound`).
-/

namespace ChessEngine

/-! ## The lowest bound -/

namespace Engine

open Position

section

variable [ZobristKeys] {p : Position} {depth ply n count : Nat} {beta : Int} {e : Engine}
  {moves : List RankedMove} {progress : Progress}

/-- Moves that are rejected leave the bound as it is, and the first one that is accepted asks for
its opposite. -/
theorem tryMoves_of_lowestBound
    (child : Engine → Position → Int → Int → Except Fault (Answer Int))
    (searchable : p.Searchable (depth + 1)) (generated : ∀ m ∈ moves, m.move ∈ p.pseudoMoves)
    (size : moves.length = count) (leads : ∃ q, Leads p moves q)
    (lowest : progress.alpha = -2147483648) (window : progress.alpha < beta)
    (high : beta ≤ 2147483647) :
    tryMoves child ply n beta count moves progress e p = .error .negationOverflow := by
  obtain ⟨q, leads⟩ := leads
  induction count generalizing moves e with
  | zero =>
    rw [List.length_eq_zero_iff] at size
    subst size
    exact absurd leads not_leads_nil
  | succ count ih =>
    obtain ⟨m, rank, rest, picked, length, perm⟩ := exists_pick e size
    obtain ⟨member, others⟩ := forall_of_pick picked generated
    rcases searchable.make_cases member with rejected | ⟨r, made, -, -⟩
    · rw [tryMoves_reject picked rejected]
      have listed : Leads p (⟨m, rank⟩ :: rest) q := by
        obtain ⟨m', member', made'⟩ := leads
        exact ⟨m', perm.mem_iff.2 member', made'⟩
      rcases leads_cons.1 listed with made | later
      · cases rejected.symm.trans made
      · exact ih others length later
    · have opposite : negateBound beta = .ok (-beta) := negateBound_eq_neg (by omega) high
      rw [tryMoves, picked]
      simp only [made, opposite, lowest, negateBound_lowest, ok_bind, if_true]
      rfl

/-- A node with a legal move to search cannot be asked with the lowest word. -/
theorem alphaBeta_of_lowestBound (searchable : p.Searchable (depth + 1))
    (undecided : p.isDrawn = false) (inside : p.ply < maxPly) (moves : p.successors ≠ [])
    (e : Engine) (window : -2147483648 < beta) (high : beta ≤ 2147483647) :
    alphaBeta (depth + 1) e p (-2147483648) beta = .error .negationOverflow := by
  have leads : ∃ q, Leads p (e.candidates p).1 q := by
    obtain ⟨q, member⟩ := List.exists_mem_of_ne_nil _ moves
    exact ⟨q, leads_candidates.2 member⟩
  have stopped : tryMoves (alphaBeta depth) p.ply (depth + 1) beta (e.candidates p).1.length
      (e.candidates p).1 ⟨-2147483648, none, false⟩ (e.candidates p).2 p =
        .error .negationOverflow :=
    tryMoves_of_lowestBound (alphaBeta depth) searchable (generated_of_candidates e p) rfl leads
      rfl window high
  rw [alphaBeta, verdict_of_undecided e undecided inside]
  rcases picked : e.candidates p with ⟨candidates, e₁⟩
  rw [picked] at stopped
  simp only [stopped]
  rfl

end

end Engine

/-! ## What calls leave -/

namespace Position

section

variable [ZobristKeys] {p : Position} {depth : Nat}

theorem Searchable.eq_of_restores {α : Type} {a : α} {x : Except Fault (α × Position)}
    (searchable : p.Searchable depth) (restores : Restores depth x a p) : x = .ok (a, p) :=
  restores.eq searchable.count

theorem Searchable.search (searchable : p.Searchable maxPly)
    (count : p.fullmove.toNat + maxPly < 65535) (e : Engine) :
    ∃ r e', e.search p = .ok (r, e', p) := by
  obtain ⟨r, e', searched, -⟩ := Engine.search_spec e searchable count
  exact ⟨r, e', searched⟩

theorem Searchable.alphaBeta (searchable : p.Searchable depth) (e : Engine) {alpha beta : Int}
    (window : Engine.Window alpha beta) :
    ∃ v e', Engine.alphaBeta depth e p alpha beta = .ok (v, e', p) := by
  obtain ⟨v, e', searched, -⟩ :=
    Engine.sees_alphaBeta e.scorer depth e p alpha beta rfl searchable window
  exact ⟨v, e', searched⟩

theorem Searchable.followTable (searchable : p.Searchable maxPly)
    (count : p.fullmove.toNat + maxPly < 65535) (e : Engine) (depth : Nat) :
    ∃ e', e.followTable p depth = .ok (e', p) := by
  obtain ⟨line, table, q, fullmove, followed, -, -, exact, -⟩ := Engine.followTable_spec e depth
    (searchable.roomy.mono (Nat.min_le_right depth maxPly))
  cases exact (by omega)
  exact ⟨_, followed⟩

end

/-- Every call that tries moves on a position of a game hands it back equal in every field, whatever
the number of plies is set to.  A search in a window of its own needs one whose lower bound is not
the lowest word.  The legal moves and the leaf counts are those of the positions after accepted
moves. -/
theorem untouched_of_reachable [ZobristKeys] {p : Position} (reachable : p.Reachable) (ply : Nat)
    (room : p.history.size + 64 ≤ historyCapacity) (count : p.fullmove.toNat + 64 < 65535) :
    (∀ e : Engine, ∃ r e', e.search (p.setPly ply) = .ok (r, e', p.setPly ply)) ∧
      (∀ (e : Engine) (depth : Nat) (alpha beta : Int), depth ≤ 64 → -2147483648 < alpha →
        alpha < beta → beta ≤ 2147483647 →
        ∃ v e', Engine.alphaBeta depth e (p.setPly ply) alpha beta =
          .ok (v, e', p.setPly ply)) ∧
      (∀ (e : Engine) (depth : Nat),
        ∃ e', e.followTable (p.setPly ply) depth = .ok (e', p.setPly ply)) ∧
      (p.setPly ply).legalMoves =
        .ok ((p.setPly ply).legalAmong (p.setPly ply).pseudoMoves, p.setPly ply) ∧
      (∀ text, ∃ answer, (p.setPly ply).resolve text = .ok (answer, p.setPly ply)) ∧
      (∀ depth ≤ 64, (p.setPly ply).perft depth = .ok ((p.setPly ply).leaves depth, p.setPly ply)) ∧
      ∀ depth ≤ 64, (p.setPly ply).divide depth =
        .ok ((p.setPly ply).gains (branch (depth - 1)) (p.setPly ply).pseudoMoves,
          p.setPly ply) := by
  have searchable : (p.setPly ply).Searchable maxPly :=
    Searchable.setPly ⟨reachable.grounded, room, Nat.le_of_lt count⟩ ply
  have once : (p.setPly ply).Searchable 1 := searchable.mono (by decide)
  refine ⟨searchable.search count, fun e depth alpha beta deep low window high => ?_,
    searchable.followTable count, once.eq_of_restores once.roomy.legalMoves, fun text => ?_,
    fun depth deep => ?_, fun depth deep => ?_⟩
  · exact (searchable.mono deep).alphaBeta e ⟨low, window, high⟩
  · obtain ⟨answer, restores⟩ := once.roomy.resolve text
    exact ⟨answer, once.eq_of_restores restores⟩
  · have here := searchable.mono deep
    exact here.eq_of_restores here.roomy.perft
  · have deeper : (p.setPly ply).Searchable (63 + 1) := searchable
    exact deeper.eq_of_restores (deeper.roomy.divide (by omega))

theorem untouched_of_rehearsal :
    (∃ r e', (Engine.new ⟨5, 24, true⟩ materialScore).search (Rehearsal.last.setPly 60) =
      .ok (r, e', Rehearsal.last.setPly 60)) ∧
    (∃ v e', Engine.alphaBeta 64 (Engine.new ⟨5, 24, true⟩ materialScore)
      (Rehearsal.last.setPly 60) (-2147483647) 2147483647 =
      .ok (v, e', Rehearsal.last.setPly 60)) ∧
    (∃ answer, (Rehearsal.last.setPly 60).resolve "e8e1" =
      .ok (answer, Rehearsal.last.setPly 60)) ∧
    (Rehearsal.last.setPly 60).perft 64 =
      .ok ((Rehearsal.last.setPly 60).leaves 64, Rehearsal.last.setPly 60) := by
  obtain ⟨search, alphaBeta, -, -, resolve, perft, -⟩ :=
    untouched_of_reachable Rehearsal.reachable_last 60 (by decide +kernel) (by decide +kernel)
  exact ⟨search _, alphaBeta _ 64 (-2147483647) 2147483647 (by decide) (by decide) (by decide)
    (by decide), resolve "e8e1", perft 64 (by decide)⟩

/-- There are moves to try, and with the lowest word as lower bound the first that is accepted ends
the search. -/
theorem touched_of_lowestBound : Rehearsal.beforeMate.Reachable ∧
    Rehearsal.beforeMate.history.size + 64 ≤ historyCapacity ∧
    Rehearsal.beforeMate.fullmove.toNat + 256 < 65535 ∧ Rehearsal.beforeMate.ply < 65000 ∧
    Engine.alphaBeta 1 (.new .standard materialScore) Rehearsal.beforeMate (-2147483648) 30000 =
      .error .negationOverflow ∧
    ¬ ∃ v e', Engine.alphaBeta 1 (.new .standard materialScore) Rehearsal.beforeMate
      (-2147483648) 30000 = .ok (v, e', Rehearsal.beforeMate) := by
  have searchable : Rehearsal.beforeMate.Searchable (0 + 1) :=
    Rehearsal.searchable_beforeMate.mono (by decide)
  have stopped := Engine.alphaBeta_of_lowestBound searchable (by decide +kernel)
    (by decide +kernel) (by decide +kernel) (.new .standard materialScore)
    (by decide : -2147483648 < (30000 : Int)) (by decide)
  refine ⟨Rehearsal.reachable_beforeMate, by decide +kernel, by decide +kernel,
    by decide +kernel, stopped, ?_⟩
  rintro ⟨v, e', answered⟩
  cases stopped.symm.trans answered

end Position

end ChessEngine
