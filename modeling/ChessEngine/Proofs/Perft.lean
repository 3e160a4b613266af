import ChessEngine.Perft
import ChessEngine.Proofs.Position.Trial

/-!
# Leaf counts

`Position.leaves` counts the leaves of a game tree by the positions after accepted
moves, without making or taking back anything.  `Roomy.perft` and `Roomy.divide` say
that counting on one position, move by move, comes to the same and restores the
position.
-/

namespace ChessEngine

/-- The sum of several counts. -/
def PerftCounts.sum (l : List PerftCounts) : PerftCounts := l.foldl add zero

theorem PerftCounts.add_right_comm (a b c : PerftCounts) :
    (a.add b).add c = (a.add c).add b := by
  simp only [add, Nat.add_right_comm]

/-- The order of the summands does not matter. -/
theorem PerftCounts.sum_eq_of_perm {l l' : List PerftCounts} (perm : l.Perm l') :
    sum l = sum l' :=
  perm.foldl_eq' (fun a _ b _ total => add_right_comm total a b) zero

namespace Position

variable [ZobristKeys] {p q : Position} {m : Move} {moves : List Move} {n depth : Nat}

/-- The counts of sequences that go on for `depth` moves after the move `m`, which led to `p`. -/
def leavesBelow : (depth : Nat) → Move → Position → PerftCounts
  | 0, m, p => .leaf m p
  | depth + 1, _, p => .sum (p.gains (leavesBelow depth) p.pseudoMoves)

/-- The counts of sequences of `depth` accepted moves. -/
def leaves (p : Position) : (depth : Nat) → PerftCounts
  | 0 => { PerftCounts.zero with nodes := 1 }
  | depth + 1 => .sum (p.gains (leavesBelow depth) p.pseudoMoves)

theorem Firm.leavesBelow_recount (depth : Nat) (m : Move) (p : Position) (fullmove : Counter)
    (ply : Nat) (firm : p.Firm) :
    leavesBelow depth m (p.recount fullmove ply) = leavesBelow depth m p := by
  induction depth generalizing m p fullmove ply with
  | zero => rfl
  | succ depth ih =>
    exact congrArg PerftCounts.sum
      (firm.gains_recount (fun _ => id) (fun m q fullmove ply => ih m q fullmove ply) fullmove ply)

theorem Firm.leaves_recount (firm : p.Firm) (depth : Nat) (fullmove : Counter) (ply : Nat) :
    (p.recount fullmove ply).leaves depth = p.leaves depth := by
  cases depth with
  | zero => rfl
  | succ depth => exact leavesBelow_recount (depth + 1) .null p fullmove ply firm

/-- A loop that adds up what its visits count. -/
theorem Roomy.sumAccepted {visit : Move → Position → Except Fault (PerftCounts × Position)}
    (roomy : p.Roomy (n + 1)) (generated : ∀ m ∈ moves, m ∈ p.pseudoMoves)
    (visits : ∀ m q, q.Roomy n → Restores n (visit m q) (leavesBelow depth m q) q)
    (total : PerftCounts) :
    Restores (n + 1) (sumAccepted visit p total moves)
      ((p.gains (leavesBelow depth) moves).foldl .add total) p := by
  induction moves generalizing p total with
  | nil => exact .pure
  | cons m rest ih =>
    obtain ⟨member, others⟩ := List.forall_mem_cons.1 generated
    have later : ∀ total fullmove, Restores (n + 1)
        (Position.sumAccepted visit (p.recount fullmove p.ply) total rest)
        ((p.gains (leavesBelow depth) rest).foldl .add total) (p.recount fullmove p.ply) := by
      intro total fullmove
      rw [← roomy.firm.gains_recount others (Firm.leavesBelow_recount depth) fullmove p.ply]
      exact ih (roomy.recount fullmove p.ply) others total
    rcases roomy.make_cases member with ⟨after, rejects⟩ | ⟨q, after, made, deeper⟩
    · rw [gains, List.filterMap_cons_none (by rw [after]; rfl)]
      exact rejects.bind fun fullmove => later total fullmove
    · have steps : Position.sumAccepted visit p total (m :: rest) =
          visit m q >>= fun r => r.2.takeBack >>= fun back =>
            Position.sumAccepted visit back (total.add r.1) rest := by
        rw [Position.sumAccepted, made]
        rfl
      rw [gains, List.filterMap_cons_some (by rw [after]; rfl), List.foldl_cons, steps]
      exact (visits m q deeper).of_takeBack
        (g := fun counts back => Position.sumAccepted visit back (total.add counts) rest)
        roomy.firm member made (fun _ => rfl) (later _)

theorem Roomy.perftFrom (depth : Nat) (p : Position) (roomy : p.Roomy (depth + 1)) :
    Restores (depth + 1) (perftFrom depth p) (p.leaves (depth + 1)) p := by
  induction depth generalizing p with
  | zero =>
    have visits : ∀ m q, q.Roomy 0 → Restores 0 (.ok (.leaf m q, q)) (leavesBelow 0 m q) q :=
      fun _ _ _ => .pure
    exact roomy.sumAccepted (fun _ => id) visits .zero
  | succ depth ih => exact roomy.sumAccepted (fun _ => id) (fun _ q deeper => ih q deeper) .zero

theorem Roomy.perft (roomy : p.Roomy depth) :
    Restores depth (p.perft depth) (p.leaves depth) p := by
  cases depth with
  | zero => exact .pure
  | succ depth => exact roomy.perftFrom depth p

/-- What a move of the root adds to the list of counts by root moves. -/
def branch (depth : Nat) (m : Move) (q : Position) : Move × Nat := (m, (q.leaves depth).nodes)

theorem Roomy.divideAccepted (roomy : p.Roomy (n + 1)) (less : depth - 1 ≤ n)
    (generated : ∀ m ∈ moves, m ∈ p.pseudoMoves) :
    Restores (n + 1) (divideAccepted depth p moves) (p.gains (branch (depth - 1)) moves) p := by
  induction moves generalizing p with
  | nil => exact .pure
  | cons m rest ih =>
    obtain ⟨member, others⟩ := List.forall_mem_cons.1 generated
    have later : ∀ fullmove, Restores (n + 1)
        (Position.divideAccepted depth (p.recount fullmove p.ply) rest)
        (p.gains (branch (depth - 1)) rest) (p.recount fullmove p.ply) := by
      intro fullmove
      have same : ∀ m (q : Position) fullmove ply, q.Firm →
          branch (depth - 1) m (q.recount fullmove ply) = branch (depth - 1) m q :=
        fun m q fullmove ply firm => by rw [branch, branch, firm.leaves_recount]
      rw [← roomy.firm.gains_recount others same fullmove p.ply]
      exact ih (roomy.recount fullmove p.ply) others
    rcases roomy.make_cases member with ⟨after, rejects⟩ | ⟨q, after, made, deeper⟩
    · rw [gains, List.filterMap_cons_none (by rw [after]; rfl)]
      exact rejects.bind later
    · have steps : Position.divideAccepted depth p (m :: rest) =
          q.perft (depth - 1) >>= fun r => r.2.takeBack >>= fun back =>
            Position.divideAccepted depth back rest >>= fun more =>
              .ok ((m, r.1.nodes) :: more.1, more.2) := by
        rw [Position.divideAccepted, made]
        rfl
      rw [gains, List.filterMap_cons_some (by rw [after]; rfl), steps]
      have counts := ((deeper.mono less).perft).mono less
      exact counts.of_takeBack
        (g := fun counts back => Position.divideAccepted depth back rest >>= fun more =>
          .ok ((m, counts.nodes) :: more.1, more.2))
        roomy.firm member made (fun _ => rfl) fun fullmove => (later fullmove).bind fun _ => .pure

theorem Roomy.divide (roomy : p.Roomy (n + 1)) (less : depth - 1 ≤ n) :
    Restores (n + 1) (p.divide depth) (p.gains (branch (depth - 1)) p.pseudoMoves) p :=
  roomy.divideAccepted less fun _ => id

end Position

end ChessEngine
