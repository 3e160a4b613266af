import ChessEngine.Proofs.Generator.Distinct
import ChessEngine.Proofs.MoveText
import ChessEngine.Proofs.Perft
import Mathlib.Data.Set.Card

/-!
# Lines and their counts

What the counting of leaves counts: the lines of legal moves of a given length, and
among them those that end in a special way.  `Position.listedLines` lists the lines with the
positions that they lead to, each line once, and the counts are numbers of list entries
(`count_leavesBelow`), so they are numbers of lines.

`perft_of_reachable` says this of the counting on one position, and that the counts
below the root moves belong to the legal moves and add up to all lines.
-/

namespace ChessEngine

/-- A field of the counts that adds up and is one for the leaves that pass a test. -/
structure Tallies (count : PerftCounts → Nat) (test : Move → Position → Bool) : Prop where
  zero : count .zero = 0
  add : ∀ a b, count (a.add b) = count a + count b
  leaf : ∀ m p, count (.leaf m p) = (test m p).toNat

namespace Tallies

variable {count : PerftCounts → Nat} {test : Move → Position → Bool}

theorem nodes : Tallies PerftCounts.nodes fun _ _ => true := ⟨rfl, fun _ _ => rfl, fun _ _ => rfl⟩

theorem captures : Tallies PerftCounts.captures fun m _ => m.isCapture :=
  ⟨rfl, fun _ _ => rfl, fun _ _ => rfl⟩

theorem enPassant : Tallies PerftCounts.enPassant fun m _ => m.isEnPassant :=
  ⟨rfl, fun _ _ => rfl, fun _ _ => rfl⟩

theorem castles : Tallies PerftCounts.castles fun m _ => m.isCastle :=
  ⟨rfl, fun _ _ => rfl, fun _ _ => rfl⟩

theorem promotions : Tallies PerftCounts.promotions fun m _ => m.isPromotion :=
  ⟨rfl, fun _ _ => rfl, fun _ _ => rfl⟩

theorem checks [ZobristKeys] : Tallies PerftCounts.checks fun _ p => p.inCheck p.side :=
  ⟨rfl, fun _ _ => rfl, fun _ _ => rfl⟩

theorem foldl (tallies : Tallies count test) (total : PerftCounts) (l : List PerftCounts) :
    count (l.foldl .add total) = count total + (l.map count).sum := by
  induction l generalizing total with
  | nil => rfl
  | cons a l ih =>
    rw [List.foldl_cons, ih, tallies.add, List.map_cons, List.sum_cons, Nat.add_assoc]

theorem sum (tallies : Tallies count test) (l : List PerftCounts) :
    count (.sum l) = (l.map count).sum := by
  rw [PerftCounts.sum, tallies.foldl, tallies.zero, Nat.zero_add]

end Tallies

namespace Position

section

variable [ZobristKeys] {α : Type} {p q : Position} {m : Move} {moves : List Move} {depth : Nat}

/-! ## The lines of a length -/

/-- The lines of `depth` legal moves, each with the position that it leads to. -/
def listedLines : (depth : Nat) → Position → List (List Move × Position)
  | 0, p => [([], p)]
  | depth + 1, p =>
    (p.gains (fun m q => (listedLines depth q).map fun l => (m :: l.1, l.2)) p.pseudoMoves).flatten

theorem mem_listedLines :
    (moves, q) ∈ listedLines depth p ↔ moves.length = depth ∧ Played p moves q := by
  induction depth generalizing p moves with
  | zero =>
    rw [listedLines, List.mem_singleton, List.length_eq_zero_iff]
    constructor
    · intro same
      cases same
      exact ⟨rfl, .nil⟩
    · intro ⟨empty, played⟩
      subst empty
      cases played
      rfl
  | succ depth ih =>
    simp only [listedLines, List.mem_flatten, mem_gains]
    constructor
    · intro ⟨l, ⟨m, member, r, after, same⟩, listed⟩
      subst same
      obtain ⟨⟨rest, s⟩, below, here⟩ := List.mem_map.1 listed
      cases here
      obtain ⟨length, played⟩ := ih.1 below
      exact ⟨congrArg Nat.succ length, .cons member (after?_eq_some.1 after) played⟩
    · intro ⟨length, played⟩
      cases played with
      | nil => cases length
      | cons member made played =>
        exact ⟨_, ⟨_, member, _, after?_eq_some.2 made, rfl⟩,
          List.mem_map.2 ⟨_, ih.2 ⟨Nat.succ.inj length, played⟩, rfl⟩⟩

theorem map_listedLines_succ (g : List Move × Position → α) (depth : Nat) (p : Position) :
    (listedLines (depth + 1) p).map g =
      (p.gains (fun m q => (listedLines depth q).map fun l => g (m :: l.1, l.2))
        p.pseudoMoves).flatten := by
  rw [listedLines, List.map_flatten, map_gains]
  simp only [List.map_map, Function.comp_def]

/-- No line is listed twice. -/
theorem Firm.nodup_listedLines (firm : p.Firm) (depth : Nat) :
    ((listedLines depth p).map Prod.fst).Nodup := by
  induction depth generalizing p with
  | zero => exact List.nodup_singleton _
  | succ depth ih =>
    rw [map_listedLines_succ, List.nodup_flatten]
    refine ⟨fun l listed => ?_, ?_⟩
    · obtain ⟨m, member, q, after, same⟩ := mem_gains.1 listed
      subst same
      have below := (ih (firm.of_after? member after)).map (List.cons_injective (a := m))
      rw [List.map_map] at below
      exact below
    · -- Lines from different moves differ in their first move.
      have apart : p.pseudoMoves.Nodup := nodup_pseudoMovesOf firm.consistent
      refine List.pairwise_filterMap.2 (apart.imp fun {m m'} differ l first l' second => ?_)
      obtain ⟨q, -, same⟩ := Option.map_eq_some_iff.1 first
      obtain ⟨q', -, same'⟩ := Option.map_eq_some_iff.1 second
      subst same same'
      intro line left right
      obtain ⟨_, -, here⟩ := List.mem_map.1 left
      obtain ⟨_, -, there⟩ := List.mem_map.1 right
      exact differ (List.cons.inj (here.trans there.symm)).1

/-- A count of leaves is the number of lines that pass its test. -/
theorem count_leavesBelow {count : PerftCounts → Nat} {test : Move → Position → Bool}
    (tallies : Tallies count test) (depth : Nat) (m : Move) (p : Position) :
    count (leavesBelow depth m p) =
      (listedLines depth p).countP fun l => test (l.1.getLastD m) l.2 := by
  induction depth generalizing m p with
  | zero =>
    rw [leavesBelow, tallies.leaf, listedLines, List.countP_singleton]
    show (test m p).toNat = if test m p then 1 else 0
    cases test m p <;> rfl
  | succ depth ih =>
    rw [leavesBelow, tallies.sum, map_gains, listedLines, List.countP_flatten, map_gains]
    simp only [ih, List.countP_map, Function.comp_def, List.getLastD_cons]

/-! ## Sets of lines -/

/-- The lines of `depth` legal moves. -/
def Lines (p : Position) (depth : Nat) : Set (List Move) :=
  {moves | moves.length = depth ∧ ∃ q, Played p moves q}

/-- Those whose last move and last position pass a test. -/
def LinesEnding (p : Position) (depth : Nat) (test : Move → Position → Bool) : Set (List Move) :=
  {moves | moves.length = depth ∧
    ∃ m q, moves.getLast? = some m ∧ Played p moves q ∧ test m q = true}

theorem Firm.ncard_listedLines (firm : p.Firm) (depth : Nat) (test : List Move × Position → Bool) :
    {moves | ∃ q, (moves, q) ∈ listedLines depth p ∧ test (moves, q) = true}.ncard =
      (listedLines depth p).countP test := by
  have nodup : (((listedLines depth p).filter test).map Prod.fst).Nodup :=
    (firm.nodup_listedLines depth).sublist (List.filter_sublist.map _)
  have listed : {moves | ∃ q, (moves, q) ∈ listedLines depth p ∧ test (moves, q) = true} =
      ((((listedLines depth p).filter test).map Prod.fst).toFinset : Set (List Move)) := by
    ext moves
    simp [List.mem_filter]
  rw [listed, Set.ncard_coe_finset, List.toFinset_card_of_nodup nodup, List.length_map,
    List.countP_eq_length_filter]

theorem finite_lines (p : Position) (depth : Nat) : (p.Lines depth).Finite := by
  refine ((listedLines depth p).map Prod.fst).toFinset.finite_toSet.subset ?_
  intro moves ⟨length, q, played⟩
  exact List.mem_toFinset.2 (List.mem_map.2 ⟨_, mem_listedLines.2 ⟨length, played⟩, rfl⟩)

theorem nodes_leavesBelow (depth : Nat) (m : Move) (p : Position) :
    (leavesBelow depth m p).nodes = (p.leaves depth).nodes := by
  cases depth <;> rfl

theorem Firm.nodes_leaves (firm : p.Firm) (depth : Nat) :
    (p.leaves depth).nodes = (p.Lines depth).ncard := by
  rw [← nodes_leavesBelow depth .null, count_leavesBelow .nodes, ← firm.ncard_listedLines]
  refine congrArg Set.ncard (Set.ext fun moves => ?_)
  simp only [Set.mem_ofPred_eq, Lines, mem_listedLines, and_true, exists_and_left]

theorem Firm.count_leaves {count : PerftCounts → Nat} {test : Move → Position → Bool}
    (firm : p.Firm) (tallies : Tallies count test) (depth : Nat) :
    count (p.leaves (depth + 1)) = (p.LinesEnding (depth + 1) test).ncard := by
  have counted := count_leavesBelow tallies (depth + 1) .null p
  rw [← firm.ncard_listedLines] at counted
  refine counted.trans (congrArg Set.ncard (Set.ext fun moves => ?_))
  simp only [Set.mem_ofPred_eq, LinesEnding, mem_listedLines]
  constructor
  · intro ⟨q, ⟨length, played⟩, passed⟩
    have last := List.getLast?_eq_some_getLast (List.ne_nil_of_length_eq_add_one length)
    rw [List.getLastD_eq_getLast?, last] at passed
    exact ⟨length, _, q, last, played, passed⟩
  · intro ⟨length, m, q, last, played, passed⟩
    refine ⟨q, ⟨length, played⟩, ?_⟩
    rw [List.getLastD_eq_getLast?, last]
    exact passed

/-! ## Branches of the root -/

theorem gains_move (p : Position) (moves : List Move) :
    p.gains (fun m _ => m) moves = p.legalAmong moves := by
  induction moves with
  | nil => rfl
  | cons m rest ih =>
    rw [legalAmong_cons, ← ih]
    cases after : p.after? m with
    | none => exact List.filterMap_cons_none (by rw [after]; rfl)
    | some q => exact List.filterMap_cons_some (by rw [after]; rfl)

theorem map_fst_branches (p : Position) (depth : Nat) (moves : List Move) :
    (p.gains (branch depth) moves).map Prod.fst = p.legalAmong moves := by
  rw [map_gains]
  exact p.gains_move moves

theorem sum_branches (p : Position) (depth : Nat) :
    ((p.gains (branch depth) p.pseudoMoves).map Prod.snd).sum = (p.leaves (depth + 1)).nodes := by
  rw [leaves, Tallies.nodes.sum, map_gains, map_gains]
  simp only [nodes_leavesBelow]
  rfl

/-- A branch counts the lines that go on from its move. -/
theorem Firm.ncard_of_mem_branches (firm : p.Firm) {n : Nat}
    (listed : (m, n) ∈ p.gains (branch depth) p.pseudoMoves) :
    n = {rest | m :: rest ∈ p.Lines (depth + 1)}.ncard := by
  obtain ⟨_, member, q, after, same⟩ := mem_gains.1 listed
  cases same
  have made := after?_eq_some.1 after
  rw [(firm.of_after? member after).nodes_leaves]
  refine congrArg Set.ncard (Set.ext fun rest => ?_)
  constructor
  · intro ⟨length, r, played⟩
    exact ⟨congrArg Nat.succ length, r, .cons member made played⟩
  · intro ⟨length, r, played⟩
    cases played with
    | cons _ made' played =>
      cases made.symm.trans made'
      exact ⟨Nat.succ.inj length, r, played⟩

end

/-- In every position of a game, counting leaves of any depth for which the history has room counts
the lines of legal moves of this length, and those whose last move captures, captures en passant,
castles, promotes or gives check.  Counting them below the root moves goes through the legal moves
in the order of generation and comes to the same number. -/
theorem perft_of_reachable [ZobristKeys] {p : Position} (reachable : p.Reachable) (depth : Nat)
    (room : p.history.size + depth ≤ historyCapacity) :
    ∃ counts q, p.perft depth = .ok (counts, q) ∧
      (p.Lines depth).Finite ∧ counts.nodes = (p.Lines depth).ncard ∧
      (0 < depth →
        counts.captures = (p.LinesEnding depth fun m _ => m.isCapture).ncard ∧
        counts.enPassant = (p.LinesEnding depth fun m _ => m.isEnPassant).ncard ∧
        counts.castles = (p.LinesEnding depth fun m _ => m.isCastle).ncard ∧
        counts.promotions = (p.LinesEnding depth fun m _ => m.isPromotion).ncard ∧
        counts.checks = (p.LinesEnding depth fun _ q => q.inCheck q.side).ncard ∧
        ∃ branches q', p.divide depth = .ok (branches, q') ∧
          branches.map Prod.fst = p.legalAmong p.pseudoMoves ∧
          (∀ m n, (m, n) ∈ branches → n = {rest | m :: rest ∈ p.Lines depth}.ncard) ∧
          (branches.map Prod.snd).sum = counts.nodes) := by
  have firm := reachable.grounded.firm
  have roomy : p.Roomy depth := ⟨firm, room⟩
  obtain ⟨fullmove, counted, -⟩ := roomy.perft
  refine ⟨_, _, counted, p.finite_lines depth, firm.nodes_leaves depth, fun deep => ?_⟩
  cases depth with
  | zero => exact absurd deep (Nat.lt_irrefl 0)
  | succ depth =>
    have divides : Restores (depth + 1) (p.divide (depth + 1)) _ p :=
      roomy.divide (Nat.le_refl depth)
    obtain ⟨fullmove', divided, -⟩ := divides
    exact ⟨firm.count_leaves .captures depth, firm.count_leaves .enPassant depth,
      firm.count_leaves .castles depth, firm.count_leaves .promotions depth,
      firm.count_leaves .checks depth, _, _, divided, p.map_fst_branches depth _,
      fun m n => firm.ncard_of_mem_branches, p.sum_branches depth⟩

end Position

namespace PawnRace

/-- White promotes next, unless it answers the double push of the other pawn. -/
def setup : Setup where
  pieces := [(0, ⟨.white, .king⟩), (36, ⟨.white, .pawn⟩), (48, ⟨.white, .pawn⟩),
    (16, ⟨.black, .king⟩), (51, ⟨.black, .pawn⟩)]
  side := .black
  rights := .none
  enPassant := none
  fifty := 0
  fullmove := 1

def start : Position := setup.toPosition.toOption.get (by decide +kernel)

theorem reachable : start.Reachable := ⟨setup, start, eq_ok_get _, .refl⟩

end PawnRace

namespace Position

/-- Black has five moves, and after them White has its pawns to capture and to promote. -/
theorem perft_of_pawnRace :
    (PawnRace.start.Lines 2).ncard = 36 ∧
      (PawnRace.start.LinesEnding 2 fun m _ => m.isCapture).ncard = 2 ∧
      (PawnRace.start.LinesEnding 2 fun m _ => m.isEnPassant).ncard = 1 ∧
      (PawnRace.start.LinesEnding 2 fun m _ => m.isCastle).ncard = 0 ∧
      (PawnRace.start.LinesEnding 2 fun m _ => m.isPromotion).ncard = 20 ∧
      (PawnRace.start.LinesEnding 2 fun _ q => q.inCheck q.side).ncard = 6 := by
  obtain ⟨counts, q, counted, -, nodes, deep⟩ :=
    perft_of_reachable PawnRace.reachable 2 (by decide +kernel)
  obtain ⟨captures, enPassant, castles, promotions, checks, -⟩ := deep Nat.two_pos
  have evaluated : (PawnRace.start.perft 2).toOption.map (·.1) = some ⟨36, 2, 1, 0, 20, 6⟩ := by
    decide +kernel
  rw [counted] at evaluated
  cases Option.some.inj evaluated
  exact ⟨nodes.symm, captures.symm, enPassant.symm, castles.symm, promotions.symm, checks.symm⟩

end Position

end ChessEngine
