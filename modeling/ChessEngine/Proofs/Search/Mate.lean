import ChessEngine.Proofs.Search.Iteration
import Mathlib.Data.Nat.Find
import Mathlib.Order.Bounds.Defs

/-!
# Scores of forced mates

A score as high as a mate means a mate.  `Wins` and `Loses` say what can be forced
and know neither scores nor plies; `mate_thresholds` compares them with the value
of a game tree, threshold by threshold, in one induction on the depth.  A tree
sees a mate only where it still looks for moves, which is why a mate within `k`
half-moves takes a depth of `k + 1`.

`score_of_thresholds` reads the length of the shortest mate off the thresholds,
for the side that mates and, with the sign turned, for the one that is mated.
-/

namespace ChessEngine

namespace Position

section

variable [ZobristKeys] {p q : Position} {scorer : Scorer} {depth n k : Nat} {a bound : Int}

/-! ## What can be forced -/

theorem not_wins_zero : ¬ p.Wins 0 := by
  rw [Wins]
  exact not_false

theorem wins_loses_succ : ∀ (n : Nat) (p : Position),
    (p.Wins n → p.Wins (n + 1)) ∧ (p.Loses n → p.Loses (n + 1))
  | 0, p => by
      exact ⟨fun wins => absurd wins not_wins_zero,
        fun ⟨undecided, mated⟩ => ⟨undecided, .inl mated⟩⟩
  | n + 1, p => by
      refine ⟨fun ⟨undecided, q, member, loses⟩ => ?_, fun ⟨undecided, choice⟩ => ?_⟩
      · exact ⟨undecided, q, member, (wins_loses_succ n q).2 loses⟩
      · exact ⟨undecided, choice.imp_right fun ⟨moves, all⟩ =>
          ⟨moves, fun q member => (wins_loses_succ n q).1 (all q member)⟩⟩

/-- A longer time changes nothing about a mate. -/
theorem Wins.mono (less : k ≤ n) (wins : p.Wins k) : p.Wins n := by
  induction less with
  | refl => exact wins
  | step _ ih => exact (wins_loses_succ _ p).1 ih

theorem Loses.mono (less : k ≤ n) (loses : p.Loses k) : p.Loses n := by
  induction less with
  | refl => exact loses
  | step _ ih => exact (wins_loses_succ _ p).2 ih

/-- What can be forced does not depend on how moves are counted. -/
theorem Firm.wins_loses_recount (firm : p.Firm) (fullmove : Counter) (ply : Nat) :
    ((p.recount fullmove ply).Wins n ↔ p.Wins n) ∧
      ((p.recount fullmove ply).Loses n ↔ p.Loses n) := by
  induction n generalizing p fullmove ply with
  | zero =>
    rw [Wins, Wins, Loses, Loses, Checkmated, Checkmated, firm.successors_recount,
      List.map_eq_nil_iff]
    exact ⟨Iff.rfl, Iff.rfl⟩
  | succ n ih =>
    have each : ∀ q ∈ p.successors, _ := fun q member =>
      ih (firm.of_mem_successors member).1 (Basis.fullmoveAfter fullmove p.side) (ply + 1)
    rw [Wins, Wins, Loses, Loses, Checkmated, Checkmated, firm.successors_recount]
    simp only [ne_eq, List.map_eq_nil_iff, List.mem_map, exists_exists_and_eq_and,
      forall_exists_index, and_imp, forall_apply_eq_imp_iff₂]
    refine ⟨and_congr_right' (exists_congr fun q => ?_), and_congr_right' (or_congr_right ?_)⟩
    · exact and_congr_right fun member => (each q member).2
    · exact and_congr_right' (forall₂_congr fun q member => (each q member).1)

/-! ## Thresholds of the value -/

/-- Every static score that a game tree of the given depth looks at is smaller than `bound` in
absolute value.  Nobody looks behind a position that is drawn by rule. -/
def StaticBelow (scorer : Scorer) (bound : Int) : (depth : Nat) → Position → Prop
  | 0, p => -bound < scorer p ∧ scorer p < bound
  | depth + 1, p => p.isDrawn = false → ∀ q ∈ p.successors, StaticBelow scorer bound depth q

instance decidableStaticBelow (scorer : Scorer) (bound : Int) :
    (depth : Nat) → (p : Position) → Decidable (p.StaticBelow scorer bound depth)
  | 0, _ => inferInstanceAs (Decidable (_ ∧ _))
  | depth + 1, p =>
    have := decidableStaticBelow scorer bound depth
    inferInstanceAs (Decidable (p.isDrawn = false → ∀ q ∈ p.successors, _))

/-- A mate that a tree of the given depth sees, worth at least `a`. -/
def MatesWithin (depth : Nat) (a : Int) (p : Position) : Prop :=
  ∃ k < depth, p.Wins k ∧ a ≤ mateScore - (p.ply + k)

/-- Being mated where a tree of the given depth sees it, at a cost of at least `a`. -/
def MatedWithin (depth : Nat) (a : Int) (p : Position) : Prop :=
  ∃ k < depth, p.Loses k ∧ a ≤ mateScore - (p.ply + k)

theorem matesWithin_succ (firm : p.Firm) (undecided : p.isDrawn = false) :
    p.MatesWithin (depth + 1) a ↔ ∃ q ∈ p.successors, q.MatedWithin depth a := by
  constructor
  · rintro ⟨k, inside, wins, worth⟩
    cases k with
    | zero => exact absurd wins not_wins_zero
    | succ k =>
      obtain ⟨-, q, member, loses⟩ := wins
      have ply := (firm.of_mem_successors member).2
      exact ⟨q, member, k, by omega, loses, by omega⟩
  · rintro ⟨q, member, k, inside, loses, worth⟩
    have ply := (firm.of_mem_successors member).2
    exact ⟨k + 1, by omega, ⟨undecided, q, member, loses⟩, by omega⟩

theorem matedWithin_succ_of_stuck (undecided : p.isDrawn = false) (stuck : p.successors = []) :
    p.MatedWithin (depth + 1) a ↔ p.inCheck p.side = true ∧ a ≤ mateScore - p.ply := by
  constructor
  · rintro ⟨k, -, loses, worth⟩
    cases k with
    | zero => exact ⟨loses.2.2, by omega⟩
    | succ k =>
      rcases loses.2 with mated | ⟨moves, -⟩
      · exact ⟨mated.2, by omega⟩
      · exact absurd stuck moves
  · rintro ⟨check, worth⟩
    exact ⟨0, by omega, ⟨undecided, stuck, check⟩, by omega⟩

theorem matedWithin_succ (firm : p.Firm) (undecided : p.isDrawn = false)
    (moves : p.successors ≠ []) :
    p.MatedWithin (depth + 1) a ↔ ∀ q ∈ p.successors, q.MatesWithin depth a := by
  have plies : ∀ q ∈ p.successors, q.ply = p.ply + 1 := fun q member =>
    (firm.of_mem_successors member).2
  constructor
  · rintro ⟨k, inside, loses, worth⟩ q member
    cases k with
    | zero => exact absurd loses.2.1 moves
    | succ k =>
      rcases loses.2 with ⟨stuck, -⟩ | ⟨-, all⟩
      · exact absurd stuck moves
      · have ply := plies q member
        exact ⟨k, by omega, all q member, by omega⟩
  · -- The longest time that a mate may take here is enough for all of them.
    intro all
    obtain ⟨q, member⟩ := List.exists_mem_of_ne_nil _ moves
    obtain ⟨k, inside, -, worth⟩ := all q member
    have ply := plies q member
    obtain ⟨slack, limit⟩ := Int.eq_ofNat_of_zero_le
      (show 0 ≤ mateScore - (p.ply + 1) - a by omega)
    refine ⟨min (depth - 1) slack + 1, by omega,
      ⟨undecided, .inr ⟨moves, fun r member => ?_⟩⟩, by omega⟩
    obtain ⟨j, inside, wins, worth⟩ := all r member
    have ply := plies r member
    exact wins.mono (by omega)

/-- The value of a node with legal moves is what one of its successors is worth. -/
theorem le_minimax_iff (undecided : p.isDrawn = false) (inside : p.ply < maxPly)
    (moves : p.successors ≠ []) :
    a ≤ p.minimax scorer (depth + 1) ↔ ∃ q ∈ p.successors, a ≤ -q.minimax scorer depth := by
  have below : p.minimax scorer (depth + 1) ≤ a - 1 ↔
      ∀ q ∈ p.successors, -q.minimax scorer depth ≤ a - 1 :=
    minimax_le_iff undecided inside moves
  constructor
  · intro reached
    by_contra missed
    have low := below.2 fun q member => by
      have short : ¬ a ≤ -q.minimax scorer depth := fun long => missed ⟨q, member, long⟩
      omega
    omega
  · rintro ⟨q, member, reached⟩
    by_contra missed
    have low := below.1 (by omega) q member
    omega

/-- A value at least as high as some mates is a mate, of either side. -/
theorem mate_thresholds (firm : p.Firm) (plies : p.ply + depth ≤ maxPly)
    (quiet : p.StaticBelow scorer (mateScore - maxPly) depth) (high : mateScore - maxPly ≤ a) :
    (a ≤ p.minimax scorer depth ↔ p.MatesWithin depth a) ∧
      (p.minimax scorer depth ≤ -a ↔ p.MatedWithin depth a) := by
  have positive : 0 < mateScore - maxPly := by decide
  induction depth generalizing p with
  | zero =>
    obtain ⟨low, below⟩ := quiet
    rw [minimax]
    constructor
    · refine iff_of_false (by omega) ?_
      rintro ⟨k, inside, -⟩
      exact absurd inside k.not_lt_zero
    · refine iff_of_false (by omega) ?_
      rintro ⟨k, inside, -⟩
      exact absurd inside k.not_lt_zero
  | succ depth ih =>
    cases drawn : p.isDrawn with
    | true =>
      rw [minimax_of_drawn drawn]
      constructor
      · refine iff_of_false (by omega) ?_
        rintro ⟨_ | k, -, ⟨undecided, -⟩, -⟩
        cases drawn.symm.trans undecided
      · refine iff_of_false (by omega) ?_
        rintro ⟨_ | k, -, ⟨undecided, -⟩, -⟩ <;> cases drawn.symm.trans undecided
    | false =>
      by_cases stuck : p.successors = []
      · rw [minimax_of_stuck drawn (by omega) stuck, matesWithin_succ firm drawn,
          matedWithin_succ_of_stuck drawn stuck, stuck]
        constructor
        · refine iff_of_false ?_ ?_
          · split <;> omega
          · rintro ⟨q, member, -⟩
            exact List.not_mem_nil member
        · cases check : p.inCheck p.side with
          | true =>
            rw [if_pos rfl, and_iff_right rfl]
            omega
          | false =>
            rw [if_neg Bool.false_ne_true]
            exact iff_of_false (by omega) fun mated => Bool.false_ne_true mated.1
      · have each : ∀ q ∈ p.successors, _ := fun q member =>
          ih (firm.of_mem_successors member).1
            (by have ply := (firm.of_mem_successors member).2; omega) (quiet drawn q member)
        rw [le_minimax_iff drawn (by omega) stuck, minimax_le_iff drawn (by omega) stuck,
          matesWithin_succ firm drawn, matedWithin_succ firm drawn stuck]
        constructor
        · refine exists_congr fun q => and_congr_right fun member => ?_
          rw [← (each q member).2]
          omega
        · refine forall₂_congr fun q member => ?_
          rw [← (each q member).1]
          omega

/-! ## Scores at the root -/

omit [ZobristKeys] in
/-- A score whose thresholds are mates within `n` half-moves tells whether there is a mate, and how
many half-moves it takes. -/
theorem score_of_thresholds {Forced : Nat → Prop} {score : Int}
    (mono : ∀ {k n : Nat}, k ≤ n → Forced k → Forced n) (inside : n < maxPly)
    (thresholds : ∀ a, mateScore - maxPly ≤ a →
      (a ≤ score ↔ ∃ k < n + 1, Forced k ∧ a ≤ mateScore - k)) :
    (mateScore - maxPly ≤ score ↔ Forced n) ∧
      (mateScore - maxPly ≤ score →
        ∃ k ≤ n, IsLeast {k | Forced k} k ∧ score = mateScore - k) := by
  have forced : mateScore - maxPly ≤ score ↔ Forced n := by
    rw [thresholds _ (Int.le_refl _)]
    constructor
    · rintro ⟨k, less, here, -⟩
      exact mono (by omega) here
    · exact fun here => ⟨n, by omega, here, by omega⟩
  refine ⟨forced, fun high => ?_⟩
  classical
  have some : ∃ k, Forced k := ⟨n, forced.1 high⟩
  have atMost : Nat.find some ≤ n := Nat.find_min' some (forced.1 high)
  refine ⟨Nat.find some, atMost, ⟨Nat.find_spec some, fun k => Nat.find_min' some⟩, ?_⟩
  have reached : mateScore - (Nat.find some : Nat) ≤ score :=
    (thresholds _ (by omega)).2 ⟨_, by omega, Nat.find_spec some, by omega⟩
  have exceeded : ¬ mateScore - (Nat.find some : Nat) + 1 ≤ score := by
    rw [thresholds _ (by omega)]
    rintro ⟨k, -, here, worth⟩
    have least := Nat.find_min' some here
    omega
  omega

/-- The two ends of the scale of scores are forced mates. -/
theorem mates_of_minimax (firm : p.Firm) (root : p.ply = 0) (inside : n < maxPly)
    (quiet : p.StaticBelow scorer (mateScore - maxPly) (n + 1)) :
    ((mateScore - maxPly ≤ p.minimax scorer (n + 1) ↔ p.Wins n) ∧
      (mateScore - maxPly ≤ p.minimax scorer (n + 1) →
        ∃ k ≤ n, IsLeast {k | p.Wins k} k ∧ p.minimax scorer (n + 1) = mateScore - k)) ∧
    ((mateScore - maxPly ≤ -p.minimax scorer (n + 1) ↔ p.Loses n) ∧
      (mateScore - maxPly ≤ -p.minimax scorer (n + 1) →
        ∃ k ≤ n, IsLeast {k | p.Loses k} k ∧ -p.minimax scorer (n + 1) = mateScore - k)) := by
  have thresholds := fun (a : Int) (high : mateScore - maxPly ≤ a) =>
    mate_thresholds firm (by omega) quiet high
  have start : ((0 : Nat) : Int) = 0 := rfl
  simp only [MatesWithin, MatedWithin, root, start, Int.zero_add] at thresholds
  constructor
  · exact score_of_thresholds Wins.mono inside fun a high => (thresholds a high).1
  · refine score_of_thresholds Loses.mono inside fun a high => ?_
    rw [← (thresholds a high).2]
    omega

end

end Position

/-- The window of the root is wide enough for every score, mates included. -/
theorem Iteration.Reports.score_eq [ZobristKeys] {root : Position} {scorer : Scorer}
    {it : Iteration} {n : Nat} (reports : it.Reports scorer root) (firm : root.Firm)
    (atRoot : root.ply = 0) (number : it.depth = n + 1) (inside : n < maxPly)
    (quiet : root.StaticBelow scorer (mateScore - maxPly) (n + 1)) :
    it.score = root.minimax scorer (n + 1) := by
  obtain ⟨⟨-, mates⟩, -, mated⟩ := Position.mates_of_minimax firm atRoot inside quiet
  have low : -infiniteScore < root.minimax scorer (n + 1) := by
    by_contra under
    obtain ⟨k, -, -, value⟩ := mated (by simp only [mateScore, infiniteScore, maxPly] at *; omega)
    simp only [mateScore, infiniteScore] at *
    omega
  have high : root.minimax scorer (n + 1) < infiniteScore := by
    by_contra beyond
    obtain ⟨k, -, -, value⟩ := mates (by simp only [mateScore, infiniteScore, maxPly] at *; omega)
    simp only [mateScore, infiniteScore] at *
    omega
  exact reports.score_of_inside (number ▸ rfl) low high

namespace Engine

open Position

/-- Mate scores are forced mates, as long as no static score in the tree looks like one.  An
iteration to depth `d` scores a mate if and only if the side to move can force one within `d - 1`
half-moves, and its score counts the half-moves of the shortest; it scores a loss if and only if
the side to move is mated by force within that time, and its score counts the half-moves of the
longest defence against the shortest mate.  Draws by rule and stalemates are escapes. -/
theorem mates_of_search [ZobristKeys] {p : Position} (reachable : p.Reachable) (e : Engine)
    (room : p.history.size + 64 ≤ historyCapacity) (count : p.fullmove.toNat + 64 < 65535) :
    ∃ r e', e.search p = .ok (r, e', p) ∧
      r.iterations.map (·.depth) = List.range' 1 (min e.config.depth 64) ∧
      ∀ it ∈ r.iterations,
        (p.setPly 0).StaticBelow e.scorer (mateScore - maxPly) it.depth →
        ((mateScore - maxPly ≤ it.score ↔ p.Wins (it.depth - 1)) ∧
          (mateScore - maxPly ≤ it.score →
            ∃ k : Nat, IsLeast {k | p.Wins k} k ∧ it.score = mateScore - k)) ∧
        ((it.score ≤ -(mateScore - maxPly) ↔ p.Loses (it.depth - 1)) ∧
          (it.score ≤ -(mateScore - maxPly) →
            ∃ k : Nat, IsLeast {k | p.Loses k} k ∧ it.score = -(mateScore - k))) := by
  have grounded := reachable.grounded
  have rooted := grounded.recount p.fullmove 0
  obtain ⟨r, e', searched, depths, reports⟩ :=
    search_spec e ⟨grounded, room, Nat.le_of_lt count⟩ count
  refine ⟨r, e', searched, depths, fun it member quiet => ?_⟩
  have listed : it.depth ∈ List.range' 1 (min e.config.depth 64) :=
    depths ▸ List.mem_map_of_mem member
  rw [List.mem_range'_1] at listed
  have plies : maxPly = 64 := rfl
  obtain ⟨n, number⟩ : ∃ n, it.depth = n + 1 := ⟨it.depth - 1, by omega⟩
  rw [number] at quiet
  have inside : n < maxPly := by omega
  have score : it.score = (p.recount p.fullmove 0).minimax e.scorer (n + 1) :=
    (reports it member).score_eq rooted.firm rfl number inside quiet
  obtain ⟨⟨wins, shortest⟩, loses, longest⟩ := mates_of_minimax rooted.firm rfl inside quiet
  have same : ∀ k, _ := fun k =>
    grounded.firm.wins_loses_recount (n := k) p.fullmove 0
  simp only [← score, (same _).1, (same _).2] at wins shortest loses longest
  rw [number, Nat.add_sub_cancel]
  refine ⟨⟨wins, fun high => ?_⟩, by rw [← loses]; omega, fun low => ?_⟩
  · obtain ⟨k, -, least, value⟩ := shortest high
    exact ⟨k, least, value⟩
  · obtain ⟨k, -, least, value⟩ := longest (by omega)
    exact ⟨k, least, by omega⟩

end Engine

/-- The rook mates. -/
theorem Rehearsal.wins_beforeMate : beforeMate.Wins 1 := by
  show beforeMate.isDrawn = false ∧ ∃ q ∈ beforeMate.successors,
    q.isDrawn = false ∧ q.successors = [] ∧ q.inCheck q.side = true
  decide +kernel

namespace Engine

theorem mates_of_rehearsal : ∃ r e',
    (Engine.new ⟨2, 24, true⟩ Position.materialScore).search Rehearsal.beforeMate =
      .ok (r, e', Rehearsal.beforeMate) ∧ r.iterations.map (·.depth) = [1, 2] ∧
      ∀ it ∈ r.iterations, it.depth = 2 → it.score = 28999 := by
  obtain ⟨r, e', searched, depths, mates⟩ := mates_of_search Rehearsal.reachable_beforeMate
    (Engine.new ⟨2, 24, true⟩ Position.materialScore) (by decide +kernel) (by decide +kernel)
  refine ⟨r, e', searched, depths, fun it member depth => ?_⟩
  have quiet : (Rehearsal.beforeMate.setPly 0).StaticBelow Position.materialScore
      (mateScore - maxPly) it.depth := by
    rw [depth]
    decide +kernel
  obtain ⟨⟨wins, shortest⟩, -⟩ := mates it member quiet
  rw [depth] at wins
  obtain ⟨k, ⟨forced, least⟩, score⟩ := shortest (wins.2 Rehearsal.wins_beforeMate)
  have atMost : k ≤ 1 := least Rehearsal.wins_beforeMate
  have later : k ≠ 0 := by
    rintro rfl
    have now : Rehearsal.beforeMate.Wins 0 := forced
    exact Position.not_wins_zero now
  have mate : mateScore = 29000 := rfl
  omega

end Engine

end ChessEngine
