import ChessEngine.Proofs.Outcome
import ChessEngine.Search.Ordering
import Mathlib.Data.List.Perm.Basic

/-!
# Picking moves one after the other

Moves and their ranks are kept in two lists, and the search brings the best of what is left to
the front before it tries the next move.  One call exchanges two places of both lists: the first
one left and the last of those that rank highest (`bringBest_exchanged`).  So the two lists stay
in step, and what has been picked ranks no lower than what is left (`Picked.bringBest`).
Calls for all places in turn therefore sort the moves by rank.  Whatever the ranks are, the next
move is one of those that are left, and the others stay (`selectBest_perm`).
-/

namespace ChessEngine

/-! ## The order of a list -/

theorem cons_set_perm {α : Type} {l : List α} {i : Nat} {picked : α} (a : α)
    (held : l[i]? = some picked) : (picked :: l.set i a).Perm (a :: l) := by
  obtain ⟨inside, rfl⟩ := List.getElem?_eq_some_iff.1 held
  calc (l[i] :: l.set i a).Perm (l[i] :: a :: l.eraseIdx i) :=
        (List.set_perm_cons_eraseIdx inside a).cons _
    List.Perm _ (a :: l[i] :: l.eraseIdx i) := List.Perm.swap ..
    List.Perm _ (a :: l) := (List.getElem_cons_eraseIdx_perm inside).cons _

theorem selectBest_perm (moves : List RankedMove) : (selectBest moves).Perm moves := by
  unfold selectBest
  split
  · exact .refl _
  · split
    · exact .refl _
    · split
      · next held => exact cons_set_perm _ held
      · exact .refl _

theorem MoveOrdering.map_move_rankMoves (o : MoveOrdering) (p : Position) (ply : Nat)
    (tableMove : Option Move) (moves : List Move) :
    (o.rankMoves p ply tableMove moves).map (·.move) = moves := by
  rw [rankMoves, List.map_map]
  exact List.map_id' moves

/-! ## The place that ranks highest -/

/-- From `start` on, `best` is the last place with the highest rank. -/
structure LastHighest (ranks : List Int) (start best : Nat) : Prop where
  left : start ≤ best
  inside : best < ranks.length
  highest : ∀ i (listed : i < ranks.length), start ≤ i → ranks[i] ≤ ranks[best]
  latest : ∀ i (listed : i < ranks.length), best < i → ranks[i] < ranks[best]

namespace LastHighest

variable {ranks : List Int} {start best : Nat}

theorem single (rank : Int) : LastHighest [rank] 0 0 := by
  constructor <;> simp

/-- A rank that is as high takes the place over. -/
theorem push_high (last : LastHighest ranks start best) {rank : Int}
    (high : ranks.get ⟨best, last.inside⟩ ≤ rank) :
    LastHighest (ranks ++ [rank]) start ranks.length := by
  obtain ⟨left, inside, highest, latest⟩ := last
  constructor <;> grind

/-- A lower rank changes nothing. -/
theorem push_low (last : LastHighest ranks start best) {rank : Int}
    (low : rank < ranks.get ⟨best, last.inside⟩) : LastHighest (ranks ++ [rank]) start best := by
  obtain ⟨left, inside, highest, latest⟩ := last
  constructor <;> grind

/-- What stands before `start` plays no part. -/
theorem append (front : List Int) (last : LastHighest ranks start best) :
    LastHighest (front ++ ranks) (front.length + start) (front.length + best) := by
  obtain ⟨left, inside, highest, latest⟩ := last
  constructor <;> grind

end LastHighest

/-- The second list is the first one with the entries of two places exchanged. -/
structure Exchanged {α : Type} (i j : Nat) (l l' : List α) : Prop where
  here : l'[i]? = l[j]?
  there : l'[j]? = l[i]?
  others : ∀ k, k ≠ i → k ≠ j → l'[k]? = l[k]?

namespace Exchanged

variable {α β : Type} {i j : Nat} {l l' : List α}

theorem refl (i : Nat) (l : List α) : Exchanged i i l l := ⟨rfl, rfl, fun _ _ _ => rfl⟩

theorem map (exchanged : Exchanged i j l l') (f : α → β) :
    Exchanged i j (l.map f) (l'.map f) where
  here := by simp only [List.getElem?_map, exchanged.here]
  there := by simp only [List.getElem?_map, exchanged.there]
  others k first second := by simp only [List.getElem?_map, exchanged.others k first second]

/-- An exchange behind a prefix of a list. -/
theorem append (front : List α) (exchanged : Exchanged i j l l') :
    Exchanged (front.length + i) (front.length + j) (front ++ l) (front ++ l') := by
  obtain ⟨here, there, others⟩ := exchanged
  constructor <;> grind

/-- What a place from `i` on holds after the exchange, a place from `i` on held before. -/
theorem source (exchanged : Exchanged i j l l') (ordered : i ≤ j) {k : Nat} (behind : i ≤ k) :
    ∃ k', i ≤ k' ∧ l'[k]? = l[k']? := by
  by_cases first : k = i
  · subst first
    exact ⟨j, ordered, exchanged.here⟩
  by_cases second : k = j
  · subst second
    exact ⟨i, Nat.le_refl i, exchanged.there⟩
  · exact ⟨k, behind, exchanged.others k first second⟩

/-- Before both places the lists agree. -/
theorem take_eq (exchanged : Exchanged i j l l') (ordered : i ≤ j) : l'.take i = l.take i := by
  refine List.ext_getElem? fun k => ?_
  rw [List.getElem?_take, List.getElem?_take]
  split
  · exact exchanged.others k (by omega) (by omega)
  · rfl

end Exchanged

/-! ## One call -/

/-- The scan for the best move, with the best of the ranks already seen at `place`, ends at the
last of the highest of all. -/
theorem lastBest_lastHighest (moves : List RankedMove) :
    ∀ {seen : List Int} {place : Nat} (last : LastHighest seen 0 place),
      LastHighest (seen ++ moves.map (·.rank)) 0
        (lastBest (seen.get ⟨place, last.inside⟩) place seen.length moves) := by
  induction moves with
  | nil => intro seen place last; simpa [lastBest] using last
  | cons m rest ih =>
    intro seen place last
    rw [lastBest, List.map_cons, List.append_cons]
    split
    · next high => simpa using ih (last.push_high high)
    · next low =>
      have pushed := last.push_low (Int.lt_of_not_ge low)
      have inside := last.inside
      have inside' := pushed.inside
      have kept : (seen ++ [m.rank])[place] = seen[place] := List.getElem_append_left inside
      simpa [kept] using ih pushed

theorem selectBest_exchanged (m : RankedMove) (rest : List RankedMove) :
    ∃ best, LastHighest ((m :: rest).map (·.rank)) 0 best ∧
      Exchanged 0 best (m :: rest) (selectBest (m :: rest)) := by
  have last : LastHighest ((m :: rest).map (·.rank)) 0 (lastBest m.rank 0 1 rest) :=
    lastBest_lastHighest rest (.single m.rank)
  refine ⟨_, last, ?_⟩
  rw [selectBest]
  generalize lastBest m.rank 0 1 rest = best at last ⊢
  cases best with
  | zero => exact .refl 0 _
  | succ i =>
    have inside : i < rest.length := by simpa using last.inside
    simp only [List.getElem?_eq_getElem inside]
    constructor <;> grind

/-- One call exchanges the first place that is left with the last one of the highest rank. -/
theorem bringBest_exchanged {moves : List RankedMove} {start : Nat}
    (inside : start < moves.length) :
    ∃ best, LastHighest (moves.map (·.rank)) start best ∧
      Exchanged start best moves (bringBest moves start) := by
  obtain ⟨m, rest, split⟩ := List.exists_cons_of_length_pos
    (show 0 < (moves.drop start).length by rw [List.length_drop]; omega)
  obtain ⟨best, last, exchanged⟩ := selectBest_exchanged m rest
  have front : (moves.take start).length = start := List.length_take_of_le (Nat.le_of_lt inside)
  have whole : moves.take start ++ (m :: rest) = moves := by rw [← split, List.take_append_drop]
  refine ⟨start + best, ?_, ?_⟩
  · have shifted := last.append ((moves.take start).map (·.rank))
    rwa [← List.map_append, whole, List.length_map, front] at shifted
  · have shifted := exchanged.append (moves.take start)
    rwa [whole, front, ← split] at shifted

theorem bringBest_perm (moves : List RankedMove) (start : Nat) :
    (bringBest moves start).Perm moves := by
  have rest := (selectBest_perm (moves.drop start)).append_left (moves.take start)
  rwa [List.take_append_drop] at rest

theorem bringBest_of_length_le {moves : List RankedMove} {start : Nat}
    (past : moves.length ≤ start) : bringBest moves start = moves := by
  rw [bringBest, List.drop_of_length_le past, selectBest, List.take_of_length_le past,
    List.append_nil]

/-- Two lists of one length are the moves and the ranks of a list of ranked moves, and a call on
them is a call on that list. -/
theorem bringBestOf_map (moves : List RankedMove) (start : Nat) :
    bringBestOf (moves.map (·.move)) (moves.map (·.rank)) start =
      .ok ((bringBest moves start).map (·.move), (bringBest moves start).map (·.rank)) := by
  have paired : List.zipWith RankedMove.mk (moves.map (·.move)) (moves.map (·.rank)) = moves := by
    rw [List.zipWith_map, List.zipWith_self]
    exact List.map_id' moves
  rw [bringBestOf, paired]
  split
  · next past => rw [bringBest_of_length_le (by simpa using past)]
  · simp

theorem exists_ranked {moves : List Move} {ranks : List Int}
    (paired : moves.length = ranks.length) :
    ∃ ranked : List RankedMove, moves = ranked.map (·.move) ∧ ranks = ranked.map (·.rank) := by
  induction moves generalizing ranks with
  | nil => exact ⟨[], rfl, (List.length_eq_zero_iff.1 paired.symm)⟩
  | cons m moves ih =>
    obtain ⟨rank, ranks, rfl⟩ := List.exists_cons_of_length_eq_add_one paired.symm
    obtain ⟨ranked, rfl, rfl⟩ := ih (by simpa using paired)
    exact ⟨⟨m, rank⟩ :: ranked, rfl, rfl⟩

/-! ## All places in turn -/

/-- The first `n` moves have been picked: none of them ranks lower than one behind it. -/
def Picked (n : Nat) (moves : List RankedMove) : Prop :=
  ∀ i j a b, i < n → i < j → moves[i]? = some a → moves[j]? = some b → b.rank ≤ a.rank

/-- A call for the first place that is left picks one more move.  Places behind it hold what some
place from it on held before, so that nothing moves in front of the picked ones. -/
theorem Picked.bringBest {moves : List RankedMove} {n : Nat} (picked : Picked n moves)
    (inside : n < moves.length) : Picked (n + 1) (bringBest moves n) := by
  obtain ⟨best, last, exchanged⟩ := bringBest_exchanged inside
  intro i j a b early later first second
  have left := last.left
  rcases Nat.lt_or_eq_of_le (Nat.le_of_lt_succ early) with before | rfl
  · rw [exchanged.others i (by omega) (by omega)] at first
    rcases Nat.lt_or_ge j n with before' | behind
    · rw [exchanged.others j (by omega) (by omega)] at second
      exact picked i j a b before later first second
    · obtain ⟨k, from_n, held⟩ := exchanged.source left behind
      exact picked i k a b before (by omega) first (held ▸ second)
  · obtain ⟨k, from_i, held⟩ := exchanged.source left (Nat.le_of_lt later)
    obtain ⟨_, rfl⟩ := List.getElem?_eq_some_iff.1 (exchanged.here ▸ first)
    obtain ⟨listed, rfl⟩ := List.getElem?_eq_some_iff.1 (held ▸ second)
    have highest := last.highest k (by simpa using listed) from_i
    rwa [List.getElem_map, List.getElem_map] at highest

theorem picked_foldl (moves : List RankedMove) :
    ∀ n ≤ moves.length,
      Picked n ((List.range n).foldl ChessEngine.bringBest moves) ∧
        ((List.range n).foldl ChessEngine.bringBest moves).Perm moves
  | 0, _ => ⟨fun i _ _ _ early => absurd early i.not_lt_zero, .refl _⟩
  | n + 1, inside => by
    obtain ⟨picked, perm⟩ := picked_foldl moves n (by omega)
    rw [List.range_succ, List.foldl_append, List.foldl_cons, List.foldl_nil]
    exact ⟨picked.bringBest (by rw [perm.length_eq]; omega), (bringBest_perm _ n).trans perm⟩

theorem Picked.pairwise {moves : List RankedMove} {n : Nat} (picked : Picked n moves)
    (all : moves.length ≤ n) : (moves.map (·.rank)).Pairwise (· ≥ ·) := by
  rw [List.pairwise_map, List.pairwise_iff_getElem]
  intro i j first second ordered
  exact picked i j _ _ (by omega) ordered (List.getElem?_eq_getElem first)
    (List.getElem?_eq_getElem second)

theorem foldlM_bringBestOf_map (starts : List Nat) (moves : List RankedMove) :
    starts.foldlM (fun lists start => bringBestOf lists.1 lists.2 start)
        (moves.map (·.move), moves.map (·.rank)) =
      .ok ((starts.foldl bringBest moves).map (·.move),
        (starts.foldl bringBest moves).map (·.rank)) := by
  induction starts generalizing moves with
  | nil => rfl
  | cons start starts ih =>
    rw [List.foldlM_cons, List.foldl_cons, bringBestOf_map, ok_bind]
    exact ih (bringBest moves start)

/-- For moves and ranks in two lists of one length, calls for all places in turn succeed and leave
the same pairs, ranked from high to low.  A single call exchanges the entries of both lists at
`start` and at the last place from there on with the highest rank, so that the places before
`start` keep what they hold; a call past the end changes nothing. -/
theorem bringBestOf_sorts (moves : List Move) (ranks : List Int)
    (paired : moves.length = ranks.length) :
    (∃ moves' ranks',
      (List.range moves.length).foldlM (fun lists start => bringBestOf lists.1 lists.2 start)
          (moves, ranks) = .ok (moves', ranks') ∧
        moves'.length = ranks'.length ∧ (moves'.zip ranks').Perm (moves.zip ranks) ∧
        ranks'.Pairwise (· ≥ ·)) ∧
    (∀ start, moves.length ≤ start → bringBestOf moves ranks start = .ok (moves, ranks)) ∧
    ∀ start < moves.length, ∃ best moves' ranks',
      bringBestOf moves ranks start = .ok (moves', ranks') ∧
        LastHighest ranks start best ∧
        Exchanged start best moves moves' ∧ Exchanged start best ranks ranks' ∧
        moves'.take start = moves.take start ∧ ranks'.take start = ranks.take start := by
  obtain ⟨ranked, rfl, rfl⟩ := exists_ranked paired
  rw [List.length_map]
  refine ⟨?_, fun start past => ?_, fun start inside => ?_⟩
  · obtain ⟨picked, perm⟩ := picked_foldl ranked ranked.length (Nat.le_refl _)
    refine ⟨_, _, foldlM_bringBestOf_map _ _, by simp, ?_,
      picked.pairwise (Nat.le_of_eq perm.length_eq)⟩
    simpa only [List.zip_map'] using perm.map _
  · rw [bringBestOf_map, bringBest_of_length_le past]
  · obtain ⟨best, last, exchanged⟩ := bringBest_exchanged inside
    exact ⟨best, _, _, bringBestOf_map ranked start, last, exchanged.map _, exchanged.map _,
      (exchanged.map _).take_eq last.left, (exchanged.map _).take_eq last.left⟩

/-- Two knight moves that rank alike, behind a pawn move that ranks lower. -/
theorem bringBestOf_sorts_tie :
    [Move.plain 12 28, Move.plain 6 21, Move.plain 1 18].length = [0, 25, (25 : Int)].length ∧
      ∃ best moves' ranks',
        bringBestOf [Move.plain 12 28, Move.plain 6 21, Move.plain 1 18] [0, 25, 25] 0 =
            .ok (moves', ranks') ∧
          LastHighest [0, 25, 25] 0 best ∧ moves'.head? = some (.plain 1 18) ∧
          ranks' = [25, 25, 0] := by
  obtain ⟨-, -, single⟩ := bringBestOf_sorts
    [Move.plain 12 28, Move.plain 6 21, Move.plain 1 18] [0, 25, 25] rfl
  obtain ⟨best, moves', ranks', brought, last, -⟩ := single 0 (by decide)
  cases brought
  exact ⟨rfl, best, _, _, rfl, last, rfl, rfl⟩

end ChessEngine
