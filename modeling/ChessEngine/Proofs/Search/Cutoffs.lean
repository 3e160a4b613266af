import ChessEngine.Proofs.Search.Learning
import Mathlib.Data.List.Induction

/-!
# What cutoffs leave behind

A move ordering keeps two moves for each ply and a score for each piece and target square, and
forgets them when it is cleared.  Said about the calls alone: the killers of a ply are the latest
quiet move that caused a cutoff there and the latest one that differs from it, and a history score
is the sum of what the calls added, up to the limit.

`MoveOrdering.Recalls` ties an ordering to these calls, the latest first: `Recalls.cutoff` is what
one call preserves, and `recalls_run` has it for a whole run.
-/

namespace ChessEngine

/-! ## Histories of calls -/

namespace OrderingCall

/-- The call forgets everything. -/
def isClear : OrderingCall → Bool
  | .clear => true
  | .cutoff .. => false

/-- The calls since the ordering was last cleared, the latest first. -/
def recent (calls : List OrderingCall) : List OrderingCall :=
  calls.reverse.takeWhile fun call => !call.isClear

/-- The quiet move that a call reports for a ply. -/
def quietAt (ply : Nat) : OrderingCall → Option Move
  | .clear => none
  | .cutoff _ m ply' _ => if m.isQuiet = true ∧ ply' = ply then some m else none

/-- The quiet moves that calls report for a ply. -/
def quietMoves (ply : Nat) (calls : List OrderingCall) : List Move := calls.filterMap (quietAt ply)

/-- What a call adds to the score of a piece and a target square: the square of the depth, if it
reports a quiet move of this piece to this square. -/
def gain (piece : Piece) (target : Square) : OrderingCall → Nat
  | .clear => 0
  | .cutoff p m _ depth =>
    if m.isQuiet = true ∧ p.pieceOn m.origin = some piece ∧ m.target = target then depth ^ 2 else 0

/-- What calls add to the score of a piece and a target square. -/
def totalGain (piece : Piece) (target : Square) (calls : List OrderingCall) : Nat :=
  (calls.map (gain piece target)).sum

section

variable {calls earlier : List OrderingCall} {p : Position} {m : Move} {ply depth : Nat}

theorem recent_append_cutoff :
    recent (calls ++ [.cutoff p m ply depth]) = .cutoff p m ply depth :: recent calls := by
  simp [recent, isClear]

theorem recent_append_clear : recent (calls ++ [.clear]) = [] := by
  simp [recent, isClear]

theorem quietMoves_cutoff (other : Nat) :
    quietMoves other (.cutoff p m ply depth :: earlier) =
      if m.isQuiet = true ∧ ply = other then m :: quietMoves other earlier
      else quietMoves other earlier := by
  by_cases reported : m.isQuiet = true ∧ ply = other
  · simp [quietMoves, quietAt, reported]
  · simp [quietMoves, quietAt, reported]

theorem totalGain_cutoff (piece : Piece) (target : Square) :
    totalGain piece target (.cutoff p m ply depth :: earlier) =
      gain piece target (.cutoff p m ply depth) + totalGain piece target earlier := by
  rw [totalGain, List.map_cons, List.sum_cons, totalGain]

end

end OrderingCall

/-! ## Killers -/

namespace Killers

/-- The first of the moves and the first that differs from it. -/
def ofMoves (moves : List Move) : Killers :=
  ⟨moves.head?, moves.find? fun m => some m ≠ moves.head?⟩

/-- To record a move is to put it in front of the others: what was first becomes second, unless it
is the same move. -/
theorem ofMoves_cons (m : Move) (moves : List Move) :
    ofMoves (m :: moves) = (ofMoves moves).record m := by
  cases moves with
  | nil => simp [ofMoves, record]
  | cons latest earlier =>
    by_cases again : latest = m
    · simp [ofMoves, record, again]
    · simp [ofMoves, record, again]

end Killers

namespace MoveOrdering

open OrderingCall

variable {o : MoveOrdering} {m : Move} {piece : Piece} {target : Square} {ply depth : Nat}
  {earlier : List OrderingCall}

/-! ## One call -/

theorem killersAt_of_le (past : 64 ≤ ply) : o.killersAt ply = .none := by
  rw [killersAt, Vector.getElem?_eq_none past]
  rfl

theorem historySlot_inj {piece' : Piece} {target' : Square} :
    historySlot piece target = historySlot piece' target' ↔ piece = piece' ∧ target = target' := by
  constructor
  · intro same
    have places : 64 * piece.index + target.val = 64 * piece'.index + target'.val :=
      congrArg Fin.val same
    have left := target.isLt
    have right := target'.isLt
    have numbers : piece.index = piece'.index := by omega
    have pieces : some piece = some piece' := by
      rw [← Piece.ofIndex?_index, numbers, Piece.ofIndex?_index]
    exact ⟨Option.some.inj pieces, Fin.ext (by omega)⟩
  · intro ⟨samePiece, sameTarget⟩
    rw [samePiece, sameTarget]

theorem killersAt_recordKiller_of_ne {other : Nat} (apart : ply ≠ other) :
    (o.recordKiller m ply).killersAt other = o.killersAt other := by
  by_cases inside : ply < 64
  · rw [killersAt_recordKiller inside, if_neg apart]
  · rw [recordKiller, dif_neg inside]

theorem killersAt_recordHistory (o : MoveOrdering) (p : Position) (m : Move) (depth ply : Nat) :
    (o.recordHistory p m depth).killersAt ply = o.killersAt ply := by
  unfold recordHistory
  split
  · rfl
  · rfl

theorem historyScore_recordKiller (o : MoveOrdering) (m : Move) (ply : Nat) (piece : Piece)
    (target : Square) :
    (o.recordKiller m ply).historyScore piece target = o.historyScore piece target := by
  unfold recordKiller
  split
  · rfl
  · rfl

theorem historyScore_recordHistory (o : MoveOrdering) (p : Position) (m : Move) (depth : Nat)
    (piece : Piece) (target : Square) :
    (o.recordHistory p m depth).historyScore piece target =
      if p.pieceOn m.origin = some piece ∧ m.target = target then
        min (o.historyScore piece target + (depth ^ 2 : Nat)) historyLimit
      else o.historyScore piece target := by
  unfold recordHistory
  cases p.pieceOn m.origin with
  | none => simp
  | some mover =>
    simp only [historyScore, Placement.get_set, historySlot_inj, Option.some_inj, Nat.pow_two]
    by_cases same : mover = piece ∧ m.target = target
    · rw [if_pos same, if_pos same, same.1, same.2]
    · rw [if_neg same, if_neg same]

/-! ## Orderings and their histories -/

/-- The ordering is what the calls since it was last cleared make it, the latest call first. -/
structure Recalls (o : MoveOrdering) (earlier : List OrderingCall) : Prop where
  killers : ∀ ply < 64, o.killersAt ply = .ofMoves (quietMoves ply earlier)
  history : ∀ piece target,
    o.historyScore piece target = min historyLimit (totalGain piece target earlier)

theorem Recalls.fresh : fresh.Recalls [] where
  killers ply _ := killersAt_fresh ply
  history piece target := by
    rw [historyScore, get_history_fresh]
    rfl

/-- One cutoff joins the history. -/
theorem Recalls.cutoff (recalls : o.Recalls earlier) (p : Position) (m : Move) (ply depth : Nat) :
    (o.recordCutoff p m ply depth).Recalls (.cutoff p m ply depth :: earlier) := by
  by_cases quiet : m.isQuiet = true
  · rw [recordCutoff, if_pos quiet]
    refine ⟨fun other inside => ?_, fun piece target => ?_⟩
    · rw [killersAt_recordHistory, quietMoves_cutoff]
      by_cases here : ply = other
      · rw [if_pos ⟨quiet, here⟩, Killers.ofMoves_cons, ← recalls.killers other inside, ← here,
          killersAt_recordKiller (here ▸ inside), if_pos rfl]
      · rw [killersAt_recordKiller_of_ne here, if_neg fun both => here both.2,
          recalls.killers other inside]
    · rw [historyScore_recordHistory, historyScore_recordKiller, recalls.history, totalGain_cutoff,
        gain]
      by_cases named : p.pieceOn m.origin = some piece ∧ m.target = target
      · rw [if_pos named, if_pos ⟨quiet, named⟩]
        -- the limit of every sum on the way is the limit of the last one: no gain is negative
        omega
      · rw [if_neg named, if_neg fun both => named both.2, Nat.zero_add]
  · rw [recordCutoff, if_neg quiet]
    refine ⟨fun other inside => ?_, fun piece target => ?_⟩
    · rw [quietMoves_cutoff, if_neg fun both => quiet both.1, recalls.killers other inside]
    · rw [totalGain_cutoff, gain, if_neg fun both => quiet both.1, Nat.zero_add,
        recalls.history]

theorem recalls_run (calls : List OrderingCall) : (run calls).Recalls (recent calls) := by
  induction calls using List.reverseRecOn with
  | nil => exact .fresh
  | append_singleton calls last ih =>
    have step : run (calls ++ [last]) = (run calls).call last := by
      simp [run]
    rw [step]
    cases last with
    | clear =>
      rw [recent_append_clear]
      exact .fresh
    | cutoff p m ply depth =>
      rw [recent_append_cutoff]
      exact ih.cutoff p m ply depth

/-- After any calls on a fresh ordering the killers of a ply are the latest quiet move that caused
a cutoff there since the ordering was last cleared, and the latest one there that differs from it;
beyond the last ply there are none.  They are never the same move, and never captures or promotions.
A history score is the sum of the squared depths of the quiet cutoffs by the piece with a move to
the square, but at most 700000.  As long as depths fit into a byte, no step leaves a word of 32
bits. -/
theorem learned_of_run (calls : List OrderingCall) :
    (∀ ply, 64 ≤ ply → (run calls).killersAt ply = ⟨none, none⟩) ∧
    (∀ ply < 64,
      ((run calls).killersAt ply).first = (quietMoves ply (recent calls)).head? ∧
      ((run calls).killersAt ply).second = (quietMoves ply (recent calls)).find?
        fun m => some m ≠ ((run calls).killersAt ply).first) ∧
    (∀ ply, ((run calls).killersAt ply).Proper) ∧
    (∀ piece target, (run calls).historyScore piece target =
      min 700000 (totalGain piece target (recent calls) : Int)) ∧
    ((∀ p m ply depth, OrderingCall.cutoff p m ply depth ∈ calls → depth ≤ 255) →
      checkedRun calls = some (run calls)) := by
  have recalls := recalls_run calls
  have tempered := Tempered.run calls
  refine ⟨fun ply => killersAt_of_le, fun ply inside => ?_, tempered.killers, recalls.history,
    Tempered.fresh.foldlM_checkedCall⟩
  rw [recalls.killers ply inside]
  exact ⟨rfl, rfl⟩

/-- A killer that comes back changes places with the other one. -/
example [ZobristKeys] :
    (run [.cutoff .empty (.plain 6 21) 3 1, .cutoff .empty (.plain 11 19) 3 1,
      .cutoff .empty (.plain 6 21) 3 1]).killersAt 3 = ⟨some (.plain 6 21), some (.plain 11 19)⟩ :=
  rfl

end MoveOrdering

end ChessEngine
