import ChessEngine.Proofs.Placement.Tables
import ChessEngine.Proofs.Search.Checked
import ChessEngine.Search.Ordering

/-!
# What a move ordering learns

The bands of ranks stay apart only as long as history scores stay below the killers
and as long as no capture or promotion is taken for a killer.  `Tempered` says both
of an ordering; it holds of a fresh one, and every call preserves it
(`Tempered.call`).  It also keeps what is added to a history score within its word.
-/

namespace ChessEngine

/-! ## Killers -/

/-- Killers are quiet and different. -/
structure Killers.Proper (k : Killers) : Prop where
  first : ∀ m, k.first = some m → m.isQuiet = true
  second : ∀ m, k.second = some m → m.isQuiet = true
  distinct : ∀ m, k.first = some m → k.second ≠ some m

namespace Killers

variable {k : Killers} {m : Move}

theorem Proper.none : Killers.none.Proper := by
  constructor <;> rintro m ⟨⟩

theorem Proper.record (proper : k.Proper) (quiet : m.isQuiet = true) : (k.record m).Proper := by
  unfold Killers.record
  split
  · exact proper
  · next other =>
    refine ⟨?_, proper.first, ?_⟩
    · rintro _ ⟨⟩
      exact quiet
    · rintro _ ⟨⟩
      exact other

end Killers

/-! ## Killers and history scores -/

namespace MoveOrdering

/-- History scores stay within their band, and killers are proper. -/
structure Tempered (o : MoveOrdering) : Prop where
  history : ∀ i : Fin 768, 0 ≤ o.history.get i ∧ o.history.get i ≤ historyLimit
  killers : ∀ ply, (o.killersAt ply).Proper

variable {o : MoveOrdering} {m : Move} {ply depth : Nat} {calls : List OrderingCall}

theorem killersAt_recordKiller (inside : ply < 64) (other : Nat) :
    (o.recordKiller m ply).killersAt other =
      if ply = other then (o.killersAt ply).record m else o.killersAt other := by
  rw [recordKiller, dif_pos inside, killersAt, killersAt, killersAt, Vector.getElem?_set]
  split
  · rw [Vector.getElem?_eq_getElem inside]
    rfl
  · rfl

theorem get_history_fresh (i : Fin 768) : fresh.history.get i = 0 := get_replicate 0 i

theorem killersAt_fresh (ply : Nat) : fresh.killersAt ply = .none := by
  rw [killersAt, fresh, Vector.getElem?_replicate]
  split <;> rfl

theorem Tempered.fresh : fresh.Tempered where
  history i := by
    rw [get_history_fresh]
    decide
  killers ply := by
    rw [killersAt_fresh]
    exact .none

theorem Tempered.recordKiller (tempered : o.Tempered) (quiet : m.isQuiet = true) (ply : Nat) :
    (o.recordKiller m ply).Tempered := by
  by_cases inside : ply < 64
  · refine ⟨?_, fun other => ?_⟩
    · rw [MoveOrdering.recordKiller, dif_pos inside]
      exact tempered.history
    · rw [killersAt_recordKiller inside]
      split
      · exact (tempered.killers ply).record quiet
      · exact tempered.killers other
  · rw [MoveOrdering.recordKiller, dif_neg inside]
    exact tempered

theorem Tempered.recordHistory (tempered : o.Tempered) (p : Position) (m : Move) (depth : Nat) :
    (o.recordHistory p m depth).Tempered := by
  unfold MoveOrdering.recordHistory
  split
  · next piece _ =>
    refine ⟨fun i => ?_, tempered.killers⟩
    dsimp only
    rw [Placement.get_set]
    split
    · have before := (tempered.history (historySlot piece m.target)).1
      have gain := Int.natCast_nonneg (depth * depth)
      have limit : 0 ≤ historyLimit := by decide
      exact ⟨le_min (by omega) limit, min_le_right _ _⟩
    · exact tempered.history i
  · exact tempered

theorem Tempered.call (tempered : o.Tempered) (call : OrderingCall) : (o.call call).Tempered := by
  cases call with
  | clear => exact .fresh
  | cutoff p m ply depth =>
    show (o.recordCutoff p m ply depth).Tempered
    unfold recordCutoff
    split
    · next quiet => exact (tempered.recordKiller quiet ply).recordHistory p m depth
    · exact tempered

theorem Tempered.foldl_call (tempered : o.Tempered) :
    (calls.foldl MoveOrdering.call o).Tempered := by
  induction calls generalizing o with
  | nil => exact tempered
  | cons call rest ih => exact ih (tempered.call call)

theorem Tempered.run (calls : List OrderingCall) : (run calls).Tempered :=
  Tempered.fresh.foldl_call

/-! ## Learning in words -/

theorem checkedGain_eq_some {score : Int} (bounds : 0 ≤ score ∧ score ≤ historyLimit)
    (few : depth ≤ 255) :
    checkedGain score depth = some (min (score + (depth * depth : Nat)) historyLimit) := by
  have square : ((depth * depth : Nat) : Int) ≤ 65025 := Int.ofNat_le.2 (Nat.mul_le_mul few few)
  have nonneg := Int.natCast_nonneg (depth * depth)
  have limit : historyLimit = 700000 := rfl
  rw [checkedGain, ← Nat.cast_mul, fit?_of_bounds (by omega) (by omega), Option.bind_eq_bind,
    Option.bind_some, fit?_of_bounds (by omega) (by omega)]
  rfl

theorem Tempered.checkedHistory_eq_some (tempered : o.Tempered) (p : Position) (m : Move)
    (few : depth ≤ 255) : o.checkedHistory p m depth = some (o.recordHistory p m depth) := by
  unfold checkedHistory MoveOrdering.recordHistory
  cases p.pieceOn m.origin with
  | none => rfl
  | some piece =>
    have bounds := tempered.history (historySlot piece m.target)
    rw [Option.elim_some, historyScore, checkedGain_eq_some bounds few]
    rfl

theorem Tempered.checkedCall_eq_some (tempered : o.Tempered) {call : OrderingCall}
    (few : ∀ p m ply depth, call = .cutoff p m ply depth → depth ≤ 255) :
    o.checkedCall call = some (o.call call) := by
  cases call with
  | clear => rfl
  | cutoff p m ply depth =>
    have less := few p m ply depth rfl
    show (if m.isQuiet then _ else _) = some (o.recordCutoff p m ply depth)
    unfold recordCutoff
    split
    · next quiet => exact (tempered.recordKiller quiet ply).checkedHistory_eq_some p m less
    · rfl

theorem Tempered.foldlM_checkedCall (tempered : o.Tempered)
    (few : ∀ p m ply depth, OrderingCall.cutoff p m ply depth ∈ calls → depth ≤ 255) :
    calls.foldlM checkedCall o = some (calls.foldl MoveOrdering.call o) := by
  induction calls generalizing o with
  | nil => rfl
  | cons call rest ih =>
    have first : o.checkedCall call = some (o.call call) :=
      tempered.checkedCall_eq_some fun p m ply depth same =>
        few p m ply depth (same ▸ List.mem_cons_self)
    rw [List.foldlM_cons, first, Option.bind_eq_bind, Option.bind_some]
    exact ih (tempered.call call) fun p m ply depth later =>
      few p m ply depth (List.mem_cons_of_mem _ later)

end MoveOrdering

end ChessEngine
