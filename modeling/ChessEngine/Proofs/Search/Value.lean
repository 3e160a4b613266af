import ChessEngine.Search.Minimax

/-!
# Values and windows

A search answers a value only as far as it lies in its window.  `Agrees` says so
by thresholds: seen from any number of the window, both values lie on the same
side.  In this form windows can be turned around and narrowed, and
`minimax_le_iff` gives the value of a node by the values of its successors.
-/

namespace ChessEngine

/-- Two values cannot be told apart by comparing them with the numbers of a window. -/
def Agrees (alpha beta v w : Int) : Prop := ∀ a, alpha ≤ a → a < beta → (v ≤ a ↔ w ≤ a)

namespace Agrees

variable {alpha beta v w : Int}

theorem refl : Agrees alpha beta v v := fun _ _ _ => Iff.rfl

theorem symm (agrees : Agrees alpha beta v w) : Agrees alpha beta w v := fun a low high =>
  (agrees a low high).symm

/-- Seen from the other side, the window is turned around. -/
theorem neg (agrees : Agrees (-beta) (-alpha) v w) : Agrees alpha beta (-v) (-w) := by
  intro a low high
  have turned := agrees (-a - 1) (by omega) (by omega)
  omega

/-- A value at or above the window is nothing but that. -/
theorem of_le (left : beta ≤ v) (right : beta ≤ w) : Agrees alpha beta v w := by
  intro a low high
  exact iff_of_false (by omega) (by omega)

theorem le_right (agrees : Agrees alpha beta v w) (window : alpha < beta) (high : beta ≤ v) :
    beta ≤ w := by
  have last := agrees (beta - 1) (by omega) (by omega)
  omega

/-- Strictly inside the window there is nothing to tell apart. -/
theorem eq_of_inside (agrees : Agrees alpha beta v w) (low : alpha < v) (high : v < beta) :
    v = w := by
  have here := agrees v (by omega) high
  have below := agrees (v - 1) (by omega) (by omega)
  omega

end Agrees

namespace Position

variable [ZobristKeys] {p : Position} {scorer : Scorer} {depth : Nat}

/-! ## The value of a node -/

omit [ZobristKeys] in
theorem foldl_max_le {α : Type} {f : α → Int} {a : Int} :
    ∀ {l : List α} {first : Int},
      l.foldl (fun best r => max best (f r)) first ≤ a ↔ first ≤ a ∧ ∀ r ∈ l, f r ≤ a
  | [], first => by simp
  | r :: l, first => by
      rw [List.foldl_cons, foldl_max_le, List.forall_mem_cons, Int.max_le, and_assoc]

theorem minimax_of_drawn (drawn : p.isDrawn = true) : p.minimax scorer (depth + 1) = 0 := by
  rw [minimax, if_pos drawn]

theorem minimax_of_maxPly_le (undecided : p.isDrawn = false) (last : maxPly ≤ p.ply) :
    p.minimax scorer (depth + 1) = scorer p := by
  rw [minimax, undecided, if_neg Bool.false_ne_true, if_pos last]

theorem minimax_of_stuck (undecided : p.isDrawn = false) (inside : p.ply < maxPly)
    (stuck : p.successors = []) :
    p.minimax scorer (depth + 1) = if p.inCheck p.side then -mateScore + p.ply else 0 := by
  rw [minimax, undecided, if_neg Bool.false_ne_true, if_neg (by omega), stuck]

/-- The value of a node with legal moves is the best that its successors are worth. -/
theorem minimax_le_iff (undecided : p.isDrawn = false) (inside : p.ply < maxPly)
    (moves : p.successors ≠ []) {a : Int} :
    p.minimax scorer (depth + 1) ≤ a ↔ ∀ q ∈ p.successors, -q.minimax scorer depth ≤ a := by
  rw [minimax, undecided, if_neg Bool.false_ne_true, if_neg (by omega)]
  cases successors : p.successors with
  | nil => exact absurd successors moves
  | cons q rest => rw [foldl_max_le, List.forall_mem_cons]

end Position

end ChessEngine
