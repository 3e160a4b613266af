import ChessEngine.Proofs.Attack.Line
import Mathlib.Data.Fintype.Basic

/-!
# The lines of the board

Ranks, files and the two kinds of diagonals are the four axes along which sliders move.  Each
axis cuts the board into lines, and every square has a place on its line.  A slider that sees a
square stands on the same line, and nothing stands between their places (`Axis.views_of_sees`).
From one side of a square it is therefore seen by one piece at most (`Axis.Views.unique`).
-/

namespace ChessEngine

/-- The directions of the lines across the board: ranks, files, and the diagonals that rise or
fall to the right. -/
inductive Axis where
  | rank
  | file
  | rising
  | falling
deriving DecidableEq

namespace Axis

instance : Fintype Axis where
  elems := {rank, file, rising, falling}
  complete a := by cases a <;> decide

/-- The number of the line through a square. -/
def line : Axis → Square → Nat
  | rank, s => s.rank
  | file, s => s.file
  | rising, s => s.file + 7 - s.rank
  | falling, s => s.file + s.rank

/-- How far along its line a square lies, seen from the one end of the line or from the other. -/
def place (a : Axis) (back : Bool) (s : Square) : Nat :=
  let i := match a with
    | file => s.rank.val
    | _ => s.file.val
  if back then 7 - i else i

/-- The step from one place of a line to the next. -/
def step (a : Axis) (back : Bool) : Step :=
  let d : Int := if back then -1 else 1
  match a with
  | rank => (d, 0)
  | file => (0, d)
  | rising => (d, d)
  | falling => (d, -d)

/-- The kinds of piece that slide along an axis. -/
def kinds : Axis → List Kind
  | rank | file => [.rook, .queen]
  | rising | falling => [.bishop, .queen]

variable {a : Axis} {back : Bool} {n : Nat} {s t u : Square}

theorem line_lt (a : Axis) (s : Square) : a.line s < 15 := by
  have := s.rank.isLt
  have := s.file.isLt
  cases a <;> simp only [line] <;> omega

theorem place_true (a : Axis) (s : Square) : a.place true s = 7 - a.place false s := rfl

theorem place_le (a : Axis) (back : Bool) (s : Square) : a.place back s ≤ 7 := by
  have := s.rank.isLt
  have := s.file.isLt
  cases a <;> cases back <;> simp only [place, if_true, if_false, Bool.false_eq_true] <;> omega

/-- A square is known by its line and its place. -/
theorem eq_of_line_place (back : Bool) (line : a.line s = a.line t)
    (place : a.place back s = a.place back t) : s = t := by
  have := s.rank.isLt
  have := s.file.isLt
  have := t.rank.isLt
  have := t.file.isLt
  rw [Square.eq_iff_rank_file]
  cases a <;> cases back <;>
    simp only [Axis.line, Axis.place, if_true, if_false, Bool.false_eq_true] at line place <;>
    omega

theorem of_leads (leads : (a.step back).Leads n s t) :
    a.line t = a.line s ∧ a.place back t = a.place back s + n := by
  have := s.rank.isLt
  have := s.file.isLt
  have := t.rank.isLt
  have := t.file.isLt
  rw [Step.leads_iff] at leads
  cases a <;> cases back <;>
    simp only [step, line, place, if_true, if_false, Bool.false_eq_true] at leads ⊢ <;>
    omega

/-- Every step of a slider goes along an axis of its kind. -/
theorem exists_step {k : Kind} {step : Step} (listed : step ∈ Step.sliding k) :
    ∃ a : Axis, k ∈ a.kinds ∧ ∃ back, a.step back = step := by
  revert step
  cases k <;> decide

/-- From `s` on, `t` comes later on the same line, and the squares in between are not occupied. -/
structure Views (a : Axis) (back : Bool) (occupied : Bitboard) (s t : Square) : Prop where
  line : a.line t = a.line s
  ahead : a.place back s < a.place back t
  free : ∀ u, a.line u = a.line s → a.place back s < a.place back u →
    a.place back u < a.place back t → ¬ u ∈ occupied

instance (a : Axis) (back : Bool) (occupied : Bitboard) (s t : Square) :
    Decidable (a.Views back occupied s t) :=
  decidable_of_iff (a.line t = a.line s ∧ a.place back s < a.place back t ∧
      ∀ u, a.line u = a.line s → a.place back s < a.place back u →
        a.place back u < a.place back t → ¬ u ∈ occupied)
    ⟨fun ⟨line, ahead, free⟩ => ⟨line, ahead, free⟩, fun ⟨line, ahead, free⟩ => ⟨line, ahead, free⟩⟩

theorem views_of_sees {occupied : Bitboard} (positive : 0 < n)
    (sees : (a.step back).Sees occupied n s t) : a.Views back occupied s t := by
  obtain ⟨leads, free⟩ := sees
  obtain ⟨line, place⟩ := of_leads leads
  refine ⟨line, by omega, fun u level after before => ?_⟩
  obtain ⟨q, passed, empty⟩ := free (a.place back u - a.place back s) (by omega) (by omega)
  obtain ⟨level', place'⟩ := of_leads passed
  rwa [eq_of_line_place back (level.trans level'.symm) (by omega)]

/-- Of two occupied squares on the same side of a third the nearer one hides the other. -/
theorem Views.unique {occupied : Bitboard} (left : a.Views back occupied s u)
    (right : a.Views back occupied t u) (standsLeft : s ∈ occupied) (standsRight : t ∈ occupied) :
    s = t := by
  have level : a.line s = a.line t := left.line.symm.trans right.line
  rcases Nat.lt_trichotomy (a.place back s) (a.place back t) with before | same | after
  · exact absurd standsRight (left.free t level.symm before right.ahead)
  · exact eq_of_line_place back level same
  · exact absurd standsLeft (right.free s level after left.ahead)

end Axis

end ChessEngine
