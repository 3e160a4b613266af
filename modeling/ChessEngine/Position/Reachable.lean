import ChessEngine.Generator.Pseudo
import ChessEngine.Position.Make
import ChessEngine.Position.Setup

/-!
# Reachable positions

A caller may make moves that were generated for the side to move, accepted or
not, and take moves back.  `Position.Turn` is one such call, `Position.Reaches`
its closure, and `Position.Reachable` starts from an accepted setup.
`Position.Played` follows a list of accepted moves, and `Position.successors`
lists where one accepted move can lead.
-/

namespace ChessEngine

namespace Position

variable [ZobristKeys]

/-- One call of a caller that keeps to generated moves. -/
inductive Turn : Position → Position → Prop
  | make {p q : Position} {m : Move} {accepted : Bool} :
    m ∈ p.pseudoMoves → p.make m = .ok (accepted, q) → Turn p q
  | takeBack {p q : Position} : p.takeBack = .ok q → Turn p q

/-- Any number of such calls. -/
inductive Reaches (p : Position) : Position → Prop
  | refl : Reaches p p
  | turn {q r : Position} : Reaches p q → Turn q r → Reaches p r

/-- Reached from a setup that was accepted. -/
def Reachable (p : Position) : Prop :=
  ∃ (setup : Setup) (start : Position), setup.toPosition = .ok start ∧ Reaches start p

/-- The listed moves were generated and accepted one after the other. -/
inductive Played : Position → List Move → Position → Prop
  | nil {p : Position} : Played p [] p
  | cons {p q r : Position} {m : Move} {rest : List Move} :
    m ∈ p.pseudoMoves → p.make m = .ok (true, q) → Played q rest r → Played p (m :: rest) r

/-- The position after a move, if the legality gate accepts it. -/
def after? (p : Position) (m : Move) : Option Position :=
  match p.make m with
  | .ok (true, q) => some q
  | _ => none

/-- The positions after the accepted moves, in the order of generation. -/
def successors (p : Position) : List Position := p.pseudoMoves.filterMap p.after?

theorem after?_eq_some {p q : Position} {m : Move} :
    p.after? m = some q ↔ p.make m = .ok (true, q) := by
  rw [after?]
  split
  next r h => rw [h]; simp
  next h =>
    constructor
    · intro hn
      cases hn
    · intro hm
      exact absurd hm (h q)

theorem mem_successors {p q : Position} :
    q ∈ p.successors ↔ ∃ m ∈ p.pseudoMoves, p.make m = .ok (true, q) := by
  simp only [successors, List.mem_filterMap, after?_eq_some]

theorem Reaches.trans {p q r : Position} (h : Reaches p q) (h' : Reaches q r) : Reaches p r := by
  induction h' with
  | refl => exact h
  | turn _ step ih => exact .turn ih step

theorem Played.reaches {p q : Position} {moves : List Move} (h : Played p moves q) :
    Reaches p q := by
  induction h with
  | nil => exact .refl
  | cons generated made _ ih => exact (Reaches.turn .refl (.make generated made)).trans ih

theorem Reachable.of_reaches {p q : Position} (h : Reachable p) (h' : Reaches p q) :
    Reachable q := by
  obtain ⟨setup, start, hs, hr⟩ := h
  exact ⟨setup, start, hs, hr.trans h'⟩

end Position

end ChessEngine
