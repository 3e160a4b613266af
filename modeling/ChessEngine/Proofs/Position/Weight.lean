import ChessEngine.Proofs.Position.Kings
import Mathlib.Algebra.Order.BigOperators.Group.List
import Mathlib.Algebra.Order.Ring.Int

/-!
# What moves cannot add to the board

A `Weight` values pieces in such a way that no pawn gains by promotion.  Then no
move gains either: captures only take away, and whatever a move puts on a square
weighs no more than what left another.  So the total over the board never grows
along a line of moves (`Follows.total_le`), however long it is.

Two weights matter.  `Weight.pawns` counts the pawns of a side, and
`Weight.material` values its pieces, a pawn like the queen it may become.
-/

namespace ChessEngine

theorem foldl_add_eq_sum {α : Type} (f : α → Int) (l : List α) :
    l.foldl (fun total a => total + f a) 0 = (l.map f).sum := by
  rw [List.sum_eq_foldl, List.foldl_map]

/-- A value of each piece, such that a pawn promotes to nothing of more value. -/
structure Weight where
  of : Piece → Int
  nonneg : ∀ piece, 0 ≤ of piece
  promotion : ∀ c, ∀ k ∈ promotionKinds, of ⟨c, k⟩ ≤ of ⟨c, .pawn⟩

namespace Weight

/-- The pieces of side `c` by their material value, a pawn by the value of a queen. -/
def material (c : Color) : Weight where
  of piece :=
    if piece.color = c then if piece.kind = .pawn then Kind.queen.value else piece.value else 0
  nonneg piece := by
    rcases piece with ⟨d, k⟩
    cases c <;> cases d <;> cases k <;> decide
  promotion d k listed := by
    cases c <;> cases d <;> revert k <;> decide

/-- One for each pawn of side `c`. -/
def pawns (c : Color) : Weight where
  of piece := if piece = ⟨c, .pawn⟩ then 1 else 0
  nonneg piece := by split <;> decide
  promotion d k listed := by
    cases c <;> cases d <;> revert k <;> decide

variable (w : Weight)

/-- The weight of what stands on a square. -/
def on (holder : Option Piece) : Int := holder.elim 0 w.of

/-- The weight of all pieces of a board. -/
def total (board : Square → Option Piece) : Int := (Square.all.map fun s => w.on (board s)).sum

theorem on_nonneg (holder : Option Piece) : 0 ≤ w.on holder := by
  cases holder with
  | none => exact le_refl 0
  | some piece => exact w.nonneg piece

theorem total_update (board : Square → Option Piece) (s : Square) (holder : Option Piece) :
    w.total (Function.update board s holder) + w.on (board s) = w.total board + w.on holder := by
  have exchange := Square.sum_exchange (s := s) (f := fun t => w.on (board t))
    (g := fun t => w.on (Function.update board s holder t))
    fun t other => by rw [Function.update_of_ne other]
  rw [foldl_add_eq_sum, foldl_add_eq_sum, Function.update_self] at exchange
  exact exchange

/-- Taking something from one square and putting no more on another adds nothing. -/
theorem total_carry_le {board : Square → Option Piece} {origin : Square} (target : Square)
    {holder : Option Piece} (gainless : w.on holder ≤ w.on (board origin)) :
    w.total (Function.update (Function.update board origin none) target holder) ≤
      w.total board := by
  have emptied := w.total_update board origin none
  have placed := w.total_update (Function.update board origin none) target holder
  have covered := w.on_nonneg (Function.update board origin none target)
  have nothing : w.on none = 0 := rfl
  omega

theorem total_clear_le (board : Square → Option Piece) (s : Square) :
    w.total (Function.update board s none) ≤ w.total board := by
  have emptied := w.total_update board s none
  have covered := w.on_nonneg (board s)
  have nothing : w.on none = 0 := rfl
  omega

end Weight

/-! ## The weight of the board after a move -/

namespace Basis

variable {b : Basis} {mover : Piece} {m : Move}

/-- Only a pawn promotes, and to a piece of its own side. -/
theorem Shape.promotion (shape : b.Shape mover m) {piece : Piece}
    (promoted : m.promoted = some piece) :
    mover.kind = .pawn ∧ piece.color = mover.color ∧ piece.kind ∈ promotionKinds := by
  cases shape with
  | ordinary ordinary =>
    obtain ⟨pawn, own, listed⟩ := ordinary.promoted piece promoted
    exact ⟨pawn, own.trans ordinary.own.symm, listed⟩
  | enPassant => cases promoted
  | castle => cases promoted

theorem Shape.on_arrival_le (shape : b.Shape mover m) (w : Weight) :
    w.on (m.promoted.or (some mover)) ≤ w.of mover := by
  cases promoted : m.promoted with
  | none => exact le_refl _
  | some piece =>
    obtain ⟨pawn, own, listed⟩ := shape.promotion promoted
    rcases mover with ⟨c, k⟩
    rcases piece with ⟨d, l⟩
    cases pawn
    cases own
    exact w.promotion _ l listed

theorem Shape.total_boardAside_le (shape : b.Shape mover m) (sound : b.Sound) (w : Weight) :
    w.total (b.boardAside m) ≤ w.total b.board := by
  cases shape with
  | ordinary ordinary => rw [ordinary.boardAside_eq]
  | @enPassant origin target _ _ set =>
    obtain ⟨victim, behind, -⟩ := (sound.passed target set).pawn
    rw [boardAside_enPassant behind]
    exact w.total_clear_le b.board victim
  | castle =>
    rw [boardAside_castle]
    exact w.total_carry_le _ (le_refl _)

theorem Shape.total_boardAfter_le (shape : b.Shape mover m) (sound : b.Sound) (w : Weight) :
    w.total (b.boardAfter mover m) ≤ w.total b.board := by
  have gainless : w.on (m.promoted.or (some mover)) ≤ w.on (b.boardAside m m.origin) := by
    rw [(shape.carries sound).origin_aside]
    exact shape.on_arrival_le w
  exact (w.total_carry_le m.target gainless).trans (shape.total_boardAside_le sound w)

end Basis

namespace Position

/-! ## Along a line of moves -/

section

variable [ZobristKeys] {start p q : Position} {m : Move}

theorem Firm.total_le_of_apply (firm : p.Firm) (member : m ∈ p.pseudoMoves)
    (applied : p.apply m = .ok q) (w : Weight) : w.total q.pieceOn ≤ w.total p.pieceOn := by
  obtain ⟨mover, shape, shows⟩ := firm.shows_of_apply member applied
  rw [shows.pieceOn]
  exact shape.total_boardAfter_le firm.sound w

theorem Follows.total_le (grounded : start.Grounded) (follows : Follows start p) (w : Weight) :
    w.total p.pieceOn ≤ w.total start.pieceOn := by
  induction follows with
  | start => exact le_refl _
  | made _ _ line member made ih =>
    have firm := (line.grounded grounded).firm
    have applied := firm.applied_of_make member made
    exact (firm.total_le_of_apply member applied w).trans ih

end

end Position

/-! ## What the tables show of it -/

namespace Placement

variable {p : Placement} {c : Color}

theorem valueOn_nonneg (s : Square) : 0 ≤ p.valueOn c s := by
  unfold valueOn
  split
  · next piece _ =>
    rcases piece with ⟨d, k⟩
    cases c <;> cases d <;> cases k <;> decide
  · exact le_refl 0

theorem valueOn_le (s : Square) : p.valueOn c s ≤ (Weight.material c).on (p.pieceOn s) := by
  unfold valueOn
  cases p.pieceOn s with
  | none => exact le_refl 0
  | some piece =>
    rcases piece with ⟨d, k⟩
    cases c <;> cases d <;> cases k <;> decide

theorem Tallied.material_le (tallied : p.Tallied) (c : Color) :
    p.material.get c ≤ (Weight.material c).total p.pieceOn := by
  rw [tallied.material, countedMaterial, foldl_add_eq_sum]
  exact List.sum_le_sum fun s _ => valueOn_le s

/-- A side with a king has at least the king's value. -/
theorem Tallied.le_material (tallied : p.Tallied) {s : Square}
    (king : p.pieceOn s = some ⟨c, .king⟩) : 20000 ≤ p.material.get c := by
  have value : p.valueOn c s = 20000 := by
    rw [valueOn, king]
    exact if_pos rfl
  rw [tallied.material, countedMaterial, foldl_add_eq_sum, ← value]
  refine List.single_le_sum ?_ _ (List.mem_map_of_mem (Square.mem_all s))
  simp only [List.forall_mem_map]
  exact fun t _ => valueOn_nonneg t

theorem total_pawns (c : Color) :
    (Weight.pawns c).total p.pieceOn = Square.all.countP (p.holds ⟨c, .pawn⟩) := by
  unfold Weight.total
  induction Square.all with
  | nil => rfl
  | cons s rest ih =>
    have here : (Weight.pawns c).on (p.pieceOn s) =
        if p.holds ⟨c, .pawn⟩ s = true then 1 else 0 := by
      rw [holds]
      cases p.pieceOn s with
      | none => rfl
      | some piece => simp [Weight.on, Weight.pawns]
    rw [List.map_cons, List.sum_cons, ih, here, List.countP_cons]
    split <;> simp [Int.add_comm]

theorem Tallied.onFile_le (tallied : p.Tallied) (c : Color) (f : Fin 8) :
    ((p.pawnsOnFile.get c).get f : Int) ≤ (Weight.pawns c).total p.pieceOn := by
  rw [tallied.onFile, total_pawns, Int.ofNat_le]
  exact List.countP_mono_left fun s _ counted => (Bool.and_eq_true .. ▸ counted).1

theorem Tallied.control_le (tallied : p.Tallied) (c : Color) (t : Square) :
    ((p.pawnControl.get c).get t : Int) ≤ (Weight.pawns c).total p.pieceOn := by
  rw [tallied.control, total_pawns, Int.ofNat_le]
  exact List.countP_mono_left fun s _ counted => (Bool.and_eq_true .. ▸ counted).1

end Placement

end ChessEngine
