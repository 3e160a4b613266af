import ChessEngine.Position.Edit
import ChessEngine.Proofs.Position.Coherence
import ChessEngine.Proofs.Position.Safety

/-!
# Editing the board

Pieces are put down, taken away and moved by three primitives, on any board: with any number of
pieces of a kind, and with pawns on any rank.  The primitives keep sets, tallies and hash in step
with the index, however many of them follow each other (`Counted.edits`).  The one square that is
kept for a king cannot keep up with several kings.  An audit expects the highest, and the
primitives note the last one put down, and none once one was taken away.  So an edit passes the
audit unless it moves a king of a side that has another one above it (`audit_of_edit`).
-/

namespace ChessEngine

namespace Edit

variable (board : Square → Option Piece)

/-- The board after an edit. -/
def after : Edit → Square → Option Piece
  | add piece s => Function.update board s (some piece)
  | remove _ s => Function.update board s none
  | relocate origin target =>
    Function.update (Function.update board origin none) target (board origin)

/-- If an edit moves a king, then no king of this side stands above it afterwards; if it takes a
king away, then none is left. -/
def Unrivalled (e : Edit) : Prop :=
  ∀ c, e.moved board = some ⟨c, .king⟩ → ∀ u, e.after board u = some ⟨c, .king⟩ →
    ∃ s, e.arrival = some s ∧ u ≤ s

variable {board} {e : Edit} {s u : Square} {piece : Piece}

theorem after_arrival (arrives : e.arrival = some s) : e.after board s = e.moved board := by
  cases e <;> cases arrives <;> exact Function.update_self ..

/-- The squares of all other pieces stay what they are. -/
theorem Due.after_eq_iff (due : e.Due board) (other : e.moved board ≠ some piece) :
    e.after board u = some piece ↔ board u = some piece := by
  cases e with
  | add put s =>
    simp only [Due, moved, after, Function.update_apply] at due other ⊢
    split
    · next here => simp [here, due, other]
    · rfl
  | remove put s =>
    simp only [Due, moved, after, Function.update_apply] at due other ⊢
    split
    · next here => simp [here, due, other]
    · rfl
  | relocate origin target =>
    obtain ⟨-, empty⟩ := due
    simp only [moved, after, Function.update_apply] at other ⊢
    split
    · next here => simp [here, empty, other]
    · split
      · next here => simp [here, other]
      · rfl

end Edit

namespace Position

section

variable [ZobristKeys] {p q : Position} {e : Edit}

/-- Everything but the king squares is in step with the index. -/
structure Counted (p : Position) : Prop where
  tallied : p.placement.Tallied
  hash : p.hash = p.countedHash

theorem counted_of_audit (audited : p.audit = .ok ()) : p.Counted :=
  ⟨tallied_of_audit audited, (audit_eq_ok_iff.1 audited).2⟩

/-- What the audit says of such a position. -/
theorem Counted.audit_eq (counted : p.Counted) :
    p.audit = if p.placement.kings = Placement.perColor p.placement.highestKing then .ok ()
      else .error (.kings p.placement.kings (Placement.perColor p.placement.highestKing)) := by
  unfold Position.audit
  rw [Placement.audit_eq_of_tallied counted.tallied]
  split
  · simp [counted.hash]
  · rfl

theorem Counted.put {piece : Piece} {s : Square} (counted : p.Counted)
    (empty : p.pieceOn s = none) : (p.put piece s).Counted where
  tallied := counted.tallied.put empty
  hash := by rw [countedHash_put empty, ← counted.hash]; rfl

theorem Counted.lift {piece : Piece} {s : Square} (counted : p.Counted)
    (held : p.pieceOn s = some piece) : (p.lift piece s).Counted where
  tallied := counted.tallied.lift held
  hash := by rw [countedHash_lift held, ← counted.hash]; rfl

theorem kingSquare_put (p : Position) (piece : Piece) (s : Square) (c : Color) :
    (p.put piece s).kingSquare c = if piece = ⟨c, .king⟩ then some s else p.kingSquare c := by
  show (p.placement.put piece s).kings.get c = _
  rw [Placement.put_eq_alter, Placement.kings_alter]
  rfl

theorem kingSquare_lift (p : Position) (piece : Piece) (s : Square) (c : Color) :
    (p.lift piece s).kingSquare c = if piece = ⟨c, .king⟩ then none else p.kingSquare c := by
  show (p.placement.lift piece s).kings.get c = _
  rw [Placement.lift_eq_alter, Placement.kings_alter]
  rfl

/-- One edit, of any piece on any board.  It succeeds, keeps everything but the king squares in
step, and notes the king it moves where it put it down. -/
theorem Counted.edit (counted : p.Counted) (due : e.Due p.pieceOn) :
    ∃ q, p.edit e = .ok q ∧ q.Counted ∧ q.pieceOn = e.after p.pieceOn ∧
      ∀ c, q.kingSquare c =
        if e.moved p.pieceOn = some ⟨c, .king⟩ then e.arrival else p.kingSquare c := by
  cases e with
  | add piece s =>
    have empty : p.pieceOn s = none := due
    refine ⟨p.put piece s, by rw [Position.edit, Position.add, empty], counted.put empty,
      pieceOn_put, fun c => ?_⟩
    simp only [kingSquare_put, Edit.moved, Edit.arrival, Option.some.injEq]
  | remove piece s =>
    have held : p.pieceOn s = some piece := due
    refine ⟨p.lift piece s, by rw [Position.edit, Position.remove, if_pos held],
      counted.lift held, pieceOn_lift, fun c => ?_⟩
    simp only [kingSquare_lift, Edit.moved, Edit.arrival, Option.some.injEq]
  | relocate origin target =>
    obtain ⟨⟨piece, held⟩, empty⟩ := due
    have free : (p.lift piece origin).pieceOn target = none := by
      rw [pieceOn_lift, Function.update_apply]
      split
      · rfl
      · exact empty
    refine ⟨_, relocate_eq_ok counted.tallied held empty, (counted.lift held).put free, ?_,
      fun c => ?_⟩
    · rw [pieceOn_put, pieceOn_lift, Edit.after, held]
    · simp only [kingSquare_put, kingSquare_lift, Edit.moved, Edit.arrival, held,
        Option.some.injEq]
      split <;> rfl

theorem due_of_edit (made : p.edit e = .ok q) : e.Due p.pieceOn := by
  cases e with
  | add piece s =>
    rw [Position.edit, Position.add] at made
    split at made
    · cases made
    · next empty => exact empty
  | remove piece s =>
    rw [Position.edit, Position.remove] at made
    split at made
    · next held => exact held
    · cases made
  | relocate origin target =>
    rw [Position.edit, Position.relocate] at made
    split at made
    · cases made
    next piece held =>
      split at made
      · cases made
      next empty => exact ⟨⟨piece, held⟩, empty⟩

/-- However many edits follow each other, only the king squares can fall out of step. -/
theorem Counted.edits (counted : p.Counted) {edits : List Edit}
    (done : edits.foldlM Position.edit p = .ok q) : q.Counted := by
  induction edits generalizing p with
  | nil => cases done; exact counted
  | cons e edits ih =>
    rw [List.foldlM_cons] at done
    obtain ⟨next, made, rest⟩ := bind_eq_ok done
    obtain ⟨next', made', stays, -⟩ := counted.edit (due_of_edit made)
    cases made.symm.trans made'
    exact ih stays rest

/-- The king squares are those of the highest kings after an edit exactly if the king that it
moves has no other king above it. -/
theorem kings_of_edit (audited : p.audit = .ok ()) (due : e.Due p.pieceOn)
    (board : q.pieceOn = e.after p.pieceOn)
    (kings : ∀ c, q.kingSquare c =
      if e.moved p.pieceOn = some ⟨c, .king⟩ then e.arrival else p.kingSquare c) :
    q.placement.kings = Placement.perColor q.placement.highestKing ↔ e.Unrivalled p.pieceOn := by
  have shown : ∀ s, q.placement.pieceOn s = e.after p.pieceOn s := congrFun board
  constructor
  · intro same c king u stands
    have highest : e.arrival = q.placement.highestKing c := by
      rw [← Placement.get_of_eq_perColor same c]
      exact (if_pos king ▸ kings c).symm
    rw [highest]
    exact Placement.exists_highestKing ((shown u).trans stands)
  · intro unrivalled
    refine Placement.eq_perColor fun c => (kings c).trans ?_
    split
    · next king =>
      have lands : ∀ s, e.arrival = some s → q.placement.pieceOn s = some ⟨c, .king⟩ :=
        fun s arrives => by rw [shown, Edit.after_arrival arrives, king]
      have below : ∀ u, q.placement.pieceOn u = some ⟨c, .king⟩ → ∃ s, e.arrival = some s ∧ u ≤ s :=
        fun u stands => unrivalled c king u ((shown u).symm.trans stands)
      refine Option.ext fun s => ?_
      rw [Placement.highestKing_eq_some_iff]
      constructor
      · intro arrives
        refine ⟨lands s arrives, fun u stands => ?_⟩
        obtain ⟨t, arrives', under⟩ := below u stands
        cases arrives.symm.trans arrives'
        exact under
      · intro top
        obtain ⟨t, arrives, under⟩ := below s top.1
        rw [arrives, le_antisymm under (top.2 (lands t arrives))]
    · next other =>
      have before := (Placement.audit_eq_ok_iff.1 (audit_eq_ok_iff.1 audited).1).2 c
      refine before.trans (Placement.highestKing_congr fun s => ?_).symm
      rw [shown]
      exact due.after_eq_iff other

/-- An edit that finds on the board what it asks for succeeds.  Every position that passed its
audit passes it again, unless the edit moves a king and leaves another king of its side above it
or takes one of several kings away.  Then the king squares are all that the audit complains of. -/
theorem audit_of_edit (p : Position) (e : Edit) (audited : p.audit = .ok ())
    (due : e.Due p.pieceOn) :
    ∃ q, p.edit e = .ok q ∧ q.pieceOn = e.after p.pieceOn ∧
      (e.Unrivalled p.pieceOn → q.audit = .ok ()) ∧
      (¬ e.Unrivalled p.pieceOn → q.audit =
        .error (.kings q.placement.kings (Placement.perColor q.placement.highestKing))) := by
  obtain ⟨q, made, counted, board, kings⟩ := (counted_of_audit audited).edit due
  have highest := kings_of_edit audited due board kings
  refine ⟨q, made, board, fun unrivalled => ?_, fun rivalled => ?_⟩
  · rw [counted.audit_eq, if_pos (highest.2 unrivalled)]
  · rw [counted.audit_eq, if_neg fun same => rivalled (highest.1 same)]

end

/-- Among rooks and pawns, the only black king goes from e8 to f7. -/
theorem audit_of_kingMove : Rehearsal.start.audit = .ok () ∧
    (Edit.relocate 60 53).Due Rehearsal.start.pieceOn ∧
    ∃ q, Rehearsal.start.edit (.relocate 60 53) = .ok q ∧
      q.pieceOn 53 = some ⟨.black, .king⟩ ∧ q.audit = .ok () := by
  have audited : Rehearsal.start.audit = .ok () :=
    Rehearsal.reachable.grounded.firm.consistent.audit
  have held : Rehearsal.start.pieceOn 60 = some ⟨.black, .king⟩ := by decide +kernel
  have due : (Edit.relocate 60 53).Due Rehearsal.start.pieceOn :=
    ⟨⟨_, held⟩, by decide +kernel⟩
  have others : ∀ u, Rehearsal.start.pieceOn u = some ⟨.black, .king⟩ → u = 60 := by
    decide +kernel
  obtain ⟨q, made, board, passes, -⟩ := audit_of_edit _ _ audited due
  have lands : q.pieceOn 53 = some ⟨.black, .king⟩ := by
    rw [board, Edit.after_arrival rfl]
    exact held
  refine ⟨audited, due, q, made, lands, passes fun c king u stands => ⟨53, rfl, ?_⟩⟩
  cases held.symm.trans king
  rw [Edit.after, Function.update_apply] at stands
  split at stands
  · next here => exact here.le
  · rw [Function.update_apply] at stands
    split at stands
    · cases stands
    · next away => exact absurd (others u stands) away

/-- A white king on e8 and no other piece. -/
def lonelyKing : Position := Position.empty.put ⟨.white, .king⟩ 60

/-- A second white king, put down on e1 after one on e8, is the one whose square is kept, and the
audit expects the other. -/
theorem audit_of_lowerKing : lonelyKing.audit = .ok () ∧ lonelyKing.pieceOn 4 = none ∧
    ∃ q, lonelyKing.add ⟨.white, .king⟩ 4 = .ok q ∧
      q.audit = .error (.kings ⟨some 4, none⟩ ⟨some 60, none⟩) := by
  have lonely : lonelyKing.Shows _ := Shows.empty.put rfl fun _ _ => nofun
  have counted : lonelyKing.Counted := ⟨lonely.consistent.tallied, lonely.consistent.hash⟩
  have free : lonelyKing.pieceOn 4 = none := by decide +kernel
  refine ⟨lonely.consistent.audit, free, lonelyKing.put ⟨.white, .king⟩ 4,
    by rw [Position.add, free], ?_⟩
  have kings : (lonelyKing.put ⟨.white, .king⟩ 4).placement.kings = ⟨some 4, none⟩ := by
    decide +kernel
  have highest : Placement.perColor (lonelyKing.put ⟨.white, .king⟩ 4).placement.highestKing =
      ⟨some 60, none⟩ := by
    decide +kernel
  rw [(counted.put free).audit_eq, kings, highest]
  exact if_neg (by decide)

end Position

end ChessEngine
