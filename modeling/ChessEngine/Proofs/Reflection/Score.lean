import ChessEngine.Proofs.Reflection.Setup
import ChessEngine.Proofs.Search.Checked
import ChessEngine.Proofs.Search.Scan
import Mathlib.Logic.Equiv.Basic

/-!
# Scores take no side

A score is the difference of two totals, one for each side, seen from the side to
move.  Letting the other side move changes its sign, and on a turned board both the
totals and the side are exchanged, so that it stays the same.  The totals of a
turned board are compared part by part: material square by square, penalties file
by file, since files stay in place, and control from each pawn to each square.

`score_of_reachable` puts this together with what the totals are
(`PawnWeights.score_eq_scannedScore`) and with the bounds of their calculation
(`PawnWeights.checkedScore_eq_some`).
-/

namespace ChessEngine

open Finset

namespace Square

/-- Reflection as a permutation of the squares. -/
def reflection : Equiv.Perm Square := Function.Involutive.toPerm reflect reflect_reflect

theorem sum_reflect {α : Type} [AddCommMonoid α] (f : Square → α) :
    ∑ s : Square, f s.reflect = ∑ s, f s :=
  Equiv.sum_comp reflection f

theorem sum_centre_reflect (f : Square → Int) :
    (PawnWeights.centreSquares.map fun s => f s.reflect).sum =
      (PawnWeights.centreSquares.map f).sum := by
  show f 35 + (f 36 + (f 27 + (f 28 + 0))) = f 27 + (f 28 + (f 35 + (f 36 + 0)))
  omega

end Square

theorem pawnAttacks_reflect {c : Color} {s t : Square} (attacked : t ∈ pawnAttacks c s) :
    t.reflect ∈ pawnAttacks c.opposite s.reflect := by
  rw [mem_pawnAttacks] at attacked ⊢
  obtain ⟨step, listed, shifted⟩ := attacked
  exact ⟨step.reflect, Step.reflect_mem_single ⟨c, .pawn⟩ step listed,
    Square.shift?_reflect_iff.2 shifted⟩

theorem mem_pawnAttacks_reflect {c : Color} {s t : Square} :
    t.reflect ∈ pawnAttacks c.opposite s.reflect ↔ t ∈ pawnAttacks c s := by
  refine ⟨fun attacked => ?_, pawnAttacks_reflect⟩
  have back := pawnAttacks_reflect attacked
  rwa [Color.opposite_opposite, Square.reflect_reflect, Square.reflect_reflect] at back

theorem PawnWeights.filePenalty_congr {files files' : Vector Nat 8}
    (same : ∀ f, countOn files f = countOn files' f) (w : PawnWeights) (f : Nat) :
    w.filePenalty files f = w.filePenalty files' f := by
  simp only [filePenalty, same]

namespace Position

section

variable {p q : Position} (turned : Turned p.pieceOn q.pieceOn) (c : Color)

/-! ## Boards -/

section

include turned

theorem hasPawn_reflect (s : Square) : q.hasPawn c.opposite s.reflect = p.hasPawn c s := by
  have held : ∀ {p q : Position} {c : Color} {s : Square}, Turned p.pieceOn q.pieceOn →
      p.hasPawn c s = true → q.hasPawn c.opposite s.reflect = true := by
    intro p q c s turned pawn
    rw [hasPawn, beq_iff_eq] at pawn ⊢
    exact turned.held pawn
  refine Bool.eq_iff_iff.2 ⟨fun pawn => ?_, held turned⟩
  have back := held turned.symm pawn
  rwa [Color.opposite_opposite, Square.reflect_reflect] at back

theorem scannedValue_reflect (s : Square) :
    q.scannedValue c.opposite s.reflect = p.scannedValue c s := by
  rw [scannedValue, scannedValue, turned]
  cases p.pieceOn s with
  | none => rfl
  | some piece =>
    rcases piece with ⟨d, k⟩
    cases c <;> cases d <;> rfl

theorem card_pawnsOn_reflect (n : Nat) : #(q.pawnsOn c.opposite n) = #(p.pawnsOn c n) := by
  rw [pawnsOn, card_filter, ← Square.sum_reflect, pawnsOn, card_filter]
  simp only [hasPawn_reflect turned, Square.file_reflect]

end

/-! ## Tables -/

section

variable (left : p.placement.Tallied) (right : q.placement.Tallied)

include turned left right

theorem material_opposite : q.material c.opposite = p.material c := by
  rw [material_eq_sum left, material_eq_sum right, ← Square.sum_reflect]
  simp only [scannedValue_reflect turned]

theorem pawnControl_reflect (t : Square) :
    q.pawnControl c.opposite t.reflect = p.pawnControl c t := by
  rw [PawnWeights.control_eq_sum right, PawnWeights.control_eq_sum left, ← Square.sum_reflect]
  simp only [hasPawn_reflect turned, mem_pawnAttacks_reflect]

theorem terms_opposite (w : PawnWeights) : w.terms q c.opposite = w.terms p c := by
  have files : ∀ f, PawnWeights.countOn (q.placement.pawnsOnFile.get c.opposite) f =
      PawnWeights.countOn (p.placement.pawnsOnFile.get c) f := fun f => by
    rw [PawnWeights.countOn_eq_card right, PawnWeights.countOn_eq_card left,
      card_pawnsOn_reflect turned]
  have penalties : w.filePenalty (q.placement.pawnsOnFile.get c.opposite) =
      w.filePenalty (p.placement.pawnsOnFile.get c) := funext fun f =>
    PawnWeights.filePenalty_congr files w f
  rw [PawnWeights.terms_eq_sum, PawnWeights.terms_eq_sum, penalties,
    ← Square.sum_centre_reflect]
  simp only [pawnControl_reflect turned c left right]

/-- On a turned board with the other side to move the score is the same. -/
theorem score_of_turned (side : q.side = p.side.opposite) (w : PawnWeights) :
    w.score q = w.score p := by
  have material := fun c => material_opposite turned c left right
  have terms := fun c => terms_opposite turned c left right w
  have whiteMaterial := material .white
  have blackMaterial := material .black
  have whiteTerms := terms .white
  have blackTerms := terms .black
  simp only [Color.opposite] at whiteMaterial blackMaterial whiteTerms blackTerms
  rw [PawnWeights.score, PawnWeights.score, fromSide, fromSide, materialBalance, materialBalance,
    side, whiteMaterial, blackMaterial, whiteTerms, blackTerms]
  cases p.side with
  | white => simp only [Color.opposite]; omega
  | black => simp only [Color.opposite]; omega

end

theorem fromSide_flipSide [ZobristKeys] (p : Position) (score : Int) :
    p.flipSide.fromSide score = -p.fromSide score := by
  have side : p.flipSide.side = p.side.opposite := rfl
  rw [fromSide, fromSide, side]
  cases p.side with
  | white => rfl
  | black => exact (Int.neg_neg score).symm

/-- Whose turn it is decides the sign of a score and nothing else. -/
theorem score_flipSide [ZobristKeys] (p : Position) (w : PawnWeights) :
    w.score p.flipSide = -w.score p :=
  fromSide_flipSide p _

end

/-! ## The mirror of a reachable position -/

section

variable [ZobristKeys] {start start' p q : Position}

omit [ZobristKeys] in
theorem Mirrors.recount (mirrors : p.Mirrors q) (fullmove : Counter) (ply : Nat) :
    (p.recount fullmove ply).Mirrors q :=
  ⟨mirrors.board, mirrors.side, mirrors.rights, mirrors.enPassant⟩

/-- A line of accepted moves is accepted from the mirrored start, reflected move by move. -/
theorem Follows.mirrors (grounded : start.Grounded) (grounded' : start'.Grounded)
    (mirrors : start.Mirrors start') (size : start'.history.size = start.history.size)
    (follows : Follows start p) :
    ∃ q, Reaches start' q ∧ p.Mirrors q ∧ q.history.size = p.history.size := by
  induction follows with
  | start fullmove ply => exact ⟨start', .refl, mirrors.recount fullmove ply, size⟩
  | @made before after m fullmove ply line member made ih =>
    obtain ⟨other, reaches, alike, same⟩ := ih
    have firm := (line.grounded grounded).firm
    have firm' := (grounded'.of_reaches reaches).firm
    have applied := firm.applied_of_make member made
    have room := room_of_apply applied
    have twins : Twins (0 + 1) before other :=
      ⟨alike, ⟨firm, by omega⟩, ⟨firm', by omega⟩⟩
    obtain ⟨next, after', further⟩ := twins.after? member (after?_eq_some.2 made)
    have made' := after?_eq_some.1 after'
    have member' := alike.mem_pseudoMoves firm.consistent firm'.consistent member
    refine ⟨next, reaches.turn (.make member' made'), further.mirrors.recount fullmove ply, ?_⟩
    rw [firm'.size_of_apply member' (firm'.applied_of_make member' made'), same]
    exact (firm.size_of_apply member applied).symm

/-- Every reachable position has a reachable mirror. -/
theorem Reachable.mirror (reachable : p.Reachable) : ∃ q : Position, q.Reachable ∧ p.Mirrors q := by
  obtain ⟨setup, start, accepted, reaches⟩ := reachable
  obtain ⟨start', accepted', mirrors⟩ := Setup.mirrors_of_toPosition accepted
  obtain ⟨grounded, unplayed⟩ := grounded_of_toPosition accepted
  obtain ⟨grounded', unplayed'⟩ := grounded_of_toPosition accepted'
  obtain ⟨q, reaches', alike, -⟩ := (reaches.follows grounded unplayed).mirrors grounded grounded'
    mirrors (by rw [unplayed, unplayed'])
  exact ⟨q, ⟨setup.reflect, start', accepted', reaches'⟩, alike⟩

end

/-! ## Scores of reachable positions -/

/-- With weights of at most a million no step of a score leaves its word, and the score is the
difference of what a look at every square gives for both sides.  It changes its sign with the side
to move, and a position that shows the turned board with the other side to move has the same one;
such a position is always reachable. -/
theorem score_of_reachable [ZobristKeys] {p : Position} (reachable : p.Reachable) {w : PawnWeights}
    (within : w.Within 1000000) :
    (w.score p = w.scannedScore p ∧ w.checkedScore p = some (w.score p)) ∧
      (w.score p.flipSide = -w.score p ∧
        w.checkedScore p.flipSide = some (w.score p.flipSide)) ∧
      (∀ q : Position, q.audit = .ok () → Turned p.pieceOn q.pieceOn →
        q.side = p.side.opposite →
          w.score q = w.score p ∧ w.checkedScore q = some (w.score q)) ∧
      ∃ q : Position, q.Reachable ∧ p.Mirrors q ∧ w.score q = w.score p := by
  have tallied := reachable.grounded.firm.consistent.tallied
  refine ⟨⟨w.score_eq_scannedScore tallied, w.checkedScore_eq_some tallied within⟩,
    ⟨score_flipSide p w, PawnWeights.checkedScore_eq_some tallied within⟩, ?_, ?_⟩
  · intro q audited turned side
    have right := tallied_of_audit audited
    exact ⟨score_of_turned turned tallied right side w,
      PawnWeights.checkedScore_eq_some right within⟩
  · obtain ⟨q, there, mirrors⟩ := reachable.mirror
    have right := there.grounded.firm.consistent.tallied
    exact ⟨q, there, mirrors, score_of_turned mirrors.board tallied right mirrors.side w⟩

end Position

namespace Doubling

/-- A capture doubles White's pawns. -/
def setup : Setup where
  pieces := [(4, ⟨.white, .king⟩), (8, ⟨.white, .pawn⟩), (17, ⟨.white, .pawn⟩),
    (60, ⟨.black, .king⟩), (24, ⟨.black, .pawn⟩), (35, ⟨.black, .pawn⟩)]
  side := .white
  rights := ⟨false, false, false, false⟩
  enPassant := none
  fifty := 0
  fullmove := 1

def capture : Move :=
  ⟨17, 24, some ⟨.black, .pawn⟩, none, { MoveFlags.none with capture := true }⟩

/-- The position of the setup. -/
def start : Position := setup.toPosition.toOption.get (by decide +kernel)

/-- The position after 1. bxa4. -/
def last : Position := (start.follow? [capture]).get (by decide +kernel)

/-- The position of the turned board. -/
def mirroredStart : Position := setup.reflect.toPosition.toOption.get (by decide +kernel)

/-- The position after 1... bxa5 on the turned board. -/
def mirrored : Position := (mirroredStart.follow? [capture.reflect]).get (by decide +kernel)

theorem reachable_last : last.Reachable :=
  ⟨setup, start, eq_ok_get _, (Position.played_of_follow? (Option.some_get _).symm).reaches⟩

theorem reachable_mirrored : mirrored.Reachable :=
  ⟨setup.reflect, mirroredStart, eq_ok_get _,
    (Position.played_of_follow? (Option.some_get _).symm).reaches⟩

end Doubling

namespace Position

/-- White is a pawn up, has one doubled pawn and one isolated pawn more, and Black attacks e4. -/
theorem score_of_doubling :
    PawnWeights.score ⟨1000000, -1000000, 3⟩ Doubling.last = -97 ∧
      PawnWeights.scannedScore ⟨1000000, -1000000, 3⟩ Doubling.last = -97 ∧
      PawnWeights.checkedScore ⟨1000000, -1000000, 3⟩ Doubling.last = some (-97) ∧
      PawnWeights.score ⟨1000000, -1000000, 3⟩ Doubling.last.flipSide = 97 ∧
      PawnWeights.score ⟨1000000, -1000000, 3⟩ Doubling.mirrored = -97 := by
  have score : PawnWeights.score ⟨1000000, -1000000, 3⟩ Doubling.last = -97 := by decide +kernel
  have within : PawnWeights.Within ⟨1000000, -1000000, 3⟩ 1000000 :=
    ⟨by decide, by decide, by decide⟩
  obtain ⟨⟨scanned, checked⟩, ⟨flipped, -⟩, mirrors, -⟩ :=
    score_of_reachable Doubling.reachable_last within
  have turned : Turned Doubling.last.pieceOn Doubling.mirrored.pieceOn := by
    unfold Turned
    decide +kernel
  obtain ⟨same, -⟩ := mirrors Doubling.mirrored
    Doubling.reachable_mirrored.grounded.firm.consistent.audit turned (by decide +kernel)
  rw [score] at scanned checked flipped same
  exact ⟨score, scanned.symm, checked, flipped, same⟩

end Position

end ChessEngine
