import ChessEngine.Proofs.Generator.Distinct
import ChessEngine.Proofs.Position.Kings
import ChessEngine.Rules.Reflection

/-!
# The rules are the same for both sides

Two boards are `Turned` if each square of one holds what the reflected square of
the other holds, with the colors exchanged.  Everything that the rules of movement
say goes over from a board to the turned one; two positions that mirror each other
therefore have the same moves up to reflection, and as the generator follows the
rules (`mem_pseudoMovesOf`), so have the generated ones (`Mirrors.pseudoMoves`).

All lemmas are proved in one direction only.  The other one is the same lemma with
the positions exchanged.
-/

namespace ChessEngine

/-! ## Squares and steps -/

namespace Square

variable {s t : Square} {df dr : Int}

theorem reflect_inj : s.reflect = t.reflect ↔ s = t := by
  constructor
  · intro same
    rw [← reflect_reflect s, same, reflect_reflect]
  · rintro rfl
    rfl

theorem shift?_reflect_iff :
    s.reflect.shift? df (-dr) = some t.reflect ↔ s.shift? df dr = some t := by
  have sRank := s.rank.isLt
  have tRank := t.rank.isLt
  rw [shift?_eq_some_iff, shift?_eq_some_iff, file_reflect, file_reflect, rank_reflect,
    rank_reflect, Fin.val_rev, Fin.val_rev]
  omega

theorem shift?_reflect : s.reflect.shift? df (-dr) = (s.shift? df dr).map reflect := by
  refine Option.ext fun t => ?_
  rw [← reflect_reflect t, Option.map_eq_some_iff, shift?_reflect_iff]
  constructor
  · intro shifted
    exact ⟨_, shifted, rfl⟩
  · rintro ⟨u, shifted, same⟩
    rwa [reflect_inj.1 same] at shifted

end Square

namespace Color

theorem pawnRank_opposite (c : Color) : c.opposite.pawnRank = c.pawnRank.rev := by
  cases c <;> rfl

theorem lastRank_opposite (c : Color) : c.opposite.lastRank = c.lastRank.rev := by
  cases c <;> rfl

end Color

namespace Step

variable {step : Step} {n : Nat} {s t : Square}

/-- The same step as seen from the other side. -/
def reflect (step : Step) : Step := (step.1, -step.2)

theorem Leads.reflect (leads : step.Leads n s t) : step.reflect.Leads n s.reflect t.reflect := by
  unfold Leads Step.reflect
  rw [Int.mul_neg]
  exact Square.shift?_reflect_iff.2 leads

theorem reflect_mem_single (piece : Piece) :
    ∀ step ∈ single piece, step.reflect ∈ single piece.reflect := by
  obtain ⟨c, k⟩ := piece
  cases c <;> cases k <;> decide

theorem reflect_mem_sliding (k : Kind) : ∀ step ∈ sliding k, step.reflect ∈ sliding k := by
  cases k <;> decide

end Step

/-! ## The squares of castling -/

namespace CastlePath

theorem kingHome_opposite (c : Color) (w : Wing) :
    (of c.opposite w).kingHome = (of c w).kingHome.reflect := by
  cases c <;> cases w <;> decide

theorem kingTarget_opposite (c : Color) (w : Wing) :
    (of c.opposite w).kingTarget = (of c w).kingTarget.reflect := by
  cases c <;> cases w <;> decide

theorem rookHome_opposite (c : Color) (w : Wing) :
    (of c.opposite w).rookHome = (of c w).rookHome.reflect := by
  cases c <;> cases w <;> decide

theorem rookTarget_opposite (c : Color) (w : Wing) :
    (of c.opposite w).rookTarget = (of c w).rookTarget.reflect := by
  cases c <;> cases w <;> decide

theorem mem_between_opposite (c : Color) (w : Wing) :
    ∀ s : Square, s ∈ (of c.opposite w).between → s.reflect ∈ (of c w).between := by
  cases c <;> cases w <;> decide

end CastlePath

theorem CastlingRights.allows_reflect (r : CastlingRights) (c : Color) (w : Wing) :
    r.reflect.allows c w = r.allows c.opposite w :=
  allows_ofPred ..

/-! ## Turned boards -/

/-- The board `g` is the board `f` turned, with the colors of the pieces exchanged. -/
def Turned (f g : Square → Option Piece) : Prop := ∀ s, g s.reflect = (f s).map Piece.reflect

section

variable {f g : Square → Option Piece} {s : Square} {piece : Piece}

theorem Turned.symm (turned : Turned f g) : Turned g f := by
  intro s
  have there := turned s.reflect
  rw [Square.reflect_reflect] at there
  rw [there]
  cases f s.reflect with
  | none => rfl
  | some piece => exact congrArg some piece.reflect_reflect.symm

theorem Turned.vacant (turned : Turned f g) (empty : f s = none) : g s.reflect = none := by
  rw [turned, empty]
  rfl

theorem Turned.held (turned : Turned f g) (held : f s = some piece) :
    g s.reflect = some piece.reflect := by
  rw [turned, held]
  rfl

/-- Corresponding changes keep boards turned. -/
theorem Turned.update (turned : Turned f g) (s : Square) (holder : Option Piece) :
    Turned (Function.update f s holder)
      (Function.update g s.reflect (holder.map Piece.reflect)) := by
  intro t
  by_cases here : t = s
  · rw [here, Function.update_self, Function.update_self]
  · rw [Function.update_of_ne here, Function.update_of_ne (mt Square.reflect_inj.1 here), turned]

end

/-! ## Attacks -/

namespace Position

section

variable {p q : Position} {step : Step} {piece : Piece} {c : Color} {s t : Square}

theorem Slides.reflect (turned : Turned p.pieceOn q.pieceOn) (slides : p.Slides step s t) :
    q.Slides step.reflect s.reflect t.reflect := by
  obtain ⟨n, far, leads, free⟩ := slides
  refine ⟨n, far, leads.reflect, fun k low high => ?_⟩
  obtain ⟨u, passes, empty⟩ := free k low high
  exact ⟨u.reflect, passes.reflect, turned.vacant empty⟩

theorem PieceAttacks.reflect (turned : Turned p.pieceOn q.pieceOn)
    (attacks : p.PieceAttacks piece s t) : q.PieceAttacks piece.reflect s.reflect t.reflect := by
  rcases attacks with ⟨step, listed, leads⟩ | ⟨step, listed, slides⟩
  · exact .inl ⟨step.reflect, Step.reflect_mem_single piece step listed, leads.reflect⟩
  · exact .inr ⟨step.reflect, Step.reflect_mem_sliding piece.kind step listed,
      slides.reflect turned⟩

theorem AttackedBy.reflect (turned : Turned p.pieceOn q.pieceOn) (attacked : p.AttackedBy c t) :
    q.AttackedBy c.opposite t.reflect := by
  obtain ⟨k, s, held, attacks⟩ := attacked
  exact ⟨k, s.reflect, turned.held held, attacks.reflect turned⟩

theorem attackedBy_reflect_iff (turned : Turned p.pieceOn q.pieceOn) :
    q.AttackedBy c.opposite t.reflect ↔ p.AttackedBy c t := by
  constructor
  · intro attacked
    have back := attacked.reflect turned.symm
    rwa [Color.opposite_opposite, Square.reflect_reflect] at back
  · exact AttackedBy.reflect turned

theorem FreeOf.reflect (turned : Turned p.pieceOn q.pieceOn) (free : p.FreeOf c t) :
    q.FreeOf c.opposite t.reflect := by
  intro piece held
  rw [turned] at held
  obtain ⟨holder, holds, rfl⟩ := Option.map_eq_some_iff.1 held
  have other := Color.eq_opposite (free holder holds)
  show holder.color.opposite ≠ c.opposite
  rw [other]
  exact Color.opposite_ne _

theorem PromotionFits.reflect {promoted : Option Piece} (fits : PromotionFits c t promoted) :
    PromotionFits c.opposite t.reflect (promoted.map Piece.reflect) := by
  unfold PromotionFits at fits ⊢
  simp only [Square.rank_reflect, Color.lastRank_opposite, Fin.rev_inj]
  split
  · next last =>
    rw [if_pos last] at fits
    obtain ⟨k, listed, rfl⟩ := fits
    exact ⟨k, listed, rfl⟩
  · next inner =>
    rw [if_neg inner] at fits
    rw [fits]
    rfl

end

/-! ## Mirrored positions -/

/-- What determines the moves of one position is that of the other with the sides exchanged. -/
structure Mirrors (p q : Position) : Prop where
  board : Turned p.pieceOn q.pieceOn
  side : q.side = p.side.opposite
  rights : q.rights = p.rights.reflect
  enPassant : q.enPassant = p.enPassant.map Square.reflect

section

variable [ZobristKeys] {p q : Position} {c : Color} {m : Move}

omit [ZobristKeys] in
theorem Mirrors.symm (mirrors : p.Mirrors q) : q.Mirrors p where
  board := mirrors.board.symm
  side := by rw [mirrors.side, Color.opposite_opposite]
  rights := by rw [mirrors.rights, CastlingRights.reflect_reflect]
  enPassant := by
    rw [mirrors.enPassant]
    cases p.enPassant with
    | none => rfl
    | some target => exact congrArg some target.reflect_reflect.symm

theorem inCheck_of_turned (turned : Turned p.pieceOn q.pieceOn) (left : p.Consistent)
    (right : q.Consistent) (check : p.inCheck c = true) : q.inCheck c.opposite = true := by
  obtain ⟨s, king, attacked⟩ := (inCheck_iff left).1 check
  exact inCheck_of_attackedBy right (turned.held king) (attacked.reflect turned)

/-- A king is attacked if and only if the other one is on the turned board. -/
theorem inCheck_opposite (turned : Turned p.pieceOn q.pieceOn) (left : p.Consistent)
    (right : q.Consistent) (c : Color) : q.inCheck c.opposite = p.inCheck c := by
  refine Bool.eq_iff_iff.2 ⟨fun check => ?_, inCheck_of_turned turned left right⟩
  have back := inCheck_of_turned turned.symm right left check
  rwa [Color.opposite_opposite] at back

/-! ## Moves -/

theorem CastlingAllowed.reflect (mirrors : p.Mirrors q) (left : p.Consistent)
    (right : q.Consistent) {w : Wing} (allowed : p.CastlingAllowed c w) :
    q.CastlingAllowed c.opposite w where
  right := by
    rw [mirrors.rights, CastlingRights.allows_reflect, Color.opposite_opposite]
    exact allowed.right
  king := by
    rw [CastlePath.kingHome_opposite]
    have king := (left.noted c _).1 allowed.king
    exact (right.noted c.opposite _).2 (mirrors.board.held king)
  empty s inside := by
    have vacant := allowed.empty _ (CastlePath.mem_between_opposite c w s inside)
    rw [← s.reflect_reflect]
    exact mirrors.board.vacant vacant
  home_safe attacked := by
    rw [CastlePath.kingHome_opposite, attackedBy_reflect_iff mirrors.board] at attacked
    exact allowed.home_safe attacked
  crossing_safe attacked := by
    rw [CastlePath.rookTarget_opposite, attackedBy_reflect_iff mirrors.board] at attacked
    exact allowed.crossing_safe attacked

/-- What the rules allow one side they allow the other on the turned board. -/
theorem Movement.reflect (mirrors : p.Mirrors q) (left : p.Consistent) (right : q.Consistent)
    (movement : p.Movement c m) : q.Movement c.opposite m.reflect := by
  have turned := mirrors.board
  cases movement with
  | @piece k s t notPawn held attacks free =>
    have same : q.pieceOn t.reflect = (p.pieceOn t).map Piece.reflect := turned t
    have moved := Movement.piece notPawn (turned.held held) (attacks.reflect turned)
      (free.reflect turned)
    rw [same, Option.isSome_map] at moved
    exact moved
  | pawnCapture held attacks taken enemy fits =>
    exact .pawnCapture (turned.held held) (attacks.reflect turned) (turned.held taken)
      (congrArg Color.opposite enemy) fits.reflect
  | enPassant mine set held attacks =>
    refine .enPassant (by rw [mirrors.side, mine]) ?_ (turned.held held) (attacks.reflect turned)
    rw [mirrors.enPassant, set]
    rfl
  | push held next empty fits =>
    refine .push (turned.held held) ?_ (turned.vacant empty) fits.reflect
    rw [Step.forward_opposite]
    exact Square.shift?_reflect_iff.2 next
  | doublePush held start next empty further free =>
    refine .doublePush (turned.held held) ?_ ?_ (turned.vacant empty) ?_ (turned.vacant free)
    · rw [Square.rank_reflect, start, Color.pawnRank_opposite]
    · rw [Step.forward_opposite]
      exact Square.shift?_reflect_iff.2 next
    · rw [Step.forward_opposite]
      exact Square.shift?_reflect_iff.2 further
  | @castle w allowed =>
    have castled := Movement.castle (allowed.reflect mirrors left right)
    rw [CastlePath.kingHome_opposite, CastlePath.kingTarget_opposite] at castled
    exact castled

theorem Mirrors.mem_pseudoMoves (mirrors : p.Mirrors q) (left : p.Consistent)
    (right : q.Consistent) (member : m ∈ p.pseudoMoves) : m.reflect ∈ q.pseudoMoves := by
  unfold pseudoMoves
  rw [mirrors.side]
  exact (mem_pseudoMovesOf right).2
    (((mem_pseudoMovesOf left).1 member).reflect mirrors left right)

/-- Positions that mirror each other have the same generated moves up to reflection. -/
theorem Mirrors.pseudoMoves (mirrors : p.Mirrors q) (left : p.Consistent)
    (right : q.Consistent) : q.pseudoMoves.Perm (p.pseudoMoves.map Move.reflect) := by
  have injective : Function.Injective Move.reflect :=
    Function.LeftInverse.injective Move.reflect_reflect
  refine (List.perm_ext_iff_of_nodup (nodup_pseudoMovesOf right)
    ((nodup_pseudoMovesOf left).map injective)).2 fun m => ?_
  rw [List.mem_map]
  constructor
  · intro member
    exact ⟨m.reflect, mirrors.symm.mem_pseudoMoves right left member, m.reflect_reflect⟩
  · rintro ⟨n, member, rfl⟩
    exact mirrors.mem_pseudoMoves left right member

end

end Position

end ChessEngine
