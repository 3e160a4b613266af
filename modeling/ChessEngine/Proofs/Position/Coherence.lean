import ChessEngine.Proofs.Position.Basis
import ChessEngine.Proofs.Search.Scan
import ChessEngine.Rules.Coherence

/-!
# An audit finds every disagreement

`Position.audit` looks at the sets of squares in one order and at the index in another, and it
never asks whether a member of a set is shown by the index: that the sets are disjoint and that
the combined occupancy is their union has to be enough.  It is, by `Placement.audit_eq_ok_iff`,
and so a position passes its audit exactly if it is coherent (`audit_eq_ok_iff_coherent`).
-/

namespace ChessEngine

open Finset

namespace Placement

variable {p : Placement} {c : Color} {s : Square}

/-- A search from the last square down finds the greatest one. -/
theorem isGreatest_of_highestKing (found : p.highestKing c = some s) :
    IsGreatest {t | p.pieceOn t = some ⟨c, .king⟩} s := by
  obtain ⟨held, before, after, whole, refused⟩ := List.find?_eq_some_iff_append.1 found
  have descending : (before ++ s :: after).Pairwise (· > ·) :=
    whole ▸ List.pairwise_reverse.2 (List.pairwise_lt_finRange 64)
  refine ⟨by simpa [holds] using held, fun t shown => ?_⟩
  have listed : t ∈ before ++ s :: after := whole ▸ List.mem_reverse.2 (Square.mem_all t)
  rcases List.mem_append.1 listed with higher | rest
  · exact absurd (refused t higher) (by simpa [holds] using shown)
  rcases List.mem_cons.1 rest with rfl | lower
  · exact le_rfl
  · exact ((List.pairwise_cons.1 (List.pairwise_append.1 descending).2.1).1 t lower).le

theorem exists_highestKing (stands : p.pieceOn s = some ⟨c, .king⟩) :
    ∃ t, p.highestKing c = some t ∧ s ≤ t := by
  cases found : p.highestKing c with
  | none =>
    rw [highestKing, List.find?_eq_none] at found
    have absent := found s (List.mem_reverse.2 (Square.mem_all s))
    exact absurd stands (by simpa [holds] using absent)
  | some t => exact ⟨t, rfl, (isGreatest_of_highestKing found).2 stands⟩

theorem highestKing_eq_some_iff :
    p.highestKing c = some s ↔ IsGreatest {t | p.pieceOn t = some ⟨c, .king⟩} s := by
  refine ⟨isGreatest_of_highestKing, fun top => ?_⟩
  obtain ⟨t, found, -⟩ := exists_highestKing top.1
  rw [found, (isGreatest_of_highestKing found).unique top]

theorem highestKing_congr {q : Placement}
    (same : ∀ s, q.pieceOn s = some ⟨c, .king⟩ ↔ p.pieceOn s = some ⟨c, .king⟩) :
    q.highestKing c = p.highestKing c :=
  Option.ext fun s => by simp only [highestKing_eq_some_iff, same]

/-! ## What an audit counts, as sums and numbers of squares -/

theorem countedMaterial_eq_sum (p : Placement) (c : Color) : p.countedMaterial c =
    ∑ s, (p.pieceOn s).elim 0 fun piece => if piece.color = c then piece.value else 0 := by
  refine (Square.foldl_all_eq_sum _).trans (sum_congr rfl fun s _ => ?_)
  rw [valueOn]
  cases p.pieceOn s <;> rfl

theorem countP_holds_eq_card (p : Placement) (piece : Piece) (counted : Square → Prop)
    [DecidablePred counted] (test : Square → Bool) (agree : ∀ s, test s = true ↔ counted s) :
    Square.all.countP (fun s => p.holds piece s && test s) =
      #{s ∈ p.squaresOf piece | counted s} := by
  rw [Square.countP_all_eq_card]
  congr 1
  ext s
  simp [squaresOf, holds, agree]

/-- Some piece stands on an occupied square, and its color and kind say which. -/
theorem pieceOn_ne_none_iff : p.pieceOn s ≠ none ↔ ∃ c k, p.pieceOn s = some ⟨c, k⟩ := by
  rw [Option.ne_none_iff_exists']
  exact ⟨fun ⟨piece, held⟩ => ⟨piece.color, piece.kind, held⟩, fun ⟨c, k, held⟩ => ⟨⟨c, k⟩, held⟩⟩

theorem coherent_iff : p.Coherent ↔ p.Tallied ∧ ∀ c, p.kings.get c = p.highestKing c := by
  have onFile : ∀ c f, p.countedOnFile c f = #{s ∈ p.squaresOf ⟨c, .pawn⟩ | s.file = f} :=
    fun c f => p.countP_holds_eq_card _ _ _ fun s => by simp
  have onRank : ∀ c r, p.countedOnRank c r = #{s ∈ p.squaresOf ⟨c, .pawn⟩ | s.rank = r} :=
    fun c r => p.countP_holds_eq_card _ _ _ fun s => by simp
  have control : ∀ c t,
      p.countedControl c t = #{s ∈ p.squaresOf ⟨c, .pawn⟩ | t ∈ pawnAttacks c s} :=
    fun c t => p.countP_holds_eq_card _ _ _ fun s => Bitboard.mem_def.symm
  constructor
  · intro coherent
    refine ⟨?_, fun c => Option.ext fun s =>
      (coherent.kings c s).trans highestKing_eq_some_iff.symm⟩
    constructor
    case boards => exact fun c k s => coherent.boards s c k
    case occupied =>
      intro c s
      simp only [coherent.occupied, coherent.boards]
    case allOccupied =>
      intro s
      rw [pieceOn_ne_none_iff]
      simp only [coherent.allOccupied, coherent.boards]
    case material =>
      intro c
      rw [coherent.material, countedMaterial_eq_sum]
    case onFile => exact fun c f => (coherent.onFile c f).trans (onFile c f).symm
    case onRank => exact fun c r => (coherent.onRank c r).trans (onRank c r).symm
    case control => exact fun c t => (coherent.control c t).trans (control c t).symm
  · rintro ⟨tallied, kings⟩
    constructor
    case boards => exact fun s c k => tallied.boards c k s
    case occupied =>
      intro s c
      simp only [tallied.occupied, tallied.boards]
    case allOccupied =>
      intro s
      rw [tallied.allOccupied, pieceOn_ne_none_iff]
      simp only [tallied.boards]
    case material =>
      intro c
      rw [tallied.material, countedMaterial_eq_sum]
    case onFile => exact fun c f => (tallied.onFile c f).trans (onFile c f)
    case onRank => exact fun c r => (tallied.onRank c r).trans (onRank c r)
    case control => exact fun c t => (tallied.control c t).trans (control c t)
    case kings => exact fun c s => by rw [kings, highestKing_eq_some_iff]

end Placement

namespace Position

variable [ZobristKeys]

/-! ## The hash -/

theorem foldl_squarePart (p : Position) (squares : List Square) (hash : UInt64) :
    squares.foldl (fun hash s => hash ^^^ p.squarePart s) hash =
      (squares.filterMap fun s => (p.pieceOn s).map (ZobristKeys.piece · s)).foldl
        (· ^^^ ·) hash := by
  induction squares generalizing hash with
  | nil => rfl
  | cons s squares ih =>
    rw [List.foldl_cons, ih, List.filterMap_cons, squarePart]
    cases p.pieceOn s with
    | none => rw [UInt64.xor_zero]; rfl
    | some piece => rfl

theorem countedHash_eq_keys (p : Position) : p.countedHash = p.keys.foldl (· ^^^ ·) 0 := by
  have side : ∀ hash, (if p.side = .black then [ZobristKeys.side] else []).foldl (· ^^^ ·) hash =
      hash ^^^ ZobristKeys.sidePart p.side := fun hash => by
    cases p.side with
    | white => exact UInt64.xor_zero.symm
    | black => rfl
  have enPassant : ∀ hash,
      ((p.enPassant.map fun s => ZobristKeys.enPassantFile s.file).toList).foldl (· ^^^ ·) hash =
        hash ^^^ ZobristKeys.enPassantPart p.enPassant := fun hash => by
    cases p.enPassant with
    | none => exact UInt64.xor_zero.symm
    | some s => rfl
  rw [countedHash, foldl_squarePart, keys, List.foldl_append, List.foldl_append, List.foldl_append,
    side, enPassant, List.foldl_cons, List.foldl_nil]

/-- A position, whatever its fields hold, passes its audit exactly if it is coherent. -/
theorem audit_eq_ok_iff_coherent (p : Position) : p.audit = .ok () ↔ p.Coherent := by
  rw [audit_eq_ok_iff, Placement.audit_eq_ok_iff, ← Placement.coherent_iff, countedHash_eq_keys]
  exact ⟨fun ⟨placement, hash⟩ => ⟨placement, hash⟩, fun ⟨placement, hash⟩ => ⟨placement, hash⟩⟩

end Position

end ChessEngine
