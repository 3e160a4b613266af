import ChessEngine.Proofs.Outcome
import ChessEngine.Proofs.Placement.Agreement

/-!
# The audit of a placement in agreement

A placement whose tables agree with its index passes its audit
(`audit_of_tallied`).  The audit joins the twelve sets of squares one after the
other; `Covers` says which pieces a partial union stands for.

The other way round, whatever passes its audit agrees with its index
(`tallied_of_audit`), and each king square that is kept is that of the highest
king.  Only the number of kings is nothing an audit asks for.
-/

namespace ChessEngine

namespace Placement

variable {p q : Placement}

/-- The members of a union of sets are the squares that hold one of the listed pieces. -/
def Covers (p : Placement) (pieces : List Piece) (union : Bitboard) : Prop :=
  ∀ s, s ∈ union ↔ ∃ piece ∈ pieces, p.pieceOn s = some piece

theorem Covers.add {pieces : List Piece} {union : Bitboard} (covers : p.Covers pieces union)
    (tallied : p.Tallied) (c : Color) (k : Kind) :
    p.Covers (⟨c, k⟩ :: pieces) (union ∪ p.piecesOf c k) := by
  intro s
  rw [Bitboard.mem_union, covers, tallied.boards]
  simp only [List.mem_cons, or_and_right, exists_or, exists_eq_left, or_comm]

/-- Sets of pieces that are not yet covered do not meet the union. -/
theorem auditKinds_of_covers (tallied : p.Tallied) (c : Color) :
    ∀ (kinds : List Kind) {pieces : List Piece} {union : Bitboard}, kinds.Nodup →
      (∀ k ∈ kinds, (⟨c, k⟩ : Piece) ∉ pieces) → p.Covers pieces union →
      ∃ total, auditKinds (p.boards.get c) c union kinds = .ok total ∧
        p.Covers ((kinds.map (⟨c, ·⟩)).reverse ++ pieces) total
  | [], _, union, _, _, covers => ⟨union, rfl, covers⟩
  | k :: kinds, pieces, union, nodup, fresh, covers => by
      obtain ⟨new, nodup⟩ := List.nodup_cons.1 nodup
      have apart : union.meets ((p.boards.get c).get k) = false := by
        rw [← Bool.not_eq_true, Bitboard.meets_iff]
        rintro ⟨s, inUnion, inBoard⟩
        obtain ⟨piece, member, held⟩ := (covers s).1 inUnion
        have own := (tallied.boards c k s).1 inBoard
        rw [held, Option.some.injEq] at own
        exact fresh k List.mem_cons_self (own ▸ member)
      have later : ∀ l ∈ kinds, (⟨c, l⟩ : Piece) ∉ ⟨c, k⟩ :: pieces := by
        intro l member listed
        rcases List.mem_cons.1 listed with same | old
        · cases same
          exact new member
        · exact fresh l (List.mem_cons_of_mem k member) old
      obtain ⟨total, passed, covered⟩ :=
        auditKinds_of_covers tallied c kinds nodup later (covers.add tallied c k)
      refine ⟨total, ?_, ?_⟩
      · rw [auditKinds, apart]
        exact passed
      · simpa using covered

theorem mem_foldl_union (t : KindBoards) (s : Square) :
    ∀ (kinds : List Kind) (union : Bitboard),
      s ∈ kinds.foldl (fun u k => u ∪ t.get k) union ↔ s ∈ union ∨ ∃ k ∈ kinds, s ∈ t.get k
  | [], _ => by simp
  | k :: kinds, union => by
      rw [List.foldl_cons, mem_foldl_union t s kinds]
      simp [or_assoc]

theorem auditSide_of_covers (tallied : p.Tallied) (c : Color) {pieces : List Piece}
    {union : Bitboard} (fresh : ∀ k, (⟨c, k⟩ : Piece) ∉ pieces) (covers : p.Covers pieces union) :
    ∃ total, p.auditSide c union = .ok total ∧
      p.Covers ((Kind.all.map (⟨c, ·⟩)).reverse ++ pieces) total := by
  obtain ⟨total, passed, covered⟩ :=
    auditKinds_of_covers tallied c Kind.all (by decide) (fun k _ => fresh k) covers
  have own : Kind.all.foldl (fun u k => u ∪ (p.boards.get c).get k) ∅ = p.occupied.get c := by
    refine Bitboard.ext_mem fun s => ?_
    rw [mem_foldl_union, tallied.occupied]
    have every : ∀ k, k ∈ Kind.all := fun k => by cases k <;> decide
    simp only [Bitboard.not_mem_empty, false_or, every, true_and]
    exact exists_congr fun k => tallied.boards c k s
  refine ⟨total, ?_, covered⟩
  unfold auditSide
  simp only [passed, own, if_true]
  rfl

theorem auditSquare_of_tallied (tallied : p.Tallied) (s : Square) : p.auditSquare s = .ok () := by
  unfold auditSquare
  split
  case h_1 piece held =>
    rw [if_pos]
    exact (tallied.boards piece.color piece.kind s).2 held
  case h_2 empty =>
    rw [if_neg]
    exact fun member => (tallied.allOccupied s).1 member empty

theorem KingsNoted.get_eq_highestKing (noted : p.KingsNoted) (c : Color) :
    p.kings.get c = p.highestKing c := by
  cases found : p.highestKing c with
  | none =>
    rw [highestKing, List.find?_eq_none] at found
    refine Option.eq_none_iff_forall_ne_some.2 fun s kept => ?_
    have absent := found s (List.mem_reverse.2 (Square.mem_all s))
    rw [holds, (noted c s).1 kept] at absent
    simp at absent
  | some s =>
    rw [highestKing] at found
    have held := List.find?_some found
    rw [holds, beq_iff_eq] at held
    exact (noted c s).2 held

theorem eq_perColor {α : Type} {t : ByColor α} {f : Color → α} (h : ∀ c, t.get c = f c) :
    t = perColor f :=
  ByColor.ext_get fun c => by rw [h c]; cases c <;> rfl

theorem eq_ofFn {α : Type} {n : Nat} {table : Vector α n} {f : Fin n → α}
    (entries : ∀ i, table.get i = f i) : table = Vector.ofFn f :=
  Vector.ext fun i h => (entries ⟨i, h⟩).trans (Vector.getElem_ofFn h).symm

/-- Where everything but the king squares agrees with the index, the audit has only these to
complain about. -/
theorem audit_eq_of_tallied (tallied : p.Tallied) :
    p.audit = if p.kings = perColor p.highestKing then .ok ()
      else .error (.kings p.kings (perColor p.highestKing)) := by
  obtain ⟨white, whitePassed, whiteCovers⟩ :=
    auditSide_of_covers tallied .white (by simp) (show p.Covers [] ∅ from fun s => by simp)
  obtain ⟨total, blackPassed, covers⟩ := auditSide_of_covers tallied .black
    (by intro k listed; cases k <;> simp [Kind.all] at listed) whiteCovers
  have all : total = p.allOccupied := by
    refine Bitboard.ext_mem fun s => ?_
    rw [covers, tallied.allOccupied, Option.ne_none_iff_exists']
    refine exists_congr fun piece => and_iff_right ?_
    rcases piece with ⟨c, k⟩
    cases c <;> cases k <;> decide
  have squares : Square.all.forM p.auditSquare = .ok () :=
    forM_eq_ok fun s _ => auditSquare_of_tallied tallied s
  have material : p.material = perColor p.countedMaterial := eq_perColor tallied.material
  have onFile : p.pawnsOnFile = perColor fun c => Vector.ofFn (p.countedOnFile c) :=
    eq_perColor fun c => eq_ofFn (tallied.onFile c)
  have onRank : p.pawnsOnRank = perColor fun c => Vector.ofFn (p.countedOnRank c) :=
    eq_perColor fun c => eq_ofFn (tallied.onRank c)
  have control : p.pawnControl = perColor fun c => Vector.ofFn (p.countedControl c) :=
    eq_perColor fun c => eq_ofFn (tallied.control c)
  unfold audit
  simp only [whitePassed, blackPassed, all, squares, ← material, ← onFile, ← onRank, ← control,
    ok_bind, pure_eq_ok, ne_eq, not_true_eq_false, if_false, ite_not]
  rfl

theorem audit_of_tallied (tallied : p.Tallied) (noted : p.KingsNoted) : p.audit = .ok () := by
  rw [audit_eq_of_tallied tallied, if_pos (eq_perColor noted.get_eq_highestKing)]

/-! ## What a passed audit says -/

/-- Sets that could be joined do not meet each other nor what they were added to. -/
theorem of_auditKinds {t : KindBoards} {c : Color} :
    ∀ {kinds : List Kind} {union total : Bitboard}, auditKinds t c union kinds = .ok total →
      (∀ s, s ∈ total ↔ s ∈ union ∨ ∃ k ∈ kinds, s ∈ t.get k) ∧
        ∀ s, ∀ k ∈ kinds, s ∈ t.get k → ¬ s ∈ union ∧ ∀ l ∈ kinds, s ∈ t.get l → l = k
  | [], union, total, passed => by
      cases passed
      exact ⟨fun s => by simp, fun s k listed => absurd listed List.not_mem_nil⟩
  | k :: kinds, union, total, passed => by
      rw [auditKinds] at passed
      split at passed
      case isTrue => cases passed
      case isFalse apart =>
        rw [Bitboard.meets_iff, not_exists] at apart
        obtain ⟨members, distinct⟩ := of_auditKinds passed
        simp only [Bitboard.mem_union, not_or] at members distinct
        refine ⟨fun s => by simp [members, or_assoc], fun s l listed inBoard => ?_⟩
        rcases List.mem_cons.1 listed with rfl | later
        · refine ⟨fun inUnion => apart s ⟨inUnion, inBoard⟩, fun l' listed' other => ?_⟩
          rcases List.mem_cons.1 listed' with same | later'
          · exact same
          · exact absurd inBoard (distinct s l' later' other).1.2
        · obtain ⟨⟨notUnion, notFirst⟩, only⟩ := distinct s l later inBoard
          refine ⟨notUnion, fun l' listed' other => ?_⟩
          rcases List.mem_cons.1 listed' with rfl | later'
          · exact absurd other notFirst
          · exact only l' later' other

theorem of_auditSide {c : Color} {union total : Bitboard}
    (passed : p.auditSide c union = .ok total) :
    (∀ s, s ∈ total ↔ s ∈ union ∨ ∃ k, s ∈ p.piecesOf c k) ∧
      (∀ s k, s ∈ p.piecesOf c k → ¬ s ∈ union ∧ ∀ l, s ∈ p.piecesOf c l → l = k) ∧
      ∀ s, s ∈ p.occupied.get c ↔ ∃ k, s ∈ p.piecesOf c k := by
  have every : ∀ k, k ∈ Kind.all := fun k => by cases k <;> decide
  obtain ⟨joined, kinds, rest⟩ := bind_eq_ok passed
  obtain ⟨members, distinct⟩ := of_auditKinds kinds
  simp only [every, true_and, forall_const] at members distinct
  dsimp only at rest
  split at rest
  case isFalse => cases rest
  case isTrue own =>
    cases rest
    refine ⟨members, distinct, fun s => ?_⟩
    rw [← own, mem_foldl_union]
    simp only [Bitboard.not_mem_empty, false_or, every, true_and]
    rfl

theorem get_of_eq_perColor {α : Type} {t : ByColor α} {f : Color → α} (same : t = perColor f)
    (c : Color) : t.get c = f c := by
  rw [same]
  cases c <;> rfl

theorem get_of_eq_ofFn {α : Type} {n : Nat} {t : ByColor (Vector α n)} {f : Color → Fin n → α}
    (same : t = perColor fun c => Vector.ofFn (f c)) (c : Color) (i : Fin n) :
    (t.get c).get i = f c i := by
  rw [get_of_eq_perColor same, get_ofFn]

/-- What the checks of an audit say one by one. -/
theorem checks_of_audit (passed : p.audit = .ok ()) :
    (∃ white, p.auditSide .white ∅ = .ok white ∧ p.auditSide .black white = .ok p.allOccupied) ∧
      (∀ s, p.auditSquare s = .ok ()) ∧ p.material = perColor p.countedMaterial ∧
      (p.pawnsOnFile = perColor fun c => Vector.ofFn (p.countedOnFile c)) ∧
      (p.pawnsOnRank = perColor fun c => Vector.ofFn (p.countedOnRank c)) ∧
      (p.pawnControl = perColor fun c => Vector.ofFn (p.countedControl c)) ∧
      p.kings = perColor p.highestKing := by
  unfold audit at passed
  obtain ⟨white, whitePassed, passed⟩ := bind_eq_ok passed
  obtain ⟨total, blackPassed, passed⟩ := bind_eq_ok passed
  dsimp only at passed
  obtain ⟨all, passed⟩ := unless_eq_ok passed
  obtain ⟨⟨⟩, squares, passed⟩ := bind_eq_ok passed
  obtain ⟨material, passed⟩ := unless_eq_ok passed
  obtain ⟨onFile, passed⟩ := unless_eq_ok passed
  obtain ⟨onRank, passed⟩ := unless_eq_ok passed
  obtain ⟨control, passed⟩ := unless_eq_ok passed
  split at passed
  case isTrue => cases passed
  case isFalse kings =>
    refine ⟨⟨white, whitePassed, all ▸ blackPassed⟩, fun s => ?_, material, onFile, onRank,
      control, Decidable.of_not_not kings⟩
    exact of_forM_eq_ok squares s (Square.mem_all s)

/-- An audit does not count kings, but on a board with one king of each side at most it finds them
noted. -/
theorem KingsNoted.of_audit (noted : p.KingsNoted) (passed : q.audit = .ok ())
    (same : q.pieceOn = p.pieceOn) : q.KingsNoted := by
  obtain ⟨-, -, -, -, -, -, kings⟩ := checks_of_audit passed
  have highest : ∀ c, q.highestKing c = p.highestKing c := fun c => by
    have holds : q.holds ⟨c, .king⟩ = p.holds ⟨c, .king⟩ :=
      funext fun s => by rw [Placement.holds, Placement.holds, same]
    rw [highestKing, highestKing, holds]
  intro c s
  rw [get_of_eq_perColor kings, highest, ← noted.get_eq_highestKing, same]
  exact noted c s

theorem tallied_of_audit (passed : p.audit = .ok ()) : p.Tallied := by
  obtain ⟨⟨white, whitePassed, blackPassed⟩, squares, material, onFile, onRank, control, -⟩ :=
    checks_of_audit passed
  obtain ⟨whiteMembers, whiteDistinct, whiteOwn⟩ := of_auditSide whitePassed
  obtain ⟨members, blackDistinct, blackOwn⟩ := of_auditSide blackPassed
  have all : ∀ s, s ∈ p.allOccupied ↔ ∃ c k, s ∈ p.piecesOf c k := by
    intro s
    rw [members, whiteMembers, or_iff_right (Bitboard.not_mem_empty s)]
    constructor
    · rintro (⟨k, member⟩ | ⟨k, member⟩)
      · exact ⟨.white, k, member⟩
      · exact ⟨.black, k, member⟩
    · rintro ⟨_ | _, k, member⟩
      · exact .inl ⟨k, member⟩
      · exact .inr ⟨k, member⟩
  have distinct : ∀ s c k d l, s ∈ p.piecesOf c k → s ∈ p.piecesOf d l →
      (⟨c, k⟩ : Piece) = ⟨d, l⟩ := by
    rintro s (_ | _) k (_ | _) l left right
    · rw [(whiteDistinct s l right).2 k left]
    · exact absurd ((whiteMembers s).2 (.inr ⟨k, left⟩)) (blackDistinct s l right).1
    · exact absurd ((whiteMembers s).2 (.inr ⟨l, right⟩)) (blackDistinct s k left).1
    · rw [(blackDistinct s l right).2 k left]
  have held : ∀ s piece, p.pieceOn s = some piece → s ∈ p.piecesOf piece.color piece.kind := by
    intro s piece present
    have checked := squares s
    rw [auditSquare, present] at checked
    dsimp only at checked
    split at checked
    · next member => exact member
    · cases checked
  have occupied : ∀ s, s ∈ p.allOccupied → p.pieceOn s ≠ none := by
    intro s member absent
    have checked := squares s
    rw [auditSquare, absent] at checked
    dsimp only at checked
    rw [if_pos (Bitboard.mem_def.1 member)] at checked
    cases checked
  have boards : ∀ c k s, s ∈ p.piecesOf c k ↔ p.pieceOn s = some ⟨c, k⟩ := by
    intro c k s
    constructor
    · intro member
      obtain ⟨piece, present⟩ :=
        Option.ne_none_iff_exists'.1 (occupied s ((all s).2 ⟨c, k, member⟩))
      rw [present, distinct s _ _ _ _ member (held s piece present)]
    · exact held s ⟨c, k⟩
  constructor
  case boards => exact boards
  case occupied =>
    intro c s
    cases c with
    | white => simp only [whiteOwn, boards]
    | black => simp only [blackOwn, boards]
  case allOccupied =>
    intro s
    refine ⟨occupied s, fun present => ?_⟩
    obtain ⟨piece, present⟩ := Option.ne_none_iff_exists'.1 present
    exact (all s).2 ⟨_, _, held s piece present⟩
  case material => exact get_of_eq_perColor material
  case onFile => exact get_of_eq_ofFn onFile
  case onRank => exact get_of_eq_ofFn onRank
  case control => exact get_of_eq_ofFn control

theorem audit_eq_ok_iff : p.audit = .ok () ↔ p.Tallied ∧ ∀ c, p.kings.get c = p.highestKing c := by
  constructor
  · intro passed
    obtain ⟨-, -, -, -, -, -, kings⟩ := checks_of_audit passed
    exact ⟨tallied_of_audit passed, get_of_eq_perColor kings⟩
  · rintro ⟨tallied, kings⟩
    rw [audit_eq_of_tallied tallied, if_pos (eq_perColor kings)]

end Placement

end ChessEngine
