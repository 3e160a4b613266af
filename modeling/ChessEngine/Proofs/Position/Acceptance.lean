import ChessEngine.Proofs.Position.Safety
import ChessEngine.Rules.Setup
import Mathlib.Data.List.Induction
import Mathlib.Data.List.Nodup

/-!
# Which setups are accepted

Pieces are put on the board one by one, each checked against a board that holds the
ones before it.  `Bears` ties that board to the list of these pieces, so that the
four checks of a piece are conditions on the list (`Fits`), and `placeable_concat`
adds them up: all pieces of a list can be placed if and only if the list is
`Placeable`, of which no order is left.  What the other steps of a setup look at is
what the list says as well, and with `Describes.unique` nothing about a position
depends on the order in which its pieces were listed.
-/

namespace ChessEngine

namespace Setup

/-! ## Lists of pieces -/

/-- An entry that goes with those before it. -/
structure Fits (before : List (Nat × Piece)) (entry : Nat × Piece) : Prop where
  inside : entry.1 < 64
  free : entry.1 ∉ before.map (·.1)
  pawn : entry.2.kind = .pawn → entry.1 / 8 ≠ 0 ∧ entry.1 / 8 ≠ 7
  king : entry.2.kind = .king → ∀ n, (n, entry.2) ∉ before

section

variable {before after pieces : List (Nat × Piece)} {entry : Nat × Piece} {e : InputError}

theorem Placeable.nil : Placeable [] where
  inside := nofun
  apart := .nil
  pawns := nofun
  kings _ := Nat.zero_le _

theorem Placeable.perm (placeable : Placeable before) (same : before.Perm after) :
    Placeable after where
  inside entry member := placeable.inside entry (same.mem_iff.2 member)
  apart := (same.map _).nodup_iff.1 placeable.apart
  pawns entry member := placeable.pawns entry (same.mem_iff.2 member)
  kings c := (same.countP_eq _).symm ▸ placeable.kings c

/-- There is room for one king of a side. -/
theorem kings_concat {c : Color} :
    (before ++ [entry]).countP (·.2 = ⟨c, .king⟩) ≤ 1 ↔
      before.countP (·.2 = ⟨c, .king⟩) ≤ 1 ∧
        (entry.2 = ⟨c, .king⟩ → ∀ n, (n, ⟨c, .king⟩) ∉ before) := by
  have none : before.countP (·.2 = ⟨c, .king⟩) = 0 ↔ ∀ n, (n, ⟨c, .king⟩) ∉ before := by
    rw [List.countP_eq_zero]
    constructor
    · exact fun others n member => others _ member (decide_eq_true rfl)
    · rintro missing ⟨n, piece⟩ member king
      cases of_decide_eq_true king
      exact missing n member
  rw [List.countP_append, List.countP_singleton]
  by_cases king : entry.2 = ⟨c, .king⟩
  · rw [if_pos (decide_eq_true king), imp_iff_right king, ← none]
    omega
  · rw [if_neg (by simpa using king)]
    exact (and_iff_left fun other => absurd other king).symm

/-- A list of pieces is placeable if each of them goes with those before it. -/
theorem placeable_concat :
    Placeable (before ++ [entry]) ↔ Placeable before ∧ Fits before entry := by
  have last : entry ∈ before ++ [entry] := List.mem_append_right _ List.mem_cons_self
  have apart : ((before ++ [entry]).map (·.1)).Nodup ↔
      (before.map (·.1)).Nodup ∧ entry.1 ∉ before.map (·.1) := by
    rw [List.map_append, List.map_singleton, ← List.concat_eq_append, List.nodup_concat]
    exact and_comm
  constructor
  · intro placeable
    refine ⟨⟨?_, (apart.1 placeable.apart).1, ?_, fun c => ?_⟩, placeable.inside entry last,
      (apart.1 placeable.apart).2, placeable.pawns entry last, fun king n other => ?_⟩
    · exact fun early member => placeable.inside early (List.mem_append_left _ member)
    · exact fun early member => placeable.pawns early (List.mem_append_left _ member)
    · exact (kings_concat.1 (placeable.kings c)).1
    · have single := (kings_concat.1 (placeable.kings entry.2.color)).2
      have self : entry.2 = ⟨entry.2.color, .king⟩ := by rw [← king]
      exact single self n (self ▸ other)
  · rintro ⟨placeable, fits⟩
    refine ⟨?_, apart.2 ⟨placeable.apart, fits.free⟩, ?_, fun c => ?_⟩
    · exact List.forall_mem_append.2 ⟨placeable.inside, List.forall_mem_singleton.2 fits.inside⟩
    · exact List.forall_mem_append.2 ⟨placeable.pawns, List.forall_mem_singleton.2 fits.pawn⟩
    · refine kings_concat.2 ⟨placeable.kings c, fun self n other => ?_⟩
      exact fits.king (congrArg Piece.kind self) n (self ▸ other)

/-- An entry goes with those before it or offends. -/
theorem fits_or_offends (before : List (Nat × Piece)) (entry : Nat × Piece) :
    Fits before entry ∨ ∃ e, Offends before entry e := by
  obtain ⟨n, c, k⟩ := entry
  by_cases inside : n < 64
  case neg => exact .inr ⟨_, .outside (Nat.le_of_not_lt inside)⟩
  obtain ⟨s, rfl⟩ : ∃ s : Square, s.val = n := ⟨⟨n, inside⟩, rfl⟩
  by_cases free : s.val ∈ before.map (·.1)
  case pos => exact .inr ⟨_, .twice free⟩
  by_cases pawn : k = .pawn ∧ (s.val / 8 = 0 ∨ s.val / 8 = 7)
  case pos =>
    obtain ⟨rfl, outer⟩ := pawn
    exact .inr ⟨_, .backRank free outer⟩
  by_cases king : k = .king ∧ ∃ n, (n, ⟨c, .king⟩) ∈ before
  case pos =>
    obtain ⟨rfl, n, other⟩ := king
    exact .inr ⟨_, .secondKing free other⟩
  refine .inl ⟨inside, free, fun here => ?_, ?_⟩
  · exact not_or.1 fun outer => pawn ⟨here, outer⟩
  · rintro rfl n other
    exact king ⟨rfl, n, other⟩

/-- A list of pieces is placeable or has a first entry that offends. -/
theorem placeable_or_offence (pieces : List (Nat × Piece)) :
    Placeable pieces ∨ ∃ e, FirstOffence pieces e := by
  induction pieces using List.reverseRecOn with
  | nil => exact .inl .nil
  | append_singleton before entry ih =>
    rcases ih with placeable | ⟨e, early, first, rest, rfl, placeable, offends⟩
    · rcases fits_or_offends before entry with fits | ⟨e, offends⟩
      · exact .inl (placeable_concat.2 ⟨placeable, fits⟩)
      · exact .inr ⟨e, before, entry, [], rfl, placeable, offends⟩
    · exact .inr ⟨e, early, first, rest ++ [entry], by simp, placeable, offends⟩

/-! ## Pieces on the board -/

variable [ZobristKeys] {p q : Position} {side : Color} {s : Square} {setup : Setup}

/-- A position that still lacks everything but the listed pieces and the side to move. -/
structure Bears (p : Position) (pieces : List (Nat × Piece)) (side : Color) : Prop
    extends Blank p where
  inside : ∀ entry ∈ pieces, entry.1 < 64
  holds : ∀ s piece, p.pieceOn s = some piece ↔ (s.val, piece) ∈ pieces
  side : p.side = side
  ply : p.ply = 0

theorem Bears.empty : Bears .empty [] .white where
  toBlank := .empty
  inside := nofun
  holds s piece := by
    rw [Position.Shows.empty.pieceOn]
    exact iff_of_false nofun List.not_mem_nil
  side := rfl
  ply := rfl

theorem Bears.flipSide (bears : Bears p pieces side) : Bears p.flipSide pieces side.opposite where
  toBlank := bears.toBlank.flipSide
  inside := bears.inside
  holds := bears.holds
  side := congrArg Color.opposite bears.side
  ply := bears.ply

omit [ZobristKeys] in
theorem vacant_iff (holds : ∀ s piece, p.pieceOn s = some piece ↔ (s.val, piece) ∈ pieces) :
    p.pieceOn s = none ↔ s.val ∉ pieces.map (·.1) := by
  rw [Option.eq_none_iff_forall_ne_some, List.mem_map]
  simp only [ne_eq, holds]
  constructor
  · rintro none ⟨⟨n, piece⟩, member, rfl⟩
    exact none piece member
  · exact fun none piece member => none ⟨_, member, rfl⟩

theorem Bears.kingSquare_eq_none_iff (bears : Bears p pieces side) {c : Color} :
    p.kingSquare c = none ↔ ∀ n, (n, ⟨c, .king⟩) ∉ pieces := by
  rw [Option.eq_none_iff_forall_ne_some]
  constructor
  · intro none n member
    have inside := bears.inside _ member
    exact none ⟨n, inside⟩ (bears.shows.kingSquare_eq.2 ((bears.holds _ _).2 member))
  · intro none t noted
    exact none t ((bears.holds _ _).1 (bears.shows.kingSquare_eq.1 noted))

omit [ZobristKeys] in
theorem isBackRank_eq_false_iff :
    isBackRank s = false ↔ s.val / 8 ≠ 0 ∧ s.val / 8 ≠ 7 := by
  rw [isBackRank, Bool.or_eq_false_iff, beq_eq_false_iff_ne, beq_eq_false_iff_ne, ne_eq, ne_eq,
    Fin.ext_iff, Fin.ext_iff]
  rfl

theorem Bears.place (bears : Bears p before side) (fits : Fits before entry) :
    ∃ q, Setup.place p entry.1 entry.2 = .ok q ∧ Bears q (before ++ [entry]) side := by
  obtain ⟨n, piece⟩ := entry
  obtain ⟨s, rfl⟩ : ∃ s : Square, s.val = n := ⟨⟨n, fits.inside⟩, rfl⟩
  have vacant : p.pieceOn s = none := (vacant_iff bears.holds).2 fits.free
  have placed : Setup.place p s.val piece = .ok (p.put piece s) := by
    refine place_eq_ok_iff.2 ⟨s, Square.ofIndex?_eq_some_iff.2 rfl, vacant, fun pawn => ?_,
      fun king => bears.kingSquare_eq_none_iff.2 fun n other => ?_, rfl⟩
    · exact isBackRank_eq_false_iff.2 (fits.pawn pawn)
    · have self : piece = ⟨piece.color, .king⟩ := by rw [← king]
      exact fits.king king n (self ▸ other)
  refine ⟨_, placed, bears.toBlank.place placed, ?_, fun t other => ?_, bears.side, bears.ply⟩
  · exact List.forall_mem_append.2 ⟨bears.inside, List.forall_mem_singleton.2 fits.inside⟩
  · rw [Position.pieceOn_put, List.mem_append, List.mem_singleton, Prod.mk.injEq, ← Fin.ext_iff]
    by_cases here : t = s
    · subst here
      rw [Function.update_self, Option.some.injEq]
      have none : (t.val, other) ∉ before := fun member =>
        fits.free (List.mem_map_of_mem (f := (·.1)) member)
      simp only [none, false_or, true_and, eq_comm]
    · rw [Function.update_of_ne here, bears.holds]
      simp only [here, false_and, or_false]

/-- The board answers the entry that offends with its error. -/
theorem Bears.place_of_offends (bears : Bears p before side) (offends : Offends before entry e) :
    Setup.place p entry.1 entry.2 = .error e := by
  have vacant : ∀ s : Square, s.val ∉ before.map (·.1) → ¬ (p.pieceOn s).isSome = true := by
    intro s free
    rw [(vacant_iff bears.holds).2 free]
    exact nofun
  unfold Setup.place
  cases offends with
  | outside beyond => rw [Square.ofIndex?, dif_neg (Nat.not_lt.2 beyond)]
  | @twice s piece occupied =>
    have held : (p.pieceOn s).isSome = true := by
      rw [← Option.ne_none_iff_isSome]
      exact fun none => (vacant_iff bears.holds).1 none occupied
    rw [Square.ofIndex?_eq_some_iff.2 rfl]
    exact if_pos held
  | @backRank s c free outer =>
    have edge : isBackRank s = true := by
      rw [← Bool.not_eq_false, isBackRank_eq_false_iff]
      omega
    rw [Square.ofIndex?_eq_some_iff.2 rfl]
    exact (if_neg (vacant s free)).trans (if_pos edge)
  | @secondKing s c n free other =>
    have crowned : (p.kingSquare c).isSome = true := by
      rw [← Option.ne_none_iff_isSome]
      exact fun none => bears.kingSquare_eq_none_iff.1 none n other
    rw [Square.ofIndex?_eq_some_iff.2 rfl]
    exact (if_neg (vacant s free)).trans (if_pos crowned)

theorem placeAll_append (p : Position) (before after : List (Nat × Piece)) :
    placeAll p (before ++ after) = placeAll p before >>= (placeAll · after) := by
  induction before generalizing p with
  | nil => rfl
  | cons entry rest ih =>
    show (Setup.place p entry.1 entry.2 >>= fun q => placeAll q (rest ++ after)) =
      (Setup.place p entry.1 entry.2 >>= fun q => placeAll q rest) >>= (placeAll · after)
    cases Setup.place p entry.1 entry.2 with
    | error e => rfl
    | ok q => exact ih q

/-- What is placeable is placed. -/
theorem placeAll_of_placeable (placeable : Placeable pieces) :
    ∃ p, placeAll .empty pieces = .ok p ∧ Bears p pieces .white := by
  induction pieces using List.reverseRecOn with
  | nil => exact ⟨.empty, rfl, .empty⟩
  | append_singleton before entry ih =>
    obtain ⟨earlier, fits⟩ := placeable_concat.1 placeable
    obtain ⟨p, placed, bears⟩ := ih earlier
    obtain ⟨q, last, bears'⟩ := bears.place fits
    refine ⟨q, ?_, bears'⟩
    rw [placeAll_append, placed, ok_bind, placeAll, last]
    rfl

/-- What has an offence is not placed, and the error is that of the first. -/
theorem placeAll_of_offence (offence : FirstOffence pieces e) :
    placeAll .empty pieces = .error e := by
  obtain ⟨before, entry, after, rfl, placeable, offends⟩ := offence
  obtain ⟨p, placed, bears⟩ := placeAll_of_placeable placeable
  rw [placeAll_append, placed, ok_bind, placeAll, bears.place_of_offends offends]
  rfl

/-! ## The en-passant square and the rights -/

omit [ZobristKeys] in
theorem passed_iff (holds : ∀ s piece, p.pieceOn s = some piece ↔ (s.val, piece) ∈ pieces) :
    p.basis.Passed s ↔ s.val ∉ pieces.map (·.1) ∧ s.val / 8 = p.side.passedRank.val ∧
      ∃ v : Square, (v.val : Int) = s.val + 8 * -Step.forward p.side ∧
        (v.val, ⟨p.side.opposite, .pawn⟩) ∈ pieces := by
  have victim : ∀ v : Square, Position.enPassantVictim? p.side s = some v ↔
      (v.val : Int) = s.val + 8 * -Step.forward p.side := fun v =>
    Square.shift?_zero_eq_some_iff
  constructor
  · rintro ⟨rank, empty, v, behind, pawn⟩
    exact ⟨(vacant_iff holds).1 empty, Fin.ext_iff.1 rank, v, (victim v).1 behind,
      (holds v _).1 pawn⟩
  · rintro ⟨free, row, v, number, member⟩
    exact ⟨Fin.ext row, (vacant_iff holds).2 free, v, (victim v).2 number, (holds v _).2 member⟩

omit [ZobristKeys] in
/-- The square behind has the same number for both sides, up to the direction. -/
theorem passed_iff_justPassed
    (holds : ∀ s piece, p.pieceOn s = some piece ↔ (s.val, piece) ∈ pieces) :
    p.basis.Passed s ↔ JustPassed pieces p.side s.val := by
  rw [passed_iff holds]
  unfold JustPassed
  refine and_congr_right fun _ => ?_
  cases p.side with
  | white =>
    refine and_congr_right fun (row : s.val / 8 = 5) => ?_
    simp only [Step.forward]
    constructor
    · rintro ⟨v, number, member⟩
      rwa [show v.val = s.val - 8 by omega] at member
    · refine fun member => ⟨⟨s.val - 8, by omega⟩, ?_, member⟩
      show ((s.val - 8 : Nat) : Int) = _
      omega
  | black =>
    refine and_congr_right fun (row : s.val / 8 = 2) => ?_
    simp only [Step.forward]
    constructor
    · rintro ⟨v, number, member⟩
      rwa [show v.val = s.val + 8 by omega] at member
    · refine fun member => ⟨⟨s.val + 8, by omega⟩, ?_, member⟩
      show ((s.val + 8 : Nat) : Int) = _
      omega

theorem placeEnPassant_eq_ok_iff {target : Option Nat} : placeEnPassant p target = .ok q ↔
    target = none ∧ p = q ∨
      ∃ s : Square, target = some s.val ∧ p.basis.Passed s ∧ p.setEnPassant (some s) = q := by
  cases target with
  | none => simp [placeEnPassant]
  | some n =>
    rw [placeEnPassant]
    cases index : Square.ofIndex? n with
    | none =>
      refine iff_of_false nofun ?_
      rintro (⟨⟨⟩, -⟩ | ⟨s, number, -⟩)
      cases index.symm.trans (Square.ofIndex?_eq_some_iff.2 (Option.some.inj number))
    | some s =>
      cases Square.ofIndex?_eq_some_iff.1 index
      have checked : isPassed p s = true ↔ p.basis.Passed s :=
        ⟨passed_of_isPassed, isPassed_of_passed⟩
      constructor
      · intro placed
        dsimp only at placed
        split at placed
        · next passed => exact .inr ⟨s, rfl, checked.1 passed, Except.ok.inj placed⟩
        · cases placed
      · rintro (⟨⟨⟩, -⟩ | ⟨t, number, passed, rfl⟩)
        cases Fin.ext (Option.some.inj number)
        exact if_pos (checked.2 passed)

/-! ## Whole setups -/

/-- The steps of a setup once its pieces stand and the side to move is known. -/
def finish (setup : Setup) (q : Position) : Except InputError Position := do
  let r ← placeEnPassant (q.setRights (setup.rights.restrict (castlersHome q))) setup.enPassant
  return { r with fifty := setup.fifty, fullmove := setup.fullmove }

theorem toPosition_of_placeable (placeable : Placeable setup.pieces) :
    ∃ q, setup.toPosition = setup.finish q ∧ Bears q setup.pieces setup.side := by
  obtain ⟨p, placed, bears⟩ := placeAll_of_placeable placeable
  rw [toPosition, placed, ok_bind]
  cases setup.side with
  | white => exact ⟨p, rfl, bears⟩
  | black => exact ⟨p.flipSide, rfl, bears.flipSide⟩

theorem toPosition_of_offence (offence : FirstOffence setup.pieces e) :
    setup.toPosition = .error e := by
  rw [toPosition, placeAll_of_offence offence]
  rfl

theorem Bears.passed_iff (bears : Bears q setup.pieces setup.side) (rights : CastlingRights) :
    (q.setRights rights).basis.Passed s ↔ JustPassed setup.pieces setup.side s.val := by
  rw [← bears.side]
  exact passed_iff_justPassed (p := q.setRights rights) bears.holds

/-- The en-passant square is all that can still be wrong. -/
theorem Bears.finish (bears : Bears q setup.pieces setup.side)
    (fits : ∀ n, setup.enPassant = some n → n < 64 ∧ JustPassed setup.pieces setup.side n) :
    ∃ p, setup.finish q = .ok p := by
  suffices placed : ∃ r, placeEnPassant (q.setRights (setup.rights.restrict (castlersHome q)))
      setup.enPassant = .ok r by
    obtain ⟨r, placed⟩ := placed
    exact ⟨_, by rw [Setup.finish, placed, ok_bind]; rfl⟩
  cases target : setup.enPassant with
  | none => exact ⟨_, rfl⟩
  | some n =>
    obtain ⟨inside, passed⟩ := fits n target
    refine ⟨_, placeEnPassant_eq_ok_iff.2 (.inr ⟨⟨n, inside⟩, rfl, ?_, rfl⟩)⟩
    exact (bears.passed_iff _).2 passed

theorem Bears.castlersHome_iff (bears : Bears q pieces side) {c : Color} {w : Wing} :
    castlersHome q c w = true ↔ ((CastlePath.of c w).kingHome.val, ⟨c, .king⟩) ∈ pieces ∧
      ((CastlePath.of c w).rookHome.val, ⟨c, .rook⟩) ∈ pieces := by
  rw [castlersHome, Bool.and_eq_true, beq_iff_eq, beq_iff_eq, bears.holds, bears.holds]

theorem Bears.describes (bears : Bears q setup.pieces setup.side)
    (finished : setup.finish q = .ok p) :
    (∀ n, setup.enPassant = some n → n < 64 ∧ JustPassed setup.pieces setup.side n) ∧
      setup.Describes p := by
  have audited := (firm_of_turned bears.toBlank finished).1.consistent.audit
  obtain ⟨r, placed, finished⟩ := bind_eq_ok finished
  have same : ∃ target, r.basis = { q.basis with
      rights := setup.rights.restrict (castlersHome q), enPassant := target } ∧
      target.map Fin.val = setup.enPassant ∧
      ∀ n, setup.enPassant = some n → n < 64 ∧ JustPassed setup.pieces setup.side n := by
    rcases placeEnPassant_eq_ok_iff.1 placed with ⟨target, rfl⟩ | ⟨s, target, passed, rfl⟩
    · rw [target]
      exact ⟨none, congrArg (Basis.mk _ _ _ · _ _ _ _) bears.enPassant, rfl, nofun⟩
    · rw [target]
      refine ⟨some s, rfl, rfl, ?_⟩
      rintro _ ⟨⟩
      exact ⟨s.isLt, (bears.passed_iff _).1 passed⟩
  obtain ⟨target, basis, number, fits⟩ := same
  cases finished
  have board : r.pieceOn = q.pieceOn := congrArg Basis.board basis
  have rights : r.rights = setup.rights.restrict (castlersHome q) := congrArg Basis.rights basis
  refine ⟨fits, ?pieces, (congrArg Basis.side basis).trans bears.side, fun c w => ?rights,
    (congrArg (Option.map Fin.val) (congrArg Basis.enPassant basis)).trans number, rfl, rfl,
    (congrArg Basis.ply basis).trans bears.ply,
    (congrArg Basis.history basis).trans bears.history, audited⟩
  case pieces =>
    intro s piece
    rw [← bears.holds, ← board]
    rfl
  case rights =>
    rw [rights, CastlingRights.allows_restrict, Bool.and_eq_true, bears.castlersHome_iff]

/-- A setup describes one position. -/
theorem Describes.unique (firm : p.Firm) (left : setup.Describes p) (right : setup.Describes q) :
    p = q := by
  have basis : q.basis = p.basis := by
    refine Basis.ext (funext fun s => Option.ext fun piece => ?_) (right.side.trans left.side.symm)
      (CastlingRights.ext_allows fun c w => Bool.eq_iff_iff.2 ?_)
      (Option.map_injective (fun _ _ => Fin.ext) (right.enPassant.trans left.enPassant.symm))
      (right.fifty.trans left.fifty.symm) (right.fullmove.trans left.fullmove.symm)
      (right.ply.trans left.ply.symm) (right.history.trans left.history.symm)
    · exact (right.pieces s piece).trans (left.pieces s piece).symm
    · exact (right.rights c w).trans (left.rights c w).symm
  exact firm.consistent.eq_of_basis (firm.consistent.of_audit right.audited basis) basis.symm

/-- A setup is accepted if and only if it is admissible, and then for the position it describes. -/
theorem toPosition_eq_ok_iff :
    setup.toPosition = .ok p ↔ setup.Admissible ∧ setup.Describes p := by
  constructor
  · intro accepted
    rcases placeable_or_offence setup.pieces with placeable | ⟨e, offence⟩
    · obtain ⟨q, steps, bears⟩ := toPosition_of_placeable placeable
      obtain ⟨fits, describes⟩ := bears.describes (steps ▸ accepted)
      exact ⟨⟨placeable, fits⟩, describes⟩
    · cases accepted.symm.trans (toPosition_of_offence offence)
  · rintro ⟨admissible, describes⟩
    obtain ⟨q, steps, bears⟩ := toPosition_of_placeable admissible.placeable
    obtain ⟨p', finished⟩ := bears.finish admissible.enPassant
    have firm := (firm_of_turned bears.toBlank finished).1
    rw [steps, finished, (bears.describes finished).2.unique firm describes]

/-! ## The order of the pieces -/

omit [ZobristKeys] in
theorem Admissible.perm (admissible : setup.Admissible) (same : setup.pieces.Perm pieces) :
    { setup with pieces }.Admissible := by
  refine ⟨admissible.placeable.perm same, fun n target => ?_⟩
  obtain ⟨inside, free, shown⟩ := admissible.enPassant n target
  refine ⟨inside, fun taken => free ((same.map _).mem_iff.2 taken), ?_⟩
  cases side : setup.side with
  | white =>
    rw [side] at shown
    exact ⟨shown.1, same.mem_iff.1 shown.2⟩
  | black =>
    rw [side] at shown
    exact ⟨shown.1, same.mem_iff.1 shown.2⟩

theorem Describes.perm (describes : setup.Describes p) (same : setup.pieces.Perm pieces) :
    { setup with pieces }.Describes p where
  pieces s piece := (describes.pieces s piece).trans same.mem_iff
  side := describes.side
  rights c w := by
    rw [describes.rights, same.mem_iff, same.mem_iff]
  enPassant := describes.enPassant
  fifty := describes.fifty
  fullmove := describes.fullmove
  ply := describes.ply
  history := describes.history
  audited := describes.audited

theorem toPosition_perm (setup : Setup) (same : setup.pieces.Perm pieces)
    (accepted : setup.toPosition = .ok p) : { setup with pieces }.toPosition = .ok p := by
  obtain ⟨admissible, describes⟩ := toPosition_eq_ok_iff.1 accepted
  exact toPosition_eq_ok_iff.2 ⟨admissible.perm same, describes.perm same⟩

end

/-- A setup is accepted if and only if it is admissible.  The position is the one that it describes,
whatever the order of its pieces; of a number that asks for rights the low four bits count.  Where
the pieces cannot stand on a board together, the error is that of the first one that does not go
with those before it. -/
theorem outcome_of_setup [ZobristKeys] (setup : Setup) :
    ((∃ p, setup.toPosition = .ok p) ↔ setup.Admissible) ∧
      (∀ p, setup.toPosition = .ok p → setup.Describes p) ∧
      (∀ (bits : Nat) (p : Position), { setup with rights := .ofBits bits }.toPosition = .ok p →
        ∀ c w, p.rights.allows c w = true ↔ bits.testBit (CastlingRights.bit c w) = true ∧
          ((CastlePath.of c w).kingHome.val, ⟨c, .king⟩) ∈ setup.pieces ∧
          ((CastlePath.of c w).rookHome.val, ⟨c, .rook⟩) ∈ setup.pieces) ∧
      (∀ pieces, setup.pieces.Perm pieces → ∀ p,
        setup.toPosition = .ok p ↔ { setup with pieces }.toPosition = .ok p) ∧
      (¬ Placeable setup.pieces → ∀ e,
        setup.toPosition = .error e ↔ FirstOffence setup.pieces e) := by
  refine ⟨⟨?_, fun admissible => ?_⟩, fun p accepted => (toPosition_eq_ok_iff.1 accepted).2,
    fun bits p accepted c w => ?_, fun pieces same p => ⟨toPosition_perm setup same, ?_⟩,
    fun broken e => ⟨fun failed => ?_, toPosition_of_offence⟩⟩
  · rintro ⟨p, accepted⟩
    exact (toPosition_eq_ok_iff.1 accepted).1
  · obtain ⟨q, steps, bears⟩ := toPosition_of_placeable admissible.placeable
    rw [steps]
    exact bears.finish admissible.enPassant
  · rw [← CastlingRights.allows_ofBits]
    exact (toPosition_eq_ok_iff.1 accepted).2.rights c w
  · exact toPosition_perm { setup with pieces } same.symm
  · rcases placeable_or_offence setup.pieces with placeable | ⟨e', offence⟩
    · exact absurd placeable broken
    · cases failed.symm.trans (toPosition_of_offence offence)
      exact offence

end Setup

/-- The rehearsal with a second king of Black, on top of White's, and a pawn beside the board. -/
def Rehearsal.crowded : Setup :=
  { Rehearsal.setup with
    pieces := Rehearsal.setup.pieces ++ [(4, ⟨.black, .king⟩), (64, ⟨.black, .pawn⟩)] }

namespace Setup

/-- The order of the pieces matters only where they are too many. -/
theorem outcome_of_rehearsal :
    { Rehearsal.setup with pieces := Rehearsal.setup.pieces.reverse }.toPosition =
      .ok Rehearsal.start ∧
    Rehearsal.crowded.toPosition = .error (.squareTwice 4) := by
  obtain ⟨acceptance, -, -, order, -⟩ := outcome_of_setup Rehearsal.setup
  obtain ⟨-, -, -, -, failure⟩ := outcome_of_setup Rehearsal.crowded
  have placeable := (acceptance.1 ⟨_, Rehearsal.accepted⟩).placeable
  refine ⟨(order _ (List.reverse_perm _).symm _).1 Rehearsal.accepted,
    (failure (by decide) _).2 ⟨Rehearsal.setup.pieces, _, _, rfl, placeable, ?_⟩⟩
  exact .twice (s := 4) (by decide)

end Setup

end ChessEngine
