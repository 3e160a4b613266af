import ChessEngine.Proofs.Position.Kings
import ChessEngine.Rules.Succession

/-!
# The legality gate and the rules

Making a move goes through a dozen steps on intermediate boards, and then asks
the attack oracle.  `make_of_reachable` says what comes of it in terms of the
rules alone: a generated move has exactly one successor, and the gate accepts
the move, leading there, if and only if the mover's king is safe in it.  What a
rejected move leaves behind is settled by `rejected_of_reachable`.

`Firm.succession` compares the effect of a move (`Basis.after`) with the rules
part by part.  That there is only one successor (`Succession.unique`) needs no
steps: the rules leave no part of a position open.
-/

namespace ChessEngine

theorem Counter.toNat_next (n : Counter) : (Counter.next n).toNat = min (n.toNat + 1) 65535 := by
  unfold Counter.next
  split
  next full => rw [full]; rfl
  next open_ =>
    have below : n.toNat < 65535 := by
      have bound := n.toNat_lt
      have apart : n.toNat ≠ 65535 := fun same => open_ (UInt16.toNat_inj.1 same)
      omega
    rw [UInt16.toNat_add, UInt16.toNat_one, Nat.mod_eq_of_lt (by omega)]
    omega

theorem CastlePath.kingTarget_inj {c : Color} {w v : Wing} :
    (of c w).kingTarget = (of c v).kingTarget ↔ w = v := by
  cases c <;> cases w <;> cases v <;> decide

namespace Basis

variable {b : Basis} {mover : Piece} {m : Move} {s : Square}

theorem Carries.boardAfter_origin (carries : b.Carries mover m) :
    b.boardAfter mover m m.origin = none := by
  rw [boardAfter, Function.update_of_ne carries.apart.symm, Function.update_self]

end Basis

namespace Position

variable [ZobristKeys] {p q q' : Position} {b : Basis} {mover : Piece} {m : Move} {s : Square}
  {w : Wing}

/-! ## The board -/

omit [ZobristKeys] in
theorem boardAfter_passed (shape : p.basis.Shape mover m) (sound : p.basis.Sound)
    (taken : p.TakesPassing m s) : p.basis.boardAfter mover m s = none := by
  obtain ⟨flagged, behind⟩ := taken
  cases shape with
  | ordinary ordinary => cases ordinary.notEnPassant.symm.trans flagged
  | @enPassant origin target pawn held set =>
    subst pawn
    have passed := sound.passed target set
    obtain ⟨victim, behind', held'⟩ := passed.pawn
    cases behind.symm.trans behind'
    obtain ⟨originVictim, targetVictim, -⟩ := passed.apart behind' held' held
    rw [Basis.boardAfter_of_ne targetVictim.symm originVictim.symm,
      Basis.boardAside_enPassant behind', Function.update_self]
  | castle => cases flagged

omit [ZobristKeys] in
theorem boardAfter_castled (shape : p.basis.Shape mover m) (sound : p.basis.Sound)
    (castles : p.CastlesOn m w) :
    p.basis.boardAfter mover m (CastlePath.of p.side w).rookHome = none ∧
      p.basis.boardAfter mover m (CastlePath.of p.side w).rookTarget = some ⟨p.side, .rook⟩ := by
  obtain ⟨flagged, target⟩ := castles
  cases shape with
  | ordinary ordinary => cases ordinary.notCastle.symm.trans flagged
  | enPassant => cases flagged
  | @castle v _ right _ =>
    obtain rfl : v = w := CastlePath.kingTarget_inj.1 target
    have rook := (sound.castlers p.side v right).2
    have apart := CastlePath.apart p.side v
    constructor
    · rw [Basis.boardAfter_of_ne apart.target_rook.symm apart.home_rook.symm,
        Basis.boardAside_castle]
      exact (Function.update_of_ne apart.rook_cross _ _).trans (Function.update_self ..)
    · rw [Basis.boardAfter_of_ne apart.target_cross.symm apart.home_cross.symm,
        Basis.boardAside_castle]
      exact (Function.update_self ..).trans rook

omit [ZobristKeys] in
theorem boardAfter_elsewhere (shape : p.basis.Shape mover m) (sound : p.basis.Sound)
    (notOrigin : s ≠ m.origin) (notTarget : s ≠ m.target) (notPassed : ¬ p.TakesPassing m s)
    (notCastled : ∀ w, p.CastlesOn m w →
      s ≠ (CastlePath.of p.side w).rookHome ∧ s ≠ (CastlePath.of p.side w).rookTarget) :
    p.basis.boardAfter mover m s = p.pieceOn s := by
  rw [Basis.boardAfter_of_ne notTarget notOrigin]
  cases shape with
  | ordinary ordinary => exact congrFun ordinary.boardAside_eq s
  | @enPassant origin target _ _ set =>
    obtain ⟨victim, behind, -⟩ := (sound.passed target set).pawn
    have apart : s ≠ victim := fun same => notPassed ⟨rfl, same ▸ behind⟩
    rw [Basis.boardAside_enPassant behind, Function.update_of_ne apart]
    rfl
  | @castle v =>
    obtain ⟨notHome, notCross⟩ := notCastled v ⟨rfl, rfl⟩
    rw [Basis.boardAside_castle]
    exact (Function.update_of_ne notCross _ _).trans (Function.update_of_ne notHome _ _)

/-! ## The successor of a generated move -/

omit [ZobristKeys] in
/-- A double push notes the square next to its origin. -/
theorem Movement.shift?_passedSquare {c : Color} (movement : p.Movement c m)
    (double : m.isDoublePush = true) : p.pieceOn m.origin = some ⟨c, .pawn⟩ ∧
      m.origin.shift? 0 (Step.forward c) = some (passedSquare m.origin m.target) := by
  cases movement with
  | doublePush held _ next _ further _ =>
    rw [passedSquare_eq next ((Square.shift?_twice next).2 further)]
    exact ⟨held, next⟩
  | _ => cases double

omit [ZobristKeys] in
theorem Movement.enPassantAfter_eq_some {c : Color} (movement : p.Movement c m)
    (held : p.pieceOn m.origin = some mover) : enPassantAfter m mover = some s ↔
      m.isDoublePush = true ∧ m.origin.shift? 0 (Step.forward c) = some s := by
  unfold enPassantAfter
  by_cases double : m.isDoublePush = true
  · obtain ⟨pawn, next⟩ := movement.shift?_passedSquare double
    cases held.symm.trans pawn
    simp [double, next]
  · simp [double]

/-- What carrying a generated move out leads to is what the rules make of the position. -/
theorem Firm.succession (firm : p.Firm) (member : m ∈ p.pseudoMoves)
    (applied : p.apply m = .ok q) : p.Succession m q := by
  obtain ⟨mover, shape, shows⟩ := firm.shows_of_apply member applied
  have carries := shape.carries firm.sound
  have held : p.pieceOn m.origin = some mover := carries.origin
  have own : mover.color = p.side := shape.own
  have movement := (mem_pseudoMovesOf firm.consistent).1 member
  have board : q.pieceOn = p.basis.boardAfter mover m := shows.pieceOn
  have fifty : q.fifty = fiftyAfter p.fifty m mover := congrArg Basis.fifty shows.basis_eq
  constructor
  case origin => rw [board, carries.boardAfter_origin]
  case target => rw [board, Basis.boardAfter_target, held]
  case passed => exact fun v taken => board ▸ boardAfter_passed shape firm.sound taken
  case castled => exact fun w castles => board ▸ boardAfter_castled shape firm.sound castles
  case elsewhere =>
    intro s notOrigin notTarget notPassed notCastled
    rw [board, boardAfter_elsewhere shape firm.sound notOrigin notTarget notPassed notCastled]
  case side => exact shows.side
  case rights =>
    intro c w
    rw [shows.rights]
    exact CastlingRights.allows_afterTouching
  case enPassant =>
    intro s
    rw [shows.enPassant]
    exact movement.enPassantAfter_eq_some held
  case fifty =>
    have pawn : p.pieceOn m.origin = some ⟨p.side, .pawn⟩ ↔ mover.kind = .pawn := by
      obtain ⟨c, k⟩ := mover
      cases own
      simp [held]
    by_cases resets : m.isCapture = true ∨ p.pieceOn m.origin = some ⟨p.side, .pawn⟩
    · have resets' : m.isCapture = true ∨ mover.kind = .pawn := resets.imp_right pawn.1
      rw [fifty, if_pos resets]
      simp [fiftyAfter, resets']
    · have runs : ¬ (m.isCapture = true ∨ mover.kind = .pawn) := mt (.imp_right pawn.2) resets
      rw [fifty, if_neg resets, ← Counter.toNat_next]
      simp [fiftyAfter, runs]
  case fullmove =>
    rw [firm.fullmove_of_apply member applied]
    cases p.side with
    | white => rfl
    | black => exact Counter.toNat_next _
  case ply => exact firm.ply_of_apply member applied
  case history =>
    rw [shows.history]
    rfl
  case audited => exact shows.consistent.audit

/-! ## There is only one successor -/

theorem Succession.pieceOn_eq (left : p.Succession m q) (right : p.Succession m q') :
    q.pieceOn = q'.pieceOn := by
  funext s
  by_cases atOrigin : s = m.origin
  · rw [atOrigin, left.origin, right.origin]
  by_cases atTarget : s = m.target
  · rw [atTarget, left.target, right.target]
  by_cases passed : p.TakesPassing m s
  · rw [left.passed s passed, right.passed s passed]
  by_cases castled : ∀ w, p.CastlesOn m w →
      s ≠ (CastlePath.of p.side w).rookHome ∧ s ≠ (CastlePath.of p.side w).rookTarget
  · rw [left.elsewhere s atOrigin atTarget passed castled,
      right.elsewhere s atOrigin atTarget passed castled]
  · simp only [not_forall, not_and_or, Classical.not_not] at castled
    obtain ⟨w, castles, rfl | rfl⟩ := castled
    · rw [(left.castled w castles).1, (right.castled w castles).1]
    · rw [(left.castled w castles).2, (right.castled w castles).2]

theorem Succession.basis_eq (left : p.Succession m q) (right : p.Succession m q') :
    q.basis = q'.basis := by
  apply Basis.ext
  case board => exact left.pieceOn_eq right
  case side => exact left.side.trans right.side.symm
  case rights =>
    refine CastlingRights.ext_allows fun c w => Bool.eq_iff_iff.2 ?_
    exact (left.rights c w).trans (right.rights c w).symm
  case enPassant => exact Option.ext fun s => (left.enPassant s).trans (right.enPassant s).symm
  case fifty => exact UInt16.toNat_inj.1 (left.fifty.trans right.fifty.symm)
  case fullmove => exact UInt16.toNat_inj.1 (left.fullmove.trans right.fullmove.symm)
  case ply => exact left.ply.trans right.ply.symm
  case history => exact congrArg History.mk (left.history.trans right.history.symm)

/-- An audit does not count kings, so one of the two has to be known to be consistent. -/
theorem Succession.unique (left : p.Succession m q) (right : p.Succession m q')
    (consistent : q.Consistent) : q' = q :=
  (consistent.of_audit right.audited (right.basis_eq left)).eq_of_basis consistent
    (right.basis_eq left)

/-! ## The legality gate -/

theorem kingSafe_iff (consistent : q.Consistent) {c : Color} :
    q.KingSafe c ↔ ¬ q.inCheck c = true := by
  rw [inCheck_iff consistent, not_exists]
  simp only [not_and]
  rfl

/-- A generated move has exactly one successor by the rules.  If the mover's king is safe there, the
move is accepted and leads there; if it is not, the move is rejected. -/
theorem make_of_reachable (reachable : p.Reachable) (room : p.history.size < historyCapacity)
    (member : m ∈ p.pseudoMoves) :
    ∃ q, (∀ q', p.Succession m q' ↔ q' = q) ∧
      (q.KingSafe p.side → p.make m = .ok (true, q)) ∧
      (¬ q.KingSafe p.side → ∃ r, p.make m = .ok (false, r)) := by
  have firm := reachable.grounded.firm
  obtain ⟨q, applied⟩ := firm.apply member room
  have consistent := (firm.of_apply member applied).consistent
  have succession := firm.succession member applied
  refine ⟨q, fun q' => ⟨fun other => succession.unique other consistent, ?_⟩, ?_, ?_⟩
  · rintro rfl
    exact succession
  · intro safe
    have unattacked := (kingSafe_iff consistent).1 safe
    rw [firm.make_eq member applied, if_neg unattacked]
  · intro exposed
    have attacked := Classical.not_not.1 (mt (kingSafe_iff consistent).2 exposed)
    exact ⟨_, (firm.make_eq member applied).trans (if_pos attacked)⟩

end Position

namespace PinnedRank

/-- Two pawns between a king and a rook on the fifth rank: once the white one has taken the black
one in passing, nothing stands between them. -/
def setup : Setup where
  pieces := [(32, ⟨.white, .king⟩), (36, ⟨.white, .pawn⟩), (35, ⟨.black, .pawn⟩),
    (39, ⟨.black, .rook⟩), (60, ⟨.black, .king⟩)]
  side := .white
  rights := .none
  enPassant := some 43
  fifty := 0
  fullmove := 1

def start : Position := setup.toPosition.toOption.get (by decide +kernel)

def capture : Move :=
  ⟨36, 43, some ⟨.black, .pawn⟩, none, { MoveFlags.none with capture := true, enPassant := true }⟩

theorem reachable : start.Reachable := ⟨setup, start, eq_ok_get _, .refl⟩

end PinnedRank

namespace Position

/-- The capture uncovers the king, the push of the same pawn does not. -/
theorem make_of_pinnedRank :
    (∃ q, PinnedRank.start.Succession PinnedRank.capture q ∧ ¬ q.KingSafe .white) ∧
      ∃ q, PinnedRank.start.Succession (.plain 36 44) q ∧ q.KingSafe .white := by
  constructor
  · obtain ⟨q, successor, accepts, -⟩ := make_of_reachable PinnedRank.reachable
      (by decide +kernel) (m := PinnedRank.capture) (by decide +kernel)
    refine ⟨q, (successor q).2 rfl, fun safe => ?_⟩
    have rejected :
        (PinnedRank.start.make PinnedRank.capture).toOption.map Prod.fst = some false := by
      decide +kernel
    rw [accepts safe] at rejected
    cases rejected
  · obtain ⟨q, successor, -, rejects⟩ := make_of_reachable PinnedRank.reachable
      (by decide +kernel) (m := .plain 36 44) (by decide +kernel)
    refine ⟨q, (successor q).2 rfl, by_contra fun exposed => ?_⟩
    obtain ⟨r, made⟩ := rejects exposed
    have accepted : (PinnedRank.start.make (.plain 36 44)).toOption.map Prod.fst = some true := by
      decide +kernel
    rw [made] at accepted
    cases accepted

end Position

/-! ## Rejected moves -/

theorem Basis.fullmoveBefore_fullmoveAfter_eq (fullmove : Counter) (c : Color) :
    fullmoveBefore (fullmoveAfter fullmove c) c =
      if c = .black ∧ fullmove = 65535 then 65534 else fullmove := by
  by_cases full : fullmove = 65535
  · subst full
    cases c <;> decide
  · rw [fullmoveBefore_fullmoveAfter c full, if_neg (full ·.2)]

namespace Position

/-- A rejected move leaves the position as it was, but for one number: the counter of moves stops
at 65535, and taking Black's move back from there lowers it all the same. -/
theorem rejected_of_reachable [ZobristKeys] {p q : Position} {m : Move} (reachable : p.Reachable)
    (member : m ∈ p.pseudoMoves) (made : p.make m = .ok (false, q)) :
    q = { p with fullmove := if p.side = .black ∧ p.fullmove = 65535 then 65534 else p.fullmove } ∧
      (q = p ↔ ¬ (p.side = .black ∧ p.fullmove = 65535)) := by
  have restored : q = { p with
      fullmove := if p.side = .black ∧ p.fullmove = 65535 then 65534 else p.fullmove } := by
    rcases reachable.grounded.firm.make_cases member made with ⟨⟨⟩, -⟩ | ⟨-, rejected⟩
    rw [rejected, Position.rejected, Basis.fullmoveBefore_fullmoveAfter_eq, recount]
  refine ⟨restored, fun same full => ?_, fun count => ?_⟩
  · have lower : q.fullmove = 65534 := by rw [restored, if_pos full]
    rw [same, full.2] at lower
    exact absurd lower (by decide)
  · rw [restored, if_neg count]

end Position

namespace PinnedRook

/-- Black's rook is pinned by White's, and Black is to make move 65535. -/
def setup : Setup where
  pieces := [(4, ⟨.white, .king⟩), (12, ⟨.white, .rook⟩), (52, ⟨.black, .rook⟩),
    (60, ⟨.black, .king⟩)]
  side := .black
  rights := .none
  enPassant := none
  fifty := 0
  fullmove := 65535

def start : Position := setup.toPosition.toOption.get (by decide +kernel)

theorem accepted : setup.toPosition = .ok start := eq_ok_get _

/-- The answer to a move of the rook off the file. -/
def answer : Bool × Position := (start.make (.plain 52 51)).toOption.get (by decide +kernel)

def left : Position := answer.2

theorem made : start.make (.plain 52 51) = .ok (false, left) := by
  have rejected : answer.1 = false := by decide +kernel
  exact (eq_ok_get _).trans (congrArg Except.ok (Prod.ext rejected rfl))

end PinnedRook

namespace Position

theorem rejected_of_pinnedRook :
    PinnedRook.left = { PinnedRook.start with fullmove := 65534 } := by
  have full : PinnedRook.start.side = .black ∧ PinnedRook.start.fullmove = 65535 := by
    decide +kernel
  have restored := (rejected_of_reachable ⟨_, _, PinnedRook.accepted, .refl⟩ (by decide +kernel)
    PinnedRook.made).1
  rwa [if_pos full] at restored

/-- Black's move 65535 is rejected, and then it is Black's move 65534. -/
theorem lowered_of_pinnedRook : PinnedRook.setup.toPosition = .ok PinnedRook.start ∧
    .plain 52 51 ∈ PinnedRook.start.pseudoMoves ∧
    PinnedRook.start.make (.plain 52 51) = .ok (false, PinnedRook.left) ∧
    PinnedRook.start.fullmove = 65535 ∧ PinnedRook.left.fullmove = 65534 ∧
    PinnedRook.left ≠ PinnedRook.start := by
  have lower : PinnedRook.left.fullmove = 65534 := by decide +kernel
  have full : PinnedRook.start.fullmove = 65535 := by decide +kernel
  refine ⟨PinnedRook.accepted, by decide +kernel, PinnedRook.made, full, lower, fun same => ?_⟩
  rw [same, full] at lower
  exact absurd lower (by decide)

end Position

end ChessEngine
