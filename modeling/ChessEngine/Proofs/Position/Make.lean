import ChessEngine.Proofs.Position.Shape

/-!
# What making a move does, and how it is taken back

`Basis.after` is the effect of a move on what determines a position.
`Shows.apply` says that a generated move of a sound position can be carried out
and has exactly this effect; `Shows.takeBack` that taking back from any position
with this effect, whatever became of its move counters, leads to the basis from
before.  Both go through the steps of the operation in their own order.
-/

namespace ChessEngine

namespace Basis

/-- The board once the second piece of an en-passant capture or of castling has left or moved. -/
def boardAside (b : Basis) (m : Move) : Square → Option Piece :=
  if m.isEnPassant then
    match Position.enPassantVictim? b.side m.target with
    | some victim => Function.update b.board victim none
    | none => b.board
  else if m.isCastle then
    match CastlePath.ofKingTarget? m.target with
    | some path => Function.update (Function.update b.board path.rookHome none) path.rookTarget
        (b.board path.rookHome)
    | none => b.board
  else b.board

/-- The board after a move of `mover`: the origin is empty, and the mover, or what it promotes to,
stands on the target. -/
def boardAfter (b : Basis) (mover : Piece) (m : Move) : Square → Option Piece :=
  Function.update (Function.update (b.boardAside m) m.origin none) m.target
    (m.promoted.or (some mover))

/-- What carrying a move out needs to know of the board. -/
structure Carries (b : Basis) (mover : Piece) (m : Move) : Prop where
  origin : b.board m.origin = some mover
  origin_aside : b.boardAside m m.origin = some mover
  apart : m.target ≠ m.origin
  target : b.boardAside m m.target = if m.isCapture && !m.isEnPassant then m.captured else none
  victim : (m.isCapture && !m.isEnPassant) = true → m.captured.isSome = true
  promoted : ∀ piece, m.promoted = some piece →
    mover = ⟨b.side, .pawn⟩ ∧ piece.kind ≠ .king

/-- If nothing is captured on the target, the target is empty anyway. -/
theorem Carries.vacated {b : Basis} {mover : Piece} {m : Move} (carries : b.Carries mover m)
    (spares : (m.isCapture && !m.isEnPassant) = false) :
    Function.update (b.boardAside m) m.target none = b.boardAside m := by
  have target := carries.target
  rw [spares] at target
  exact Function.update_eq_self_iff.2 target.symm

/-- The number of the move after one by the given side. -/
def fullmoveAfter (fullmove : Counter) : Color → Counter
  | .white => fullmove
  | .black => Counter.next fullmove

/-- The number of the move before one by the given side. -/
def fullmoveBefore (fullmove : Counter) : Color → Counter
  | .white => fullmove
  | .black => Counter.previous fullmove

/-- The record of a move made in a position with the given hash. -/
def undo (b : Basis) (m : Move) (hash : UInt64) : Undo := ⟨m, b.enPassant, b.rights, b.fifty, hash⟩

/-- The effect of a move of `mover`, made in a position with the given hash. -/
def after (b : Basis) (mover : Piece) (m : Move) (hash : UInt64) : Basis where
  board := b.boardAfter mover m
  side := b.side.opposite
  rights := b.rights.afterTouching m.origin m.target
  enPassant := Position.enPassantAfter m mover
  fifty := Position.fiftyAfter b.fifty m mover
  fullmove := fullmoveAfter b.fullmove b.side
  ply := b.ply + 1
  history := ⟨b.undo m hash :: b.history.entries⟩

end Basis

/-- The four squares of a castling move are different, and those that are entered lie between. -/
structure CastlePath.Apart (path : CastlePath) : Prop where
  home_target : path.kingHome ≠ path.kingTarget
  home_rook : path.kingHome ≠ path.rookHome
  home_cross : path.kingHome ≠ path.rookTarget
  target_rook : path.kingTarget ≠ path.rookHome
  target_cross : path.kingTarget ≠ path.rookTarget
  rook_cross : path.rookHome ≠ path.rookTarget
  target_between : path.kingTarget ∈ path.between
  cross_between : path.rookTarget ∈ path.between

theorem CastlePath.apart (c : Color) (w : Wing) : (of c w).Apart := by
  cases c <;> cases w <;> exact ⟨by decide, by decide, by decide, by decide, by decide, by decide,
    by decide, by decide⟩

namespace Basis

variable {b : Basis} {mover : Piece} {m : Move}

theorem Ordinary.boardAside_eq (ordinary : b.Ordinary mover m) : b.boardAside m = b.board := by
  rw [boardAside, ordinary.notEnPassant, ordinary.notCastle]
  rfl

theorem Ordinary.carries (ordinary : b.Ordinary mover m) : b.Carries mover m where
  origin := ordinary.origin
  origin_aside := by rw [ordinary.boardAside_eq, ordinary.origin]
  apart same := by
    have held := ordinary.target
    rw [same, ordinary.origin] at held
    have enemy := ordinary.enemy mover held.symm
    rw [ordinary.own] at enemy
    exact b.side.opposite_ne enemy.symm
  target := by
    rw [ordinary.boardAside_eq, ordinary.target, ordinary.capture, ordinary.notEnPassant]
    cases m.captured <;> rfl
  victim capture := by
    rw [ordinary.capture, ordinary.notEnPassant] at capture
    simpa using capture
  promoted piece promoted := by
    obtain ⟨pawn, -, listed⟩ := ordinary.promoted piece promoted
    refine ⟨?_, fun king => ?_⟩
    · rw [← ordinary.own, ← pawn]
    · rw [king] at listed
      exact absurd listed (by decide)

variable {origin target victim : Square}

/-- The squares of an en-passant capture. -/
theorem Passed.apart (passed : b.Passed target)
    (behind : Position.enPassantVictim? b.side target = some victim)
    (held : b.board victim = some ⟨b.side.opposite, .pawn⟩)
    (own : b.board origin = some ⟨b.side, .pawn⟩) :
    origin ≠ victim ∧ target ≠ victim ∧ target ≠ origin := by
  refine ⟨?_, ?_, ?_⟩
  · rintro rfl
    rw [held, Option.some.injEq, Piece.mk.injEq] at own
    exact b.side.opposite_ne own.1
  · rintro rfl
    rw [passed.empty] at held
    cases held
  · rintro rfl
    rw [passed.empty] at own
    cases own

theorem boardAside_enPassant (behind : Position.enPassantVictim? b.side target = some victim)
    {captured promoted : Option Piece} :
    b.boardAside ⟨origin, target, captured, promoted,
      { MoveFlags.none with capture := true, enPassant := true }⟩ =
        Function.update b.board victim none := by
  rw [boardAside]
  simp [Move.isEnPassant, behind]

theorem boardAside_castle {w : Wing} :
    b.boardAside ⟨(CastlePath.of b.side w).kingHome, (CastlePath.of b.side w).kingTarget,
      none, none, { MoveFlags.none with castle := true }⟩ =
        Function.update (Function.update b.board (CastlePath.of b.side w).rookHome none)
          (CastlePath.of b.side w).rookTarget (b.board (CastlePath.of b.side w).rookHome) := by
  rw [boardAside]
  simp [Move.isEnPassant, Move.isCastle, MoveFlags.none, CastlePath.ofKingTarget?_kingTarget]

theorem Shape.own (shape : b.Shape mover m) : mover.color = b.side := by
  cases shape with
  | ordinary ordinary => exact ordinary.own
  | enPassant pawn => rw [pawn]
  | castle king => rw [king]

theorem Shape.carries (shape : b.Shape mover m) (sound : b.Sound) : b.Carries mover m := by
  cases shape with
  | ordinary ordinary => exact ordinary.carries
  | @enPassant origin target pawn held set =>
    subst pawn
    have passed := sound.passed target set
    obtain ⟨victim, behind, taken⟩ := passed.pawn
    obtain ⟨originVictim, targetVictim, targetOrigin⟩ := passed.apart behind taken held
    constructor
    case origin => exact held
    case origin_aside =>
      rw [boardAside_enPassant behind, Function.update_of_ne originVictim, held]
    case apart => exact targetOrigin
    case target =>
      rw [boardAside_enPassant behind, Function.update_of_ne targetVictim, passed.empty]
      rfl
    case victim => exact nofun
    case promoted => exact nofun
  | @castle w king right clear =>
    subst king
    have home := (sound.castlers b.side w right).1
    have apart := CastlePath.apart b.side w
    constructor
    case origin => exact home
    case origin_aside =>
      rw [boardAside_castle, Function.update_of_ne apart.home_cross,
        Function.update_of_ne apart.home_rook, home]
    case apart => exact apart.home_target.symm
    case target =>
      rw [boardAside_castle, Function.update_of_ne apart.target_cross,
        Function.update_of_ne apart.target_rook, clear _ apart.target_between]
      rfl
    case victim => exact nofun
    case promoted => exact nofun

end Basis

namespace Position

variable [ZobristKeys] {p q : Position} {b : Basis} {mover : Piece} {m : Move}

theorem Shows.congr {b' : Basis} (shows : p.Shows b) (same : b = b') : p.Shows b' := same ▸ shows

/-! ## The steps of a move -/

theorem Shows.record (shows : p.Shows b) (room : b.history.size < historyCapacity) :
    Yields (p.record m) { b with history := ⟨b.undo m p.hash :: b.history.entries⟩ } := by
  obtain ⟨consistent, rfl⟩ := shows
  have pushed : p.history.push ⟨m, p.enPassant, p.rights, p.fifty, p.hash⟩ =
      .ok ⟨⟨m, p.enPassant, p.rights, p.fifty, p.hash⟩ :: p.history.entries⟩ := if_pos room
  unfold Position.record
  rw [pushed]
  exact .of_shows ((Shows.mk consistent rfl).withClocks _ _ _ _)

theorem Shows.setFifty (shows : p.Shows b) (fifty : Counter) :
    { p with fifty }.Shows { b with fifty } := by
  obtain ⟨consistent, rfl⟩ := shows
  exact (Shows.mk consistent rfl).withClocks _ _ _ _

theorem Shows.advance (shows : p.Shows b) :
    p.advance.Shows { b with
      side := b.side.opposite
      fullmove := Basis.fullmoveAfter b.fullmove b.side
      ply := b.ply + 1 } := by
  obtain ⟨consistent, rfl⟩ := shows
  refine Shows.congr ((Shows.mk consistent rfl).withClocks _ _ _ _).flipSide
    (Basis.ext rfl rfl rfl rfl rfl ?_ rfl rfl)
  show _ = Basis.fullmoveAfter p.fullmove p.side
  cases p.side <;> rfl

theorem Shows.retreat (shows : p.Shows b) :
    p.retreat.Shows { b with
      side := b.side.opposite
      fullmove := Basis.fullmoveBefore b.fullmove b.side.opposite
      ply := b.ply - 1 } := by
  obtain ⟨consistent, rfl⟩ := shows
  have back := ((Shows.mk consistent rfl).withClocks p.fifty p.fullmove (p.ply - 1)
    p.history).flipSide
  unfold Position.retreat
  cases side : p.side with
  | white =>
    simp only [Position.flipSide, side, Color.opposite] at back ⊢
    refine (back.withClocks _ _ _ _).congr ?_
    simp [basis, side, Basis.fullmoveBefore]
  | black =>
    simp only [Position.flipSide, side, Color.opposite] at back ⊢
    refine back.congr ?_
    simp [basis, side, Basis.fullmoveBefore]

theorem Shows.applyCapture (shows : p.Shows b)
    (target : b.board m.target = if m.isCapture && !m.isEnPassant then m.captured else none)
    (victim : (m.isCapture && !m.isEnPassant) = true → m.captured.isSome = true) :
    Yields (p.applyCapture m) (b.assign m.target none) := by
  unfold Position.applyCapture
  cases taken : m.isCapture && !m.isEnPassant with
  | false =>
    rw [taken] at target
    exact .of_shows (shows.congr (Basis.assign_eq_self target).symm)
  | true =>
    obtain ⟨piece, captured⟩ := Option.isSome_iff_exists.1 (victim taken)
    rw [taken, if_pos rfl, captured] at target
    rw [captured]
    exact shows.remove target

theorem Shows.applyPromotion (shows : p.Shows b) (held : b.board m.target = some mover)
    (promoted : ∀ piece, m.promoted = some piece → piece.kind ≠ .king) :
    Yields (p.applyPromotion m mover) (b.assign m.target (m.promoted.or (some mover))) := by
  unfold Position.applyPromotion
  cases kind : m.promoted with
  | none =>
    exact .of_shows (shows.congr (Basis.assign_eq_self held).symm)
  | some piece =>
    refine (shows.remove held).bind fun p₁ lifted => ?_
    have empty : (b.assign m.target none).board m.target = none := Function.update_self ..
    have added := lifted.add (s := m.target) empty fun king => absurd king (promoted piece kind)
    rw [Basis.assign_assign] at added
    exact added

/-! ## Carrying a move out -/

/-- A move can be carried out once its second piece is out of the way. -/
theorem Shows.apply_of_carries (shows : p.Shows b) (carries : b.Carries mover m)
    (room : b.history.size < historyCapacity)
    (special : ∀ (q : Position) (b' : Basis), q.Shows b' → b'.board = b.board → b'.side = b.side →
      Yields (q.applySpecial m) { b' with board := b.boardAside m }) :
    Yields (p.apply m) (b.after mover m p.hash) := by
  have origin : p.pieceOn m.origin = some mover := by rw [shows.pieceOn, carries.origin]
  unfold Position.apply
  rw [origin]
  refine (shows.record room).bind fun p₁ s₁ => ?_
  refine (special p₁ _ s₁ rfl rfl).bind fun p₂ s₂ => ?_
  have s₃ := ((s₂.setEnPassant none).setRights
    (p₂.rights.afterTouching m.origin m.target)).setFifty (fiftyAfter p₂.fifty m mover)
  refine (s₃.applyCapture carries.target carries.victim).bind fun p₄ s₄ => ?_
  have moved := (s₄.setEnPassant (enPassantAfter m mover)).relocate (s := m.origin)
    (t := m.target)
    ((Function.update_of_ne carries.apart.symm _ _).trans carries.origin_aside)
    (Function.update_self ..)
  refine moved.bind fun p₅ s₅ => ?_
  have promoted := s₅.applyPromotion (m := m) (Function.update_self ..)
    fun piece chosen => (carries.promoted piece chosen).2
  refine promoted.bind fun p₆ s₆ => .of_shows (s₆.advance.congr ?_)
  have rights : p₂.rights = b.rights := s₂.rights
  have fifty : p₂.fifty = b.fifty := congrArg Basis.fifty s₂.basis_eq
  refine Basis.ext ?_ rfl ?_ rfl ?_ rfl rfl rfl
  · funext s
    simp only [Basis.assign, Basis.after, Basis.boardAfter]
    by_cases atTarget : s = m.target
    · simp [atTarget]
    · by_cases atOrigin : s = m.origin
      · simp [atOrigin, carries.apart.symm]
      · simp [atTarget, atOrigin]
  · exact congrArg (·.afterTouching m.origin m.target) rights
  · exact congrArg (fiftyAfter · m mover) fifty

theorem Shows.applySpecial {b' : Basis} (shows : p.Shows b') (board : b'.board = b.board)
    (side : b'.side = b.side) (shape : b.Shape mover m) (sound : b.Sound) :
    Yields (p.applySpecial m) { b' with board := b.boardAside m } := by
  unfold Position.applySpecial
  cases shape with
  | ordinary ordinary =>
    rw [ordinary.notEnPassant, ordinary.notCastle, ordinary.boardAside_eq, ← board]
    exact .of_shows shows
  | @enPassant origin target pawn held set =>
    obtain ⟨victim, behind, taken⟩ := (sound.passed target set).pawn
    rw [Basis.boardAside_enPassant behind, ← board]
    rw [← board] at taken
    show Yields (p.applyEnPassant target) _
    unfold Position.applyEnPassant
    have mine : p.side = b.side := shows.side.trans side
    rw [mine, behind]
    exact shows.remove taken
  | @castle w king right clear =>
    have rook := (sound.castlers b.side w right).2
    have crossing := clear _ (CastlePath.apart b.side w).cross_between
    rw [Basis.boardAside_castle, rook, ← board]
    rw [← board] at rook crossing
    show Yields ((castlePath (CastlePath.of b.side w).kingTarget) >>= fun path =>
      p.relocate path.rookHome path.rookTarget) _
    rw [castlePath, CastlePath.ofKingTarget?_kingTarget]
    exact shows.relocate rook crossing

/-- A generated move of a sound position with room in its history can be carried out. -/
theorem Shows.apply (shows : p.Shows b) (sound : b.Sound) (shape : b.Shape mover m)
    (room : b.history.size < historyCapacity) :
    Yields (p.apply m) (b.after mover m p.hash) :=
  shows.apply_of_carries (shape.carries sound) room fun _ _ shown board side =>
    shown.applySpecial board side shape sound

/-! ## Taking a move back -/

theorem Shows.revertPromotion (shows : p.Shows b)
    (held : b.board m.target = m.promoted.or (some mover))
    (promoted : ∀ piece, m.promoted = some piece → mover = ⟨b.side, .pawn⟩) :
    Yields (p.revertPromotion m) (b.assign m.target (some mover)) := by
  unfold Position.revertPromotion
  cases chosen : m.promoted with
  | none =>
    rw [chosen] at held
    exact .of_shows (shows.congr (Basis.assign_eq_self held).symm)
  | some piece =>
    rw [chosen] at held
    have pawn := promoted piece chosen
    subst pawn
    have side := shows.side
    refine (shows.remove held).bind fun p₁ lifted => ?_
    have empty : (b.assign m.target none).board m.target = none := Function.update_self ..
    have added : Yields (p₁.add ⟨b.side, .pawn⟩ m.target) _ := lifted.add empty nofun
    rw [Basis.assign_assign] at added
    rw [side]
    exact added

/-- A move can be taken back if its second piece can be put back. -/
theorem Shows.takeBack_of_carries {hash : UInt64} {fullmove : Counter} {ply : Nat}
    (shows : q.Shows { b.after mover m hash with fullmove, ply }) (carries : b.Carries mover m)
    (special : ∀ (q : Position) (b' : Basis), q.Shows b' →
      b'.board = Function.update (b.boardAside m) m.target none → b'.side = b.side →
      Yields (q.revertSpecial m) { b' with board := b.board }) :
    Yields q.takeBack
      { b with fullmove := Basis.fullmoveBefore fullmove b.side, ply := ply - 1 } := by
  have popped : q.history.pop? = some (b.undo m hash, b.history) := by
    rw [shows.history]
    rfl
  unfold Position.takeBack
  rw [popped]
  have s₁ := (shows.withClocks q.fifty q.fullmove q.ply b.history).retreat
  have s₂ := ((s₁.setEnPassant b.enPassant).setRights b.rights).setFifty b.fifty
  have held : b.boardAfter mover m m.target = m.promoted.or (some mover) :=
    Function.update_self ..
  refine (s₂.revertPromotion (m := m) held fun piece chosen => ?_).bind
    fun p₃ s₃ => ?_
  · exact ((carries.promoted piece chosen).1).trans (by simp [Basis.after])
  have moved := s₃.relocate (s := m.target) (t := m.origin)
    (Function.update_self ..) (by
      simp [Basis.assign, Basis.after, Basis.boardAfter, carries.apart.symm])
  refine moved.bind fun p₄ s₄ => ?_
  have side : b.side.opposite.opposite = b.side := by simp
  -- The mover is back and its target empty; what stands aside is still where it stood then.
  have board : ((((b.after mover m hash).assign m.target (some mover)).assign m.target none).assign
      m.origin (some mover)).board = Function.update (b.boardAside m) m.target none := by
    funext s
    simp only [Basis.assign, Basis.after, Basis.boardAfter]
    by_cases atTarget : s = m.target
    · simp [atTarget, carries.apart]
    · by_cases atOrigin : s = m.origin
      · simp [atOrigin, carries.apart.symm, carries.origin_aside]
      · simp [atTarget, atOrigin]
  obtain ⟨p₅, reverted, s₅⟩ := special p₄ _ s₄ board side
  have number : q.fullmove = fullmove := congrArg Basis.fullmove shows.basis_eq
  have count : q.ply = ply := congrArg Basis.ply shows.basis_eq
  refine ⟨p₅, reverted, s₅.congr (Basis.ext rfl side rfl rfl rfl ?_ ?_ rfl)⟩
  · show Basis.fullmoveBefore q.fullmove b.side.opposite.opposite = _
    rw [number, side]
  · show q.ply - 1 = _
    rw [count]

/-- Puts a captured piece back.  A captured king is still the only one of its side. -/
theorem Shows.revertOrdinary {b' : Basis} (shows : p.Shows b')
    (board : b'.board = Function.update b.board m.target none)
    (unique : ∀ c s t, b.board s = some ⟨c, .king⟩ → b.board t = some ⟨c, .king⟩ → s = t)
    (ordinary : b.Ordinary mover m) :
    Yields (p.revertSpecial m) { b' with board := b.board } := by
  have restored : { b' with board := b.board } = b'.assign m.target m.captured := by
    refine Basis.ext ?_ rfl rfl rfl rfl rfl rfl rfl
    rw [Basis.board_assign, board, Function.update_idem, ← ordinary.target,
      Function.update_eq_self]
  have empty : b'.board m.target = none := by rw [board, Function.update_self]
  rw [restored]
  unfold Position.revertSpecial
  rw [ordinary.notEnPassant, ordinary.notCastle, ordinary.capture]
  cases taken : m.captured with
  | none => exact .of_shows (shows.congr (Basis.assign_eq_self empty).symm)
  | some victim =>
    refine shows.add empty fun king t other => ?_
    rw [board] at other
    by_cases atTarget : t = m.target
    · rw [atTarget, Function.update_self] at other
      cases other
    · rw [Function.update_of_ne atTarget] at other
      have held := ordinary.target.trans taken
      rcases victim with ⟨c, k⟩
      cases king
      exact atTarget (unique c t m.target other held)

theorem Shows.revertSpecial {b' : Basis} (shows : p.Shows b')
    (board : b'.board = Function.update (b.boardAside m) m.target none) (side : b'.side = b.side)
    (unique : ∀ c s t, b.board s = some ⟨c, .king⟩ → b.board t = some ⟨c, .king⟩ → s = t)
    (shape : b.Shape mover m) (sound : b.Sound) :
    Yields (p.revertSpecial m) { b' with board := b.board } := by
  have carries := shape.carries sound
  cases shape with
  | ordinary ordinary =>
    rw [ordinary.boardAside_eq] at board
    exact shows.revertOrdinary board unique ordinary
  | @enPassant origin target pawn held set =>
    obtain ⟨victim, behind, taken⟩ := (sound.passed target set).pawn
    rw [carries.vacated rfl, Basis.boardAside_enPassant behind] at board
    have mine : p.side = b.side := shows.side.trans side
    have restored : { b' with board := b.board } =
        b'.assign victim (some ⟨b.side.opposite, .pawn⟩) := by
      refine Basis.ext ?_ rfl rfl rfl rfl rfl rfl rfl
      rw [Basis.board_assign, board, Function.update_idem, ← taken, Function.update_eq_self]
    show Yields (p.revertEnPassant target) _
    unfold Position.revertEnPassant
    rw [mine, behind, restored]
    exact shows.add (by rw [board, Function.update_self]) nofun
  | @castle w king right clear =>
    have rook := (sound.castlers b.side w right).2
    have apart := CastlePath.apart b.side w
    have crossing : Function.update b.board (CastlePath.of b.side w).rookTarget none = b.board :=
      Function.update_eq_self_iff.2 (clear _ apart.cross_between).symm
    rw [carries.vacated rfl, Basis.boardAside_castle] at board
    have restored : { b' with board := b.board } =
        (b'.assign (CastlePath.of b.side w).rookTarget none).assign
          (CastlePath.of b.side w).rookHome (some ⟨b.side, .rook⟩) := by
      refine Basis.ext ?_ rfl rfl rfl rfl rfl rfl rfl
      rw [Basis.board_assign, Basis.board_assign, board, Function.update_idem,
        Function.update_comm apart.rook_cross, Function.update_idem, crossing, ← rook,
        Function.update_eq_self]
    show Yields (castlePath (CastlePath.of b.side w).kingTarget >>= fun path =>
      p.relocate path.rookTarget path.rookHome) _
    rw [castlePath, CastlePath.ofKingTarget?_kingTarget, restored]
    refine shows.relocate ?_ ?_
    · rw [board, Function.update_self, rook]
    · rw [board, Function.update_of_ne apart.rook_cross, Function.update_self]

/-- Taking back any position with the effect of a generated move leads to where it was made. -/
theorem Shows.takeBack {hash : UInt64} {fullmove : Counter} {ply : Nat} (before : p.Shows b)
    (sound : b.Sound) (shape : b.Shape mover m)
    (shows : q.Shows { b.after mover m hash with fullmove, ply }) :
    Yields q.takeBack
      { b with fullmove := Basis.fullmoveBefore fullmove b.side, ply := ply - 1 } :=
  shows.takeBack_of_carries (shape.carries sound) fun _ _ shown board side =>
    shown.revertSpecial board side (fun _ _ _ => before.king_unique) shape sound

end Position

end ChessEngine
