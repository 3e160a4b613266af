import ChessEngine.Position.Make
import ChessEngine.Proofs.Outcome
import ChessEngine.Proofs.Placement.Audit

/-!
# Positions seen through what determines them

A `Basis` is the part of a position that nothing else determines: what stands on
each square, the side to move, rights, en-passant square, counters and history.
`p.Shows b` says that `p` keeps everything else as the basis `b` makes it, and
`Shows.unique` that there is only one such position.

Each change of a position has one lemma here that says which basis it leads to,
and, where the change has a precondition, that it does not fail: `Yields x b`
says that `x` succeeds with a position that shows `b`.
-/

namespace ChessEngine

/-- What determines a position. -/
@[ext]
structure Basis where
  board : Square → Option Piece
  side : Color
  rights : CastlingRights
  enPassant : Option Square
  fifty : Counter
  fullmove : Counter
  ply : Nat
  history : History Undo

namespace Basis

variable (b : Basis) (s : Square) (holder : Option Piece)

/-- Changes what stands on a square. -/
def assign : Basis := { b with board := Function.update b.board s holder }

@[simp] theorem board_assign : (b.assign s holder).board = Function.update b.board s holder := rfl

@[simp] theorem assign_assign (other : Option Piece) :
    (b.assign s holder).assign s other = b.assign s other := by
  simp only [assign, Function.update_idem]

variable {b s holder} in
theorem assign_eq_self (held : b.board s = holder) : b.assign s holder = b := by
  rw [assign, ← held, Function.update_eq_self]

end Basis

namespace Position

/-- The part of a position that determines it. -/
def basis (p : Position) : Basis where
  board := p.pieceOn
  side := p.side
  rights := p.rights
  enPassant := p.enPassant
  fifty := p.fifty
  fullmove := p.fullmove
  ply := p.ply
  history := p.history

variable [ZobristKeys] {p q : Position} {b : Basis} {piece : Piece} {s t : Square}

/-- Everything that a position keeps is what its basis makes it. -/
structure Consistent (p : Position) : Prop where
  tallied : p.placement.Tallied
  noted : p.placement.KingsNoted
  hash : p.hash = p.countedHash

/-- A consistent position with the given basis. -/
structure Shows (p : Position) (b : Basis) : Prop where
  consistent : p.Consistent
  basis_eq : p.basis = b

/-- Success with a position that shows the given basis. -/
def Yields (x : Except Fault Position) (b : Basis) : Prop := ∃ q, x = .ok q ∧ q.Shows b

theorem Yields.of_shows (shows : p.Shows b) : Yields (.ok p) b := ⟨p, rfl, shows⟩

theorem Yields.bind {x : Except Fault Position} {f : Position → Except Fault Position}
    {b' : Basis} (first : Yields x b) (next : ∀ q, q.Shows b → Yields (f q) b') :
    Yields (x >>= f) b' := by
  obtain ⟨q, rfl, shows⟩ := first
  exact next q shows

/-! ## A basis is shown by one position -/

theorem countedHash_congr (same : p.basis = q.basis) : p.countedHash = q.countedHash := by
  have board : p.pieceOn = q.pieceOn := congrArg Basis.board same
  have part : p.squarePart = q.squarePart :=
    funext fun s => by rw [squarePart, squarePart, board]
  have side : p.side = q.side := congrArg Basis.side same
  have rights : p.rights = q.rights := congrArg Basis.rights same
  have enPassant : p.enPassant = q.enPassant := congrArg Basis.enPassant same
  rw [countedHash, countedHash, part, side, rights, enPassant]

theorem Consistent.eq_of_basis (left : p.Consistent) (right : q.Consistent)
    (same : p.basis = q.basis) : p = q := by
  have placement : p.placement = q.placement :=
    Placement.eq_of_pieceOn left.tallied left.noted right.tallied right.noted
      (congrArg Basis.board same)
  have hash : p.hash = q.hash := by rw [left.hash, right.hash, countedHash_congr same]
  have side : p.side = q.side := congrArg Basis.side same
  have rights : p.rights = q.rights := congrArg Basis.rights same
  have enPassant : p.enPassant = q.enPassant := congrArg Basis.enPassant same
  have fifty : p.fifty = q.fifty := congrArg Basis.fifty same
  have fullmove : p.fullmove = q.fullmove := congrArg Basis.fullmove same
  have ply : p.ply = q.ply := congrArg Basis.ply same
  have history : p.history = q.history := congrArg Basis.history same
  cases p
  cases q
  simp only at placement hash side rights enPassant fifty fullmove ply history
  rw [placement, hash, side, rights, enPassant, fifty, fullmove, ply, history]

theorem Shows.unique (left : p.Shows b) (right : q.Shows b) : p = q :=
  left.consistent.eq_of_basis right.consistent (left.basis_eq.trans right.basis_eq.symm)

theorem Shows.pieceOn (shows : p.Shows b) : p.pieceOn = b.board :=
  congrArg Basis.board shows.basis_eq

theorem Shows.side (shows : p.Shows b) : p.side = b.side :=
  congrArg Basis.side shows.basis_eq

theorem Shows.rights (shows : p.Shows b) : p.rights = b.rights :=
  congrArg Basis.rights shows.basis_eq

theorem Shows.enPassant (shows : p.Shows b) : p.enPassant = b.enPassant :=
  congrArg Basis.enPassant shows.basis_eq

theorem Shows.history (shows : p.Shows b) : p.history = b.history :=
  congrArg Basis.history shows.basis_eq

/-- A side has at most one king. -/
theorem Shows.king_unique (shows : p.Shows b) {c : Color} (left : b.board s = some ⟨c, .king⟩)
    (right : b.board t = some ⟨c, .king⟩) : s = t := by
  have noted := shows.consistent.noted
  rw [← shows.pieceOn] at left right
  exact Option.some.inj (((noted c s).2 left).symm.trans ((noted c t).2 right))

theorem audit_eq_ok_iff :
    p.audit = .ok () ↔ p.placement.audit = .ok () ∧ p.hash = p.countedHash := by
  unfold Position.audit
  constructor
  · intro passed
    obtain ⟨⟨⟩, placement, rest⟩ := bind_eq_ok passed
    refine ⟨placement, ?_⟩
    dsimp only at rest
    split at rest
    · cases rest
    · next kept => exact Decidable.of_not_not kept
  · rintro ⟨placement, hash⟩
    simp [placement, hash]

theorem tallied_of_audit (passed : p.audit = .ok ()) : p.placement.Tallied :=
  Placement.tallied_of_audit (audit_eq_ok_iff.1 passed).1

/-- A consistent position passes its audit. -/
theorem Consistent.audit (consistent : p.Consistent) : p.audit = .ok () :=
  audit_eq_ok_iff.2
    ⟨Placement.audit_of_tallied consistent.tallied consistent.noted, consistent.hash⟩

/-- What passes its audit is consistent if a consistent position has the same basis. -/
theorem Consistent.of_audit (consistent : p.Consistent) (audited : q.audit = .ok ())
    (same : q.basis = p.basis) : q.Consistent := by
  obtain ⟨placement, hash⟩ := audit_eq_ok_iff.1 audited
  exact ⟨Placement.tallied_of_audit placement,
    consistent.noted.of_audit placement (congrArg Basis.board same), hash⟩

/-! ## Pieces -/

/-- How the sum of the keys of all squares changes with one square. -/
theorem countedHash_exchange (board : ∀ t, t ≠ s → q.pieceOn t = p.pieceOn t)
    (side : q.side = p.side) (rights : q.rights = p.rights)
    (enPassant : q.enPassant = p.enPassant) :
    q.countedHash ^^^ p.squarePart s = p.countedHash ^^^ q.squarePart s := by
  have total := Square.xor_exchange (f := p.squarePart) (g := q.squarePart) (s := s)
    fun t other => by rw [squarePart, squarePart, board t other]
  unfold countedHash
  rw [side, rights, enPassant]
  calc _ = (Square.all.foldl (fun hash t => hash ^^^ q.squarePart t) 0 ^^^ p.squarePart s) ^^^
        (ZobristKeys.sidePart p.side ^^^ ZobristKeys.castling p.rights ^^^
          ZobristKeys.enPassantPart p.enPassant) := by ac_rfl
    _ = _ := by rw [total]; ac_rfl

theorem pieceOn_put : (p.put piece s).pieceOn = Function.update p.pieceOn s (some piece) :=
  Placement.pieceOn_put

theorem pieceOn_lift : (p.lift piece s).pieceOn = Function.update p.pieceOn s none :=
  Placement.pieceOn_lift

theorem countedHash_put (empty : p.pieceOn s = none) :
    (p.put piece s).countedHash = p.countedHash ^^^ ZobristKeys.piece piece s := by
  have hash := countedHash_exchange (p := p) (q := p.put piece s) (s := s)
    (fun t other => by rw [pieceOn_put, Function.update_of_ne other]) rfl rfl rfl
  have before : p.squarePart s = 0 := by rw [squarePart, empty]
  have after : (p.put piece s).squarePart s = ZobristKeys.piece piece s := by
    rw [squarePart, pieceOn_put, Function.update_self]
  rwa [before, after, UInt64.xor_zero] at hash

theorem countedHash_lift (held : p.pieceOn s = some piece) :
    (p.lift piece s).countedHash = p.countedHash ^^^ ZobristKeys.piece piece s := by
  have hash := countedHash_exchange (p := p) (q := p.lift piece s) (s := s)
    (fun t other => by rw [pieceOn_lift, Function.update_of_ne other]) rfl rfl rfl
  have before : p.squarePart s = ZobristKeys.piece piece s := by rw [squarePart, held]
  have after : (p.lift piece s).squarePart s = 0 := by
    rw [squarePart, pieceOn_lift, Function.update_self]
  rw [before, after, UInt64.xor_zero] at hash
  rw [← hash, UInt64.xor_assoc, UInt64.xor_self, UInt64.xor_zero]

theorem Shows.put (shows : p.Shows b) (empty : b.board s = none)
    (alone : piece.kind = .king → ∀ t, b.board t ≠ some piece) :
    (p.put piece s).Shows (b.assign s (some piece)) := by
  obtain ⟨consistent, rfl⟩ := shows
  have single : piece.kind = .king → p.placement.kings.get piece.color = none := by
    intro king
    refine Option.eq_none_iff_forall_ne_some.2 fun t kept => alone king t ?_
    have held := (consistent.noted _ t).1 kept
    rw [← king] at held
    exact held
  refine ⟨⟨consistent.tallied.put empty, consistent.noted.put empty single, ?_⟩,
    Basis.ext pieceOn_put rfl rfl rfl rfl rfl rfl rfl⟩
  rw [countedHash_put empty, ← consistent.hash]
  rfl

theorem Shows.lift (shows : p.Shows b) (held : b.board s = some piece) :
    (p.lift piece s).Shows (b.assign s none) := by
  obtain ⟨consistent, rfl⟩ := shows
  refine ⟨⟨consistent.tallied.lift held, consistent.noted.lift held, ?_⟩,
    Basis.ext pieceOn_lift rfl rfl rfl rfl rfl rfl rfl⟩
  rw [countedHash_lift held, ← consistent.hash]
  rfl

/-- Moving a piece amounts to lifting it and putting it down again. -/
theorem relocate_eq_ok (tallied : p.placement.Tallied) (held : p.pieceOn s = some piece)
    (empty : p.pieceOn t = none) : p.relocate s t = .ok ((p.lift piece s).put piece t) := by
  have placement := Placement.relocate_eq_put_lift tallied held empty
  unfold Position.relocate Position.put Position.lift
  rw [held, empty]
  simp only [placement, UInt64.xor_assoc]

theorem Shows.add (shows : p.Shows b) (empty : b.board s = none)
    (alone : piece.kind = .king → ∀ t, b.board t ≠ some piece) :
    Yields (p.add piece s) (b.assign s (some piece)) := by
  have absent : p.pieceOn s = none := by rw [shows.pieceOn, empty]
  exact ⟨p.put piece s, by rw [Position.add, absent], shows.put empty alone⟩

theorem Shows.remove (shows : p.Shows b) (held : b.board s = some piece) :
    Yields (p.remove piece s) (b.assign s none) := by
  have present : p.pieceOn s = some piece := by rw [shows.pieceOn, held]
  exact ⟨p.lift piece s, by rw [Position.remove, if_pos present], shows.lift held⟩

theorem Shows.relocate (shows : p.Shows b) (held : b.board s = some piece)
    (empty : b.board t = none) :
    Yields (p.relocate s t) ((b.assign s none).assign t (some piece)) := by
  have present : p.pieceOn s = some piece := by rw [shows.pieceOn, held]
  have absent : p.pieceOn t = none := by rw [shows.pieceOn, empty]
  have apart : t ≠ s := by
    intro same
    rw [same, held] at empty
    cases empty
  refine ⟨_, relocate_eq_ok shows.consistent.tallied present absent, (shows.lift held).put ?_ ?_⟩
  · rw [Basis.board_assign, Function.update_of_ne apart, empty]
  · intro king u
    rcases piece with ⟨c, k⟩
    cases king
    by_cases here : u = s
    · rw [here, Basis.board_assign, Function.update_self]
      exact nofun
    · rw [Basis.board_assign, Function.update_of_ne here]
      exact fun other => here (shows.king_unique other held)

/-! ## Everything else -/

theorem Shows.flipSide (shows : p.Shows b) :
    p.flipSide.Shows { b with side := b.side.opposite } := by
  obtain ⟨consistent, rfl⟩ := shows
  refine ⟨⟨consistent.tallied, consistent.noted, ?_⟩, rfl⟩
  have part : ZobristKeys.sidePart p.side.opposite =
      ZobristKeys.sidePart p.side ^^^ ZobristKeys.side := by
    cases p.side
    · exact (UInt64.zero_xor).symm
    · exact (UInt64.xor_self).symm
  show p.hash ^^^ ZobristKeys.side =
    Square.all.foldl (fun hash s => hash ^^^ p.squarePart s) 0 ^^^
      ZobristKeys.sidePart p.side.opposite ^^^ ZobristKeys.castling p.rights ^^^
      ZobristKeys.enPassantPart p.enPassant
  rw [consistent.hash, countedHash, part]
  ac_rfl

theorem Shows.setRights (shows : p.Shows b) (rights : CastlingRights) :
    (p.setRights rights).Shows { b with rights } := by
  obtain ⟨consistent, rfl⟩ := shows
  refine ⟨⟨consistent.tallied, consistent.noted, ?_⟩, rfl⟩
  show p.hash ^^^ ZobristKeys.castling p.rights ^^^ ZobristKeys.castling rights =
    Square.all.foldl (fun hash s => hash ^^^ p.squarePart s) 0 ^^^
      ZobristKeys.sidePart p.side ^^^ ZobristKeys.castling rights ^^^
      ZobristKeys.enPassantPart p.enPassant
  have shape : p.hash = (Square.all.foldl (fun hash s => hash ^^^ p.squarePart s) 0 ^^^
      ZobristKeys.sidePart p.side ^^^ ZobristKeys.enPassantPart p.enPassant) ^^^
        ZobristKeys.castling p.rights := by
    rw [consistent.hash, countedHash]
    ac_rfl
  rw [shape, xor_replace]
  ac_rfl

theorem Shows.setEnPassant (shows : p.Shows b) (target : Option Square) :
    (p.setEnPassant target).Shows { b with enPassant := target } := by
  obtain ⟨consistent, rfl⟩ := shows
  refine ⟨⟨consistent.tallied, consistent.noted, ?_⟩, rfl⟩
  show p.hash ^^^ ZobristKeys.enPassantPart p.enPassant ^^^ ZobristKeys.enPassantPart target =
    Square.all.foldl (fun hash s => hash ^^^ p.squarePart s) 0 ^^^
      ZobristKeys.sidePart p.side ^^^ ZobristKeys.castling p.rights ^^^
      ZobristKeys.enPassantPart target
  rw [consistent.hash, countedHash, xor_replace]

/-- Counters and history are not part of anything that is kept up to date. -/
theorem Shows.withClocks (shows : p.Shows b) (fifty fullmove : Counter) (ply : Nat)
    (history : History Undo) :
    { p with fifty, fullmove, ply, history }.Shows { b with fifty, fullmove, ply, history } := by
  obtain ⟨consistent, rfl⟩ := shows
  exact ⟨⟨consistent.tallied, consistent.noted, consistent.hash⟩, rfl⟩

theorem Shows.empty : Position.empty.Shows
    ⟨fun _ => none, .white, .none, none, 0, 1, 0, .empty⟩ := by
  have board : Position.empty.pieceOn = fun _ => none := funext Placement.pieceOn_empty
  refine ⟨⟨Placement.Tallied.empty, Placement.KingsNoted.empty, ?_⟩, ?_⟩
  · have part : Position.empty.squarePart = fun _ => 0 :=
      funext fun s => by rw [squarePart, board]
    have squares : ∀ l : List Square, l.foldl (fun hash _ => hash ^^^ (0 : UInt64)) 0 = 0 := by
      intro l
      induction l with
      | nil => rfl
      | cons s l ih => rw [List.foldl_cons, UInt64.xor_zero, ih]
    rw [countedHash, part, squares]
    simp [Position.empty, ZobristKeys.sidePart, ZobristKeys.enPassantPart]
  · exact Basis.ext board rfl rfl rfl rfl rfl rfl rfl

end Position

end ChessEngine
