import ChessEngine.Proofs.Generator.Captures
import ChessEngine.Proofs.Search.Learning
import ChessEngine.Proofs.Search.Picking
import ChessEngine.Search.Precedence

/-!
# Ranks put moves in their order

Ranks are numbers in bands.  `Standing` says in which band the rank of a move lies;
what a move is bounds its rank from below and, unless it is the table move, from
above.  So generated moves compare by their ranks as `MoveOrdering.Outranks` says,
whatever has been learned before.
-/

namespace ChessEngine

theorem Kind.value_lt_iff {k l : Kind} : k.value < l.value ↔ k.index < l.index := by
  cases k <;> cases l <;> decide

theorem Kind.index_le (k : Kind) : k.index ≤ 5 := by
  cases k <;> decide

theorem Kind.index_inj {k l : Kind} : k.index = l.index ↔ k = l := by
  cases k <;> cases l <;> decide

theorem Move.isQuiet_iff {m : Move} :
    m.isQuiet = true ↔ m.isCapture = false ∧ m.promoted = none := by
  simp [isQuiet, isPromotion]

/-- A piece stands on the origin of the move, and if it captures it says what. -/
structure Position.Names (p : Position) (m : Move) : Prop where
  mover : ∃ piece, p.pieceOn m.origin = some piece
  victim : m.isCapture = true → ∃ piece, m.captured = some piece

theorem Position.Movement.names [ZobristKeys] {p : Position} {c : Color} {m : Move} (firm : p.Firm)
    (movement : p.Movement c m) : p.Names m where
  mover := by
    cases movement with
    | piece _ held => exact ⟨_, held⟩
    | pawnCapture held
    | enPassant _ _ held
    | push held
    | doublePush held => exact ⟨_, held⟩
    | castle allowed => exact ⟨_, (firm.consistent.noted c _).1 allowed.king⟩
  victim capture := by
    obtain ⟨k, v, captured, -⟩ := movement.takes firm capture
    exact ⟨_, captured⟩

namespace MoveOrdering

variable {o : MoveOrdering} {p : Position} {m n : Move} {ply : Nat}

/-! ## The bands of ranks -/

/-- Where a move stands in the order of ranks, and its rank. -/
inductive Standing (o : MoveOrdering) (p : Position) (ply : Nat) (tableMove : Option Move)
    (m : Move) : Int → Prop
  | table : tableMove = some m → Standing o p ply tableMove m tableRank
  | capture {victim attacker : Piece} : tableMove ≠ some m → m.isCapture = true →
    m.captured = some victim → p.pieceOn m.origin = some attacker →
    Standing o p ply tableMove m (captureRank + (victim.kind.index + 1) * 100 - attacker.kind.index)
  | promotion {piece : Piece} : tableMove ≠ some m → m.isCapture = false →
    m.promoted = some piece → Standing o p ply tableMove m (promotionRank + piece.kind.index)
  | firstKiller : tableMove ≠ some m → m.isQuiet = true → (o.killersAt ply).first = some m →
    Standing o p ply tableMove m firstKillerRank
  | secondKiller : tableMove ≠ some m → m.isQuiet = true → (o.killersAt ply).first ≠ some m →
    (o.killersAt ply).second = some m → Standing o p ply tableMove m secondKillerRank
  | history {piece : Piece} : tableMove ≠ some m → m.isQuiet = true → ¬ o.IsKiller ply m →
    p.pieceOn m.origin = some piece →
    Standing o p ply tableMove m (o.historyScore piece m.target)

variable {tableMove : Option Move} {x y : Int}

theorem checkedCapture_eq_some (victim attacker : Kind) :
    checkedCapture victim attacker.index =
      some (captureRank + (victim.index + 1) * 100 - attacker.index) := by
  have place := victim.index_le
  have rival := attacker.index_le
  have base : captureRank = 1000000 := rfl
  simp only [checkedCapture, Option.bind_eq_bind]
  rw [fit?_of_bounds (by omega) (by omega), Option.bind_some, fit?_of_bounds (by omega) (by omega),
    Option.bind_some, fit?_of_bounds (by omega) (by omega), Option.bind_some,
    fit?_of_bounds (by omega) (by omega)]

/-- A move that names its pieces stands somewhere, and no step of the calculation of its rank leaves
its word. -/
theorem standing_rank (names : p.Names m) :
    o.Standing p ply tableMove m (o.rank p (o.killersAt ply) tableMove m) ∧
      o.checkedRank p (o.killersAt ply) tableMove m =
        some (o.rank p (o.killersAt ply) tableMove m) := by
  obtain ⟨attacker, held⟩ := names.mover
  unfold rank checkedRank
  rw [held]
  dsimp only
  by_cases table : tableMove = some m
  · rw [if_pos table, if_pos table]
    exact ⟨.table table, rfl⟩
  rw [if_neg table, if_neg table]
  cases capture : m.isCapture with
  | true =>
    obtain ⟨victim, captured⟩ := names.victim capture
    rw [if_pos rfl, captured]
    exact ⟨.capture table capture captured held, checkedCapture_eq_some victim.kind attacker.kind⟩
  | false =>
    rw [if_neg nofun, Move.promotedKind]
    cases promoted : m.promoted with
    | some piece =>
      have place := piece.kind.index_le
      have base : promotionRank = 950000 := rfl
      exact ⟨.promotion table capture promoted, fit?_of_bounds (by omega) (by omega)⟩
    | none =>
      have quiet := Move.isQuiet_iff.2 ⟨capture, promoted⟩
      dsimp only [Option.map_none]
      by_cases first : (o.killersAt ply).first = some m
      · rw [if_pos first, if_pos first]
        exact ⟨.firstKiller table quiet first, rfl⟩
      rw [if_neg first, if_neg first]
      by_cases second : (o.killersAt ply).second = some m
      · rw [if_pos second, if_pos second]
        exact ⟨.secondKiller table quiet first second, rfl⟩
      rw [if_neg second, if_neg second]
      exact ⟨.history table quiet (not_or.2 ⟨first, second⟩) held, rfl⟩

/-! ## Comparing ranks -/

namespace Standing

variable {victim attacker piece : Piece} (standing : o.Standing p ply tableMove m x)

include standing

/-! What a move is puts a lower bound on its rank, since it may be the table move as well. -/

theorem tableRank_le (table : tableMove = some m) : tableRank ≤ x := by
  cases standing with
  | table => exact le_rfl
  | capture absent
  | promotion absent
  | firstKiller absent
  | secondKiller absent
  | history absent => exact absurd table absent

theorem captureRank_lt (capture : m.isCapture = true) : captureRank < x := by
  cases standing with
  | table => decide
  | @capture victim attacker =>
    have place := attacker.kind.index_le
    omega
  | promotion _ silent => cases capture.symm.trans silent
  | firstKiller _ quiet
  | secondKiller _ quiet
  | history _ quiet => cases capture.symm.trans (Move.isQuiet_iff.1 quiet).1

theorem captureRank_add_le (capture : m.isCapture = true) (captured : m.captured = some victim)
    (held : p.pieceOn m.origin = some attacker) :
    captureRank + (victim.kind.index + 1) * 100 - attacker.kind.index ≤ x := by
  cases standing with
  | table =>
    have place := victim.kind.index_le
    have base : captureRank = 1000000 := rfl
    have most : tableRank = 2000000 := rfl
    omega
  | capture _ _ captured' held' =>
    cases captured.symm.trans captured'
    cases held.symm.trans held'
    exact le_rfl
  | promotion _ silent => cases capture.symm.trans silent
  | firstKiller _ quiet
  | secondKiller _ quiet
  | history _ quiet => cases capture.symm.trans (Move.isQuiet_iff.1 quiet).1

theorem promotionRank_add_le (promoted : m.promoted = some piece) :
    promotionRank + piece.kind.index ≤ x := by
  have place := piece.kind.index_le
  have base : promotionRank = 950000 := rfl
  have above : captureRank = 1000000 := rfl
  cases standing with
  | table =>
    have most : tableRank = 2000000 := rfl
    omega
  | @capture victim attacker =>
    have rival := attacker.kind.index_le
    omega
  | promotion _ _ promoted' =>
    cases promoted.symm.trans promoted'
    exact le_rfl
  | firstKiller _ quiet
  | secondKiller _ quiet
  | history _ quiet => cases promoted.symm.trans (Move.isQuiet_iff.1 quiet).2

theorem firstKillerRank_le (tempered : o.Tempered) (first : (o.killersAt ply).first = some m) :
    firstKillerRank ≤ x := by
  have quiet := Move.isQuiet_iff.1 ((tempered.killers ply).first m first)
  cases standing with
  | table => decide
  | capture _ capture => cases quiet.1.symm.trans capture
  | promotion _ _ promoted => cases quiet.2.symm.trans promoted
  | firstKiller => exact le_rfl
  | secondKiller _ _ later => exact absurd first later
  | history _ _ neither => exact absurd (.inl first) neither

theorem secondKillerRank_le (tempered : o.Tempered) (killer : o.IsKiller ply m) :
    secondKillerRank ≤ x := by
  have quiet := Move.isQuiet_iff.1
    (killer.elim ((tempered.killers ply).first m) ((tempered.killers ply).second m))
  cases standing with
  | table => decide
  | capture _ capture => cases quiet.1.symm.trans capture
  | promotion _ _ promoted => cases quiet.2.symm.trans promoted
  | firstKiller => decide
  | secondKiller => exact le_rfl
  | history _ _ neither => exact absurd killer neither

theorem historyScore_le (tempered : o.Tempered) (quiet : m.isQuiet = true)
    (held : p.pieceOn m.origin = some piece) : o.historyScore piece m.target ≤ x := by
  have most : o.historyScore piece m.target ≤ historyLimit :=
    (tempered.history (historySlot piece m.target)).2
  cases standing with
  | table => exact most.trans (by decide)
  | capture _ capture => cases (Move.isQuiet_iff.1 quiet).1.symm.trans capture
  | promotion _ _ promoted => cases (Move.isQuiet_iff.1 quiet).2.symm.trans promoted
  | firstKiller => exact most.trans (by decide)
  | secondKiller => exact most.trans (by decide)
  | history _ _ _ held' =>
    cases held.symm.trans held'
    exact le_rfl

/-! Upper bounds are for other moves than the table move. -/

section

variable (absent : tableMove ≠ some m)

include absent

theorem lt_tableRank (tempered : o.Tempered) : x < tableRank := by
  cases standing with
  | table same => exact absurd same absent
  | @capture victim =>
    have place := victim.kind.index_le
    have base : captureRank = 1000000 := rfl
    have most : tableRank = 2000000 := rfl
    omega
  | @promotion piece =>
    have place := piece.kind.index_le
    have base : promotionRank = 950000 := rfl
    have most : tableRank = 2000000 := rfl
    omega
  | firstKiller => decide
  | secondKiller => decide
  | @history piece =>
    have most := (tempered.history (historySlot piece m.target)).2
    exact most.trans_lt (by decide)

omit absent in
theorem le_tableRank (tempered : o.Tempered) : x ≤ tableRank := by
  by_cases same : tableMove = some m
  · cases standing with
    | table => exact le_rfl
    | capture absent
    | promotion absent
    | firstKiller absent
    | secondKiller absent
    | history absent => exact absurd same absent
  · exact (standing.lt_tableRank same tempered).le

theorem lt_captureRank (tempered : o.Tempered) (silent : m.isCapture = false) :
    x < captureRank := by
  cases standing with
  | table same => exact absurd same absent
  | capture _ capture => cases silent.symm.trans capture
  | @promotion piece =>
    have place := piece.kind.index_le
    have base : promotionRank = 950000 := rfl
    have above : captureRank = 1000000 := rfl
    omega
  | firstKiller => decide
  | secondKiller => decide
  | @history piece =>
    have most := (tempered.history (historySlot piece m.target)).2
    exact most.trans_lt (by decide)

theorem le_captureRank_add (capture : m.isCapture = true) (captured : m.captured = some victim)
    (held : p.pieceOn m.origin = some attacker) :
    x ≤ captureRank + (victim.kind.index + 1) * 100 - attacker.kind.index := by
  cases standing with
  | table same => exact absurd same absent
  | capture _ _ captured' held' =>
    cases captured.symm.trans captured'
    cases held.symm.trans held'
    exact le_rfl
  | promotion _ silent => cases capture.symm.trans silent
  | firstKiller _ quiet
  | secondKiller _ quiet
  | history _ quiet => cases capture.symm.trans (Move.isQuiet_iff.1 quiet).1

theorem le_firstKillerRank (tempered : o.Tempered) (quiet : m.isQuiet = true) :
    x ≤ firstKillerRank := by
  cases standing with
  | table same => exact absurd same absent
  | capture _ capture => cases (Move.isQuiet_iff.1 quiet).1.symm.trans capture
  | promotion _ _ promoted => cases (Move.isQuiet_iff.1 quiet).2.symm.trans promoted
  | firstKiller => exact le_rfl
  | secondKiller => decide
  | @history piece =>
    have most := (tempered.history (historySlot piece m.target)).2
    exact most.trans (by decide)

theorem le_promotionRank_add (silent : m.isCapture = false) (promoted : m.promoted = some piece) :
    x ≤ promotionRank + piece.kind.index := by
  cases standing with
  | table same => exact absurd same absent
  | capture _ capture => cases silent.symm.trans capture
  | promotion _ _ promoted' =>
    cases promoted.symm.trans promoted'
    exact le_rfl
  | firstKiller _ quiet
  | secondKiller _ quiet
  | history _ quiet => cases promoted.symm.trans (Move.isQuiet_iff.1 quiet).2

theorem le_secondKillerRank (tempered : o.Tempered)
    (second : (o.killersAt ply).second = some m) : x ≤ secondKillerRank := by
  have quiet := Move.isQuiet_iff.1 ((tempered.killers ply).second m second)
  cases standing with
  | table same => exact absurd same absent
  | capture _ capture => cases quiet.1.symm.trans capture
  | promotion _ _ promoted => cases quiet.2.symm.trans promoted
  | firstKiller _ _ first => exact absurd second ((tempered.killers ply).distinct m first)
  | secondKiller => exact le_rfl
  | history _ _ neither => exact absurd (.inr second) neither

section

variable (quiet : m.isQuiet = true) (neither : ¬ o.IsKiller ply m)

include quiet neither

theorem le_historyScore (held : p.pieceOn m.origin = some piece) :
    x ≤ o.historyScore piece m.target := by
  cases standing with
  | table same => exact absurd same absent
  | capture _ capture => cases (Move.isQuiet_iff.1 quiet).1.symm.trans capture
  | promotion _ _ promoted => cases (Move.isQuiet_iff.1 quiet).2.symm.trans promoted
  | firstKiller _ _ first => exact absurd (.inl first) neither
  | secondKiller _ _ _ second => exact absurd (.inr second) neither
  | history _ _ _ held' =>
    cases held.symm.trans held'
    exact le_rfl

theorem lt_secondKillerRank (tempered : o.Tempered) (held : p.pieceOn m.origin = some piece) :
    x < secondKillerRank :=
  ((standing.le_historyScore absent quiet neither held).trans
    (tempered.history (historySlot piece m.target)).2).trans_lt (by decide)

end

end

end Standing

section

variable (left : o.Standing p ply tableMove m x) (right : o.Standing p ply tableMove n y)
  (tempered : o.Tempered) (names : p.Names m) (names' : p.Names n)

include left right tempered names names'

theorem Outranks.lt (outranks : o.Outranks p ply tableMove m n) : y < x := by
  obtain ⟨mover, held⟩ := names.mover
  obtain ⟨mover', held'⟩ := names'.mover
  cases outranks with
  | table same distinct =>
    have absent : tableMove ≠ some n := fun same' =>
      distinct (Option.some.inj (same'.symm.trans same))
    exact (right.lt_tableRank absent tempered).trans_le (left.tableRank_le same)
  | capture absent capture silent =>
    exact (right.lt_captureRank absent tempered silent).trans (left.captureRank_lt capture)
  | victim absent capture capture' captured captured' less =>
    have above := left.captureRank_add_le capture captured held
    have below := right.le_captureRank_add absent capture' captured' held'
    have step := Kind.value_lt_iff.1 less
    have small := mover.kind.index_le
    omega
  | attacker absent capture capture' captured captured' same held held' less =>
    have above := left.captureRank_add_le capture captured held
    have below := right.le_captureRank_add absent capture' captured' held'
    have step := Kind.value_lt_iff.1 less
    rw [same] at below
    omega
  | promotion absent promotes quiet =>
    obtain ⟨piece, promoted⟩ := Option.isSome_iff_exists.1 promotes
    have above := left.promotionRank_add_le promoted
    have below := right.le_firstKillerRank absent tempered quiet
    have apart : firstKillerRank < promotionRank := by decide
    omega
  | promoted absent silent silent' promoted promoted' less =>
    have above := left.promotionRank_add_le promoted
    have below := right.le_promotionRank_add absent silent' promoted'
    have step := Kind.value_lt_iff.1 less
    omega
  | killers absent first second =>
    have apart : secondKillerRank < firstKillerRank := by decide
    exact ((right.le_secondKillerRank absent tempered second).trans_lt apart).trans_le
      (left.firstKillerRank_le tempered first)
  | killer absent killer quiet neither =>
    exact (right.lt_secondKillerRank absent quiet neither tempered held').trans_le
      (left.secondKillerRank_le tempered killer)
  | history absent quiet quiet' neither held held' less =>
    exact ((right.le_historyScore absent quiet' neither held').trans_lt less).trans_le
      (left.historyScore_le tempered quiet held)

variable (lower : y < x)

include lower

omit tempered in
/-- Of two captures the one with the higher rank takes more, or the same by less. -/
theorem outranks_of_captures (absent : tableMove ≠ some m) (absent' : tableMove ≠ some n)
    (capture : m.isCapture = true) (capture' : n.isCapture = true) :
    o.Outranks p ply tableMove m n := by
  obtain ⟨mover, held⟩ := names.mover
  obtain ⟨mover', held'⟩ := names'.mover
  obtain ⟨victim, captured⟩ := names.victim capture
  obtain ⟨victim', captured'⟩ := names'.victim capture'
  have above := right.captureRank_add_le capture' captured' held'
  have below := left.le_captureRank_add absent capture captured held
  have small := mover.kind.index_le
  have small' := mover'.kind.index_le
  rcases Nat.lt_trichotomy victim'.kind.index victim.kind.index with less | same | more
  · exact .victim absent' capture capture' captured captured' (Kind.value_lt_iff.2 less)
  · have less : mover.kind.index < mover'.kind.index := by omega
    exact .attacker absent' capture capture' captured captured' (Kind.index_inj.1 same) held held'
      (Kind.value_lt_iff.2 less)
  · omega

/-- Of two quiet moves the one with the higher rank is a killer, or was more often good. -/
theorem outranks_of_quiet (absent : tableMove ≠ some m) (absent' : tableMove ≠ some n)
    (quiet : m.isQuiet = true) (quiet' : n.isQuiet = true) : o.Outranks p ply tableMove m n := by
  obtain ⟨mover, held⟩ := names.mover
  obtain ⟨mover', held'⟩ := names'.mover
  by_cases killer' : o.IsKiller ply n
  · have band := right.secondKillerRank_le tempered killer'
    rcases killer' with first' | second'
    · have above := right.firstKillerRank_le tempered first'
      have below := left.le_firstKillerRank absent tempered quiet
      omega
    · by_cases killer : o.IsKiller ply m
      · rcases killer with first | second
        · exact .killers absent' first second'
        · have below := left.le_secondKillerRank absent tempered second
          omega
      · have below := left.lt_secondKillerRank absent quiet killer tempered held
        omega
  · by_cases killer : o.IsKiller ply m
    · exact .killer absent' killer quiet' killer'
    · have above := right.historyScore_le tempered quiet' held'
      have below := left.le_historyScore absent quiet killer held
      exact .history absent' quiet quiet' killer' held held' (by omega)

theorem outranks_of_lt : o.Outranks p ply tableMove m n := by
  have absent' : tableMove ≠ some n := fun same =>
    absurd (left.le_tableRank tempered) (not_le.2 ((right.tableRank_le same).trans_lt lower))
  by_cases same : tableMove = some m
  · refine .table same ?_
    rintro rfl
    exact absent' same
  -- Each kind of move lies above the kinds after it: captures, promotions, quiet moves.
  cases capture' : n.isCapture with
  | true =>
    have above := right.captureRank_lt capture'
    cases capture : m.isCapture with
    | true =>
      exact outranks_of_captures left right names names' lower same absent' capture capture'
    | false =>
      have below := left.lt_captureRank same tempered capture
      omega
  | false =>
    cases capture : m.isCapture with
    | true => exact .capture absent' capture capture'
    | false =>
      cases promoted' : n.promoted with
      | some other =>
        have above := right.promotionRank_add_le promoted'
        cases promoted : m.promoted with
        | some piece =>
          have below := left.le_promotionRank_add same capture promoted
          exact .promoted absent' capture capture' promoted promoted'
            (Kind.value_lt_iff.2 (by omega))
        | none =>
          have below := left.le_firstKillerRank same tempered
            (Move.isQuiet_iff.2 ⟨capture, promoted⟩)
          have apart : firstKillerRank < promotionRank := by decide
          omega
      | none =>
        have quiet' := Move.isQuiet_iff.2 ⟨capture', promoted'⟩
        cases promoted : m.promoted with
        | some piece => exact .promotion absent' (Option.isSome_iff_exists.2 ⟨_, promoted⟩) quiet'
        | none =>
          exact outranks_of_quiet left right tempered names names' lower same absent'
            (Move.isQuiet_iff.2 ⟨capture, promoted⟩) quiet'

end

/-! ## Generated moves -/

theorem mapM_of_forall_some {α β : Type} {l : List α} {f : α → Option β} {g : α → β}
    (each : ∀ a ∈ l, f a = some (g a)) : l.mapM f = some (l.map g) := by
  induction l with
  | nil => rfl
  | cons a rest ih =>
    rw [List.forall_mem_cons] at each
    rw [List.mapM_cons, each.1, ih each.2]
    rfl

theorem checkedRankMoves_eq_some {moves : List Move} (names : ∀ m ∈ moves, p.Names m)
    (o : MoveOrdering) (ply : Nat) (tableMove : Option Move) :
    o.checkedRankMoves p ply tableMove moves = some (o.rankMoves p ply tableMove moves) :=
  mapM_of_forall_some fun m member => by
    rw [(standing_rank (names m member)).2]
    rfl

/-- Whatever a move ordering has learned, the ranks of the moves generated in a position of a game
put them in the order that is wanted, and neither learning nor ranking leaves a word of 32 bits. -/
theorem rankMoves_of_reachable [ZobristKeys] {p : Position} (reachable : p.Reachable)
    {calls : List OrderingCall}
    (shallow : ∀ q m ply depth, OrderingCall.cutoff q m ply depth ∈ calls → depth ≤ 255)
    (ply : Nat) (tableMove : Option Move) :
    checkedRun calls = some (run calls) ∧
      (run calls).checkedRankMoves p ply tableMove p.pseudoMoves =
        some ((run calls).rankMoves p ply tableMove p.pseudoMoves) ∧
      ((run calls).rankMoves p ply tableMove p.pseudoMoves).map (·.move) = p.pseudoMoves ∧
      ∀ a ∈ (run calls).rankMoves p ply tableMove p.pseudoMoves,
        ∀ b ∈ (run calls).rankMoves p ply tableMove p.pseudoMoves,
          b.rank < a.rank ↔ (run calls).Outranks p ply tableMove a.move b.move := by
  have firm := reachable.grounded.firm
  have names : ∀ m ∈ p.pseudoMoves, p.Names m := fun m member =>
    Position.Movement.names firm ((Position.mem_pseudoMovesOf firm.consistent).1 member)
  refine ⟨Tempered.fresh.foldlM_checkedCall shallow, checkedRankMoves_eq_some names _ ply tableMove,
    map_move_rankMoves .., ?_⟩
  intro a ranked b ranked'
  obtain ⟨m, member, rfl⟩ := List.mem_map.1 ranked
  obtain ⟨n, member', rfl⟩ := List.mem_map.1 ranked'
  have left : (run calls).Standing p ply tableMove m _ := (standing_rank (names m member)).1
  have right : (run calls).Standing p ply tableMove n _ := (standing_rank (names n member')).1
  have tempered := Tempered.run calls
  exact ⟨outranks_of_lt left right tempered (names m member) (names n member'),
    fun outranks => outranks.lt left right tempered (names m member) (names n member')⟩

end MoveOrdering

namespace Rehearsal

/-- Three cutoffs after what was learned before has been cleared. -/
def cutoffs : List OrderingCall :=
  [.cutoff pushed (.plain 7 6) 3 9, .clear, .cutoff pushed (.plain 4 12) 3 255,
    .cutoff pushed (.plain 7 15) 3 2, .cutoff pushed (.plain 7 23) 0 4]

theorem shallow_cutoffs (q : Position) (m : Move) (ply depth : Nat)
    (listed : OrderingCall.cutoff q m ply depth ∈ cutoffs) : depth ≤ 255 := by
  simp only [cutoffs, List.mem_cons, List.not_mem_nil, OrderingCall.cutoff.injEq, reduceCtorEq,
    or_false, false_or] at listed
  omega

end Rehearsal

namespace MoveOrdering

/-- The table move, captures, promotions, both killers and a move that was once good. -/
theorem rankMoves_of_pushed :
    (((run Rehearsal.cutoffs).rankMoves Rehearsal.pushed 3 (some (.plain 7 5))
      Rehearsal.pushed.pseudoMoves).filter (0 < ·.rank)).map (fun r => (r.move.text, r.rank)) =
        [("e5d6", 1000100), ("b7a8q", 1000400), ("b7a8r", 1000400), ("b7a8b", 1000400),
          ("b7a8n", 1000400), ("b7b8q", 950004), ("b7b8r", 950003), ("b7b8b", 950002),
          ("b7b8n", 950001), ("h1f1", 2000000), ("h1h2", 900000), ("h1h3", 16),
          ("e1e2", 800000)] ∧
      checkedRun Rehearsal.cutoffs = some (run Rehearsal.cutoffs) ∧
      ∀ a ∈ (run Rehearsal.cutoffs).rankMoves Rehearsal.pushed 3 (some (.plain 7 5))
          Rehearsal.pushed.pseudoMoves,
        ∀ b ∈ (run Rehearsal.cutoffs).rankMoves Rehearsal.pushed 3 (some (.plain 7 5))
            Rehearsal.pushed.pseudoMoves,
          b.rank < a.rank ↔
            (run Rehearsal.cutoffs).Outranks Rehearsal.pushed 3 (some (.plain 7 5)) a.move b.move :=
  have ordered := rankMoves_of_reachable Rehearsal.reachable_pushed Rehearsal.shallow_cutoffs 3
    (some (.plain 7 5))
  ⟨by decide +kernel, ordered.1, ordered.2.2.2⟩

end MoveOrdering

end ChessEngine
