import ChessEngine.Proofs.Fen.Fields
import ChessEngine.Proofs.Generator.Distinct
import ChessEngine.Proofs.Position.Trial

/-!
# Moves by their texts

A move text gives two squares and at most one promotion.  It leaves out what the move
captures and how it is flagged, and nothing is lost by that: `Movement.eq_completed`
reads both off the board.  So no two generated moves share a text, and
`resolve_of_reachable` says that a text stands for the legal move that is written this
way, or for an error.

`MoveText.parse?_eq_some_iff` makes the reader of move texts the inverse of their
printer, and `MoveText.wellFormed_iff` says by characters what it reads.
-/

namespace ChessEngine

/-! ## The form of a move text -/

namespace MoveText

/-- The letters of the files. -/
def fileLetters : List Char := ['a', 'b', 'c', 'd', 'e', 'f', 'g', 'h']

/-- The digits of the ranks. -/
def rankDigits : List Char := ['1', '2', '3', '4', '5', '6', '7', '8']

/-- Two squares, each a file letter and a rank digit, and after them at most one letter of a
promotion. -/
def WellFormed (text : String) : Prop :=
  ∃ f r f' r' promotion, text.toList = [f, r, f', r'] ++ promotion ∧
    (f ∈ fileLetters ∧ r ∈ rankDigits) ∧ (f' ∈ fileLetters ∧ r' ∈ rankDigits) ∧
      promotion ∈ [[], ['n'], ['b'], ['r'], ['q']]

/-- What the text of a move says of it. -/
def ofMove (m : Move) : MoveText := ⟨m.origin, m.target, m.promotedKind⟩

/-- The letter of a promotion, if there is one. -/
def suffix (promotion : Option Kind) : List Char := (promotion.map Kind.letter).toList

/-- The text of two squares and a promotion. -/
def text (t : MoveText) : String :=
  t.origin.name ++ t.target.name ++ String.ofList (suffix t.promotion)

theorem text_ofMove (m : Move) : (ofMove m).text = m.text := by
  unfold text ofMove Move.text
  cases m.promotedKind <;> rfl

theorem names_iff {t : MoveText} {m : Move} : t.names m = true ↔ ofMove m = t := by
  rcases t with ⟨origin, target, promotion⟩
  simp only [names, ofMove, Bool.and_eq_true, beq_iff_eq, MoveText.mk.injEq, and_assoc]

/-! ## Reading is the inverse of printing -/

theorem exists_coordinate?_iff (start : Char) {letters : List Char}
    (complete : ∀ n : Fin 8, Char.ofNat (start.toNat + n.val) ∈ letters)
    (sound : ∀ c ∈ letters, (Square.coordinate? start c).isSome = true) {c : Char} :
    (∃ n, Square.coordinate? start c = some n) ↔ c ∈ letters := by
  refine ⟨?_, fun listed => Option.isSome_iff_exists.1 (sound c listed)⟩
  intro ⟨n, found⟩
  rw [← Char.ofNat_toNat c, Square.coordinate?_eq_some_iff.1 found]
  exact complete n

theorem exists_square_iff {f r : Char} :
    (∃ s, Square.ofChars? f r = some s) ↔ f ∈ fileLetters ∧ r ∈ rankDigits := by
  rw [← exists_coordinate?_iff 'a' (by decide) (List.all_eq_true.1 (by decide)),
    ← exists_coordinate?_iff '1' (by decide) (List.all_eq_true.1 (by decide))]
  unfold Square.ofChars?
  constructor
  · intro ⟨s, found⟩
    split at found
    · next file rank => exact ⟨⟨_, file⟩, _, rank⟩
    · cases found
  · intro ⟨⟨_, file⟩, _, rank⟩
    rw [file, rank]
    exact ⟨_, rfl⟩

theorem ofChars?_eq_some_iff {f r f' r' : Char} {promotion : Option Kind} {t : MoveText} :
    ofChars? f r f' r' promotion = some t ↔ Square.ofChars? f r = some t.origin ∧
      Square.ofChars? f' r' = some t.target ∧ promotion = t.promotion := by
  rcases t with ⟨origin, target, kind⟩
  unfold ofChars?
  split
  · next first second => simp [first, second]
  · next missing =>
    refine ⟨nofun, fun found => ?_⟩
    rcases found with ⟨first, second, -⟩
    exact absurd second (missing _ _ first)

theorem promotionOfLetter?_eq_some_iff {c : Char} {k : Kind} :
    promotionOfLetter? c = some k ↔ k ∈ promotionKinds ∧ c = k.letter := by
  constructor
  · intro found
    unfold promotionOfLetter? at found
    split at found <;> cases found <;> exact ⟨by decide, rfl⟩
  · intro ⟨listed, letter⟩
    subst letter
    revert k
    decide

theorem toList_text {t : MoveText} {f r f' r' : Char} (first : Square.ofChars? f r = some t.origin)
    (second : Square.ofChars? f' r' = some t.target) :
    t.text.toList = [f, r, f', r'] ++ suffix t.promotion := by
  rw [text, ← Square.ofChars?_eq_some_iff.1 first, ← Square.ofChars?_eq_some_iff.1 second,
    ← String.ofList_append, ← String.ofList_append, String.toList_ofList]
  rfl

/-- The characters of a move text, square by square. -/
theorem exists_toList_text (t : MoveText) : ∃ f r f' r',
    t.text.toList = [f, r, f', r'] ++ suffix t.promotion ∧
      (f ∈ fileLetters ∧ r ∈ rankDigits) ∧ (f' ∈ fileLetters ∧ r' ∈ rankDigits) := by
  have origin := Square.ofChars?_eq_some_iff.2 (rfl : _ = t.origin.name)
  have target := Square.ofChars?_eq_some_iff.2 (rfl : _ = t.target.name)
  exact ⟨_, _, _, _, toList_text origin target, exists_square_iff.1 ⟨_, origin⟩,
    exists_square_iff.1 ⟨_, target⟩⟩

/-- A text is read as the squares and the promotion that it is the text of. -/
theorem parse?_eq_some_iff {text : String} {t : MoveText} :
    parse? text = some t ↔ text = t.text ∧ ∀ k, t.promotion = some k → k ∈ promotionKinds := by
  unfold parse?
  constructor
  · intro read
    split at read
    · next chars =>
      obtain ⟨first, second, none⟩ := ofChars?_eq_some_iff.1 read
      refine ⟨?_, fun k promoted => by cases none.trans promoted⟩
      rw [← String.toList_inj, chars, toList_text first second, ← none]
      rfl
    · next chars =>
      split at read
      case h_2 => cases read
      case h_1 kind letter =>
        obtain ⟨listed, rfl⟩ := promotionOfLetter?_eq_some_iff.1 letter
        obtain ⟨first, second, some⟩ := ofChars?_eq_some_iff.1 read
        refine ⟨?_, fun k promoted => by cases some.trans promoted; exact listed⟩
        rw [← String.toList_inj, chars, toList_text first second, ← some]
        rfl
    · cases read
  · intro ⟨written, promotes⟩
    obtain ⟨f, r, first⟩ : ∃ f r, Square.ofChars? f r = some t.origin :=
      ⟨_, _, Square.ofChars?_eq_some_iff.2 rfl⟩
    obtain ⟨f', r', second⟩ : ∃ f r, Square.ofChars? f r = some t.target :=
      ⟨_, _, Square.ofChars?_eq_some_iff.2 rfl⟩
    rw [written, toList_text first second]
    cases promoted : t.promotion with
    | none => exact ofChars?_eq_some_iff.2 ⟨first, second, promoted.symm⟩
    | some k =>
      have letter := promotionOfLetter?_eq_some_iff.2 ⟨promotes k promoted, rfl⟩
      simp only [suffix, Option.map_some, Option.toList_some, List.cons_append, List.nil_append,
        letter]
      exact ofChars?_eq_some_iff.2 ⟨first, second, promoted.symm⟩

theorem mem_suffixes_iff {chars : List Char} :
    chars ∈ [[], ['n'], ['b'], ['r'], ['q']] ↔
      ∃ kind, chars = suffix kind ∧ ∀ k, kind = some k → k ∈ promotionKinds := by
  have letters : ∀ k ∈ promotionKinds,
      suffix (some k) ∈ [[], ['n'], ['b'], ['r'], ['q']] := by decide
  constructor
  · intro listed
    simp only [List.mem_cons, List.not_mem_nil, or_false] at listed
    rcases listed with rfl | rfl | rfl | rfl | rfl
    · exact ⟨none, rfl, nofun⟩
    · exact ⟨some .knight, rfl, by decide⟩
    · exact ⟨some .bishop, rfl, by decide⟩
    · exact ⟨some .rook, rfl, by decide⟩
    · exact ⟨some .queen, rfl, by decide⟩
  · intro ⟨kind, same, promotes⟩
    subst same
    cases kind with
    | none => decide
    | some k => exact letters k (promotes k rfl)

/-- The reader takes exactly the texts of the right form. -/
theorem wellFormed_iff {text : String} : WellFormed text ↔ ∃ t, parse? text = some t := by
  constructor
  · intro ⟨f, r, f', r', promotion, chars, first, second, listed⟩
    obtain ⟨s, origin⟩ := exists_square_iff.2 first
    obtain ⟨t, target⟩ := exists_square_iff.2 second
    obtain ⟨kind, same, promotes⟩ := mem_suffixes_iff.1 listed
    refine ⟨⟨s, t, kind⟩, parse?_eq_some_iff.2 ⟨?_, promotes⟩⟩
    have named : (⟨s, t, kind⟩ : MoveText).text.toList = _ := toList_text origin target
    rw [← String.toList_inj, chars, same, named]
  · intro ⟨t, read⟩
    obtain ⟨rfl, promotes⟩ := parse?_eq_some_iff.1 read
    obtain ⟨f, r, f', r', chars, first, second⟩ := t.exists_toList_text
    exact ⟨f, r, f', r', _, chars, first, second, mem_suffixes_iff.2 ⟨_, rfl, promotes⟩⟩

end MoveText

namespace Position

section

variable {p : Position} {c : Color} {m m' : Move} {s t : Square} {promoted : Option Piece}
  {text : String}

/-! ## What a text leaves out -/

/-- The move of side `c` with the given squares and promotion.  A pawn that leaves its file for an
empty square takes the pawn that has just passed it. -/
def completed (p : Position) (c : Color) (parts : MoveText) : Move :=
  let pawn := decide (p.pieceOn parts.origin = some ⟨c, .pawn⟩)
  let king := decide (p.pieceOn parts.origin = some ⟨c, .king⟩)
  let files := (parts.target.file.val : Int) - parts.origin.file.val
  let ranks := (parts.target.rank.val : Int) - parts.origin.rank.val
  let enPassant := pawn && files != 0 && (p.pieceOn parts.target).isNone
  let captured := if enPassant then some ⟨c.opposite, .pawn⟩ else p.pieceOn parts.target
  { origin := parts.origin
    target := parts.target
    captured
    promoted := parts.promotion.map (⟨c, ·⟩)
    flags := {
      capture := captured.isSome
      doublePush := pawn && ranks.natAbs == 2
      enPassant
      castle := king && files.natAbs == 2 } }

theorem PieceAttacks.king_files (attacks : p.PieceAttacks ⟨c, .king⟩ s t) :
    ((t.file.val : Int) - s.file.val).natAbs ≠ 2 := by
  rcases attacks with ⟨step, listed, leads⟩ | ⟨step, listed, -⟩
  · have narrow : ∀ step ∈ Step.king, step.1.natAbs ≠ 2 := by decide
    have file := (Square.shift?_eq_some_iff.1 (Step.leads_one.1 leads)).1
    have here := narrow step listed
    omega
  · cases listed

theorem PieceAttacks.pawn_files (attacks : p.PieceAttacks ⟨c, .pawn⟩ s t) :
    (t.file.val : Int) - s.file.val ≠ 0 ∧ ((t.rank.val : Int) - s.rank.val).natAbs ≠ 2 := by
  rcases attacks with ⟨step, listed, leads⟩ | ⟨step, listed, -⟩
  · have steps : ∀ c, ∀ step ∈ Step.pawn c, step.1 ≠ 0 ∧ step.2.natAbs ≠ 2 := by
      intro c
      cases c <;> decide
    obtain ⟨file, rank⟩ := Square.shift?_eq_some_iff.1 (Step.leads_one.1 leads)
    obtain ⟨aside, short⟩ := steps c step listed
    omega
  · cases listed

theorem PromotionFits.eq_map (fits : PromotionFits c t promoted) :
    promoted.map ((⟨c, ·⟩) ∘ Piece.kind) = promoted ∧
      ∀ k, promoted.map Piece.kind = some k → k ∈ promotionKinds := by
  unfold PromotionFits at fits
  split at fits
  · obtain ⟨k, listed, rfl⟩ := fits
    exact ⟨rfl, fun l same => by cases same; exact listed⟩
  · subst fits
    exact ⟨rfl, nofun⟩

variable [ZobristKeys]

/-- The text of a move leaves out nothing that the board does not tell. -/
theorem Movement.eq_completed (firm : p.Firm) (movement : p.Movement c m) :
    p.completed c (.ofMove m) = m := by
  cases movement with
  | @piece k s t notPawn held attacks free =>
    have near : k = .king → ((t.file.val : Int) - s.file.val).natAbs ≠ 2 := by
      intro king
      subst king
      exact attacks.king_files
    simpa [completed, MoveText.ofMove, Move.promotedKind, MoveFlags.none, held, notPawn] using near
  | @pawnCapture s t victim promoted held attacks taken enemy fits =>
    have short := attacks.pawn_files.2
    simp [completed, MoveText.ofMove, Move.promotedKind, MoveFlags.none, held, taken, short,
      fits.eq_map.1]
  | @enPassant s t mine set held attacks =>
    obtain ⟨aside, short⟩ := attacks.pawn_files
    have empty : p.pieceOn t = none := (firm.sound.passed t set).empty
    simp [completed, MoveText.ofMove, Move.promotedKind, MoveFlags.none, held, empty, aside, short]
  | @push s t promoted held next empty fits =>
    obtain ⟨file, rank⟩ := Square.shift?_eq_some_iff.1 next
    have ahead : (t.file.val : Int) - s.file.val = 0 := by omega
    have short : ((t.rank.val : Int) - s.rank.val).natAbs ≠ 2 := by
      cases c <;> simp only [Step.forward] at rank <;> omega
    simp [completed, MoveText.ofMove, Move.promotedKind, MoveFlags.none, held, empty, ahead, short,
      fits.eq_map.1]
  | @doublePush s q t held start next between shifted empty =>
    obtain ⟨file, rank⟩ := Square.shift?_eq_some_iff.1 ((Square.shift?_twice next).2 shifted)
    have ahead : (t.file.val : Int) - s.file.val = 0 := by omega
    have far : ((t.rank.val : Int) - s.rank.val).natAbs = 2 := by
      cases c <;> simp only [Step.forward] at rank <;> omega
    simp [completed, MoveText.ofMove, Move.promotedKind, MoveFlags.none, held, empty, ahead, far]
  | @castle w allowed =>
    have held : p.pieceOn (CastlePath.of c w).kingHome = some ⟨c, .king⟩ :=
      firm.shows.kingSquare_eq.1 allowed.king
    have empty : p.pieceOn (CastlePath.of c w).kingTarget = none :=
      allowed.empty _ (CastlePath.apart c w).target_between
    have far : (((CastlePath.of c w).kingTarget.file.val : Int) -
        (CastlePath.of c w).kingHome.file.val).natAbs = 2 := by
      cases c <;> cases w <;> decide
    simp [completed, MoveText.ofMove, Move.promotedKind, MoveFlags.none, held, empty, far]

omit [ZobristKeys] in
theorem Movement.promotes_fitting (movement : p.Movement c m) {k : Kind}
    (promoted : m.promotedKind = some k) : k ∈ promotionKinds := by
  cases movement with
  | pawnCapture _ _ _ _ fits => exact fits.eq_map.2 k promoted
  | push _ _ _ fits => exact fits.eq_map.2 k promoted
  | _ => cases promoted

omit [ZobristKeys] in
theorem Movement.parse?_text (movement : p.Movement c m) :
    MoveText.parse? m.text = some (.ofMove m) :=
  MoveText.parse?_eq_some_iff.2
    ⟨(MoveText.text_ofMove m).symm, fun _ promoted => movement.promotes_fitting promoted⟩

/-- No two moves of the rules have the same text. -/
theorem Movement.eq_of_text (firm : p.Firm) (left : p.Movement c m) (right : p.Movement c m')
    (same : m.text = m'.text) : m = m' := by
  have read := right.parse?_text
  rw [← same, left.parse?_text] at read
  have parts : MoveText.ofMove m = MoveText.ofMove m' := Option.some.inj read
  rw [← left.eq_completed firm, ← right.eq_completed firm, parts]

/-! ## Legal moves by their texts -/

/-- Generated for the side to move, and accepted by the legality gate. -/
def Legal (p : Position) (m : Move) : Prop := m ∈ p.pseudoMoves ∧ ∃ q, p.make m = .ok (true, q)

/-- What is wrong with a text that no legal move is written as: its form, or else that no legal move
is written this way. -/
inductive Misnames (p : Position) (text : String) : InputError → Prop
  | malformed : ¬ MoveText.WellFormed text → Misnames p text (.malformedMove text)
  | illegal : MoveText.WellFormed text → (∀ m, p.Legal m → m.text ≠ text) →
    Misnames p text (.illegalMove text)

theorem Legal.movement (firm : p.Firm) (legal : p.Legal m) : p.Movement p.side m :=
  (mem_pseudoMovesOf firm.consistent).1 legal.1

theorem Firm.eq_of_text (firm : p.Firm) (left : p.Legal m) (right : p.Legal m')
    (same : m.text = m'.text) : m = m' :=
  (left.movement firm).eq_of_text firm (right.movement firm) same

/-- A text of the right form names the legal moves that it is the text of. -/
theorem Firm.names_iff (firm : p.Firm) (legal : p.Legal m) {parts : MoveText}
    (read : MoveText.parse? text = some parts) : parts.names m = true ↔ m.text = text := by
  rw [MoveText.names_iff]
  constructor
  · intro named
    rw [← MoveText.text_ofMove, named, (MoveText.parse?_eq_some_iff.1 read).1]
  · intro written
    have again := (legal.movement firm).parse?_text
    rw [written, read] at again
    exact (Option.some.inj again).symm

theorem reading_of_parse? {parts : MoveText} (read : MoveText.parse? text = some parts) :
    p.reading text = match (p.legalAmong p.pseudoMoves).find? parts.names with
      | some m => .ok m
      | none => .error (.illegalMove text) := by
  rw [reading, MoveText.parse, read]
  rfl

theorem mem_legalAmong_pseudoMoves : m ∈ p.legalAmong p.pseudoMoves ↔ p.Legal m := mem_legalAmong

/-- A text is read as the legal move that it is the text of, or not at all. -/
theorem Firm.reading_decides (firm : p.Firm) (text : String) :
    Decides (p.reading text) (fun m => p.Legal m ∧ m.text = text) (p.Misnames text) := by
  refine .of_cases ?_ ?_ ?_
  · intro m ⟨legal, written⟩
    have read : MoveText.parse? text = some (.ofMove m) :=
      written ▸ (legal.movement firm).parse?_text
    rw [reading_of_parse? read]
    cases found : (p.legalAmong p.pseudoMoves).find? (MoveText.ofMove m).names with
    | none =>
      have missed := List.find?_eq_none.1 found m (mem_legalAmong_pseudoMoves.2 legal)
      exact absurd ((firm.names_iff legal read).2 written) missed
    | some m' =>
      have legal' := mem_legalAmong_pseudoMoves.1 (List.mem_of_find?_eq_some found)
      have written' := (firm.names_iff legal' read).1 (List.find?_some found)
      rw [firm.eq_of_text legal' legal (written'.trans written.symm)]
  · intro e misnames
    cases misnames with
    | malformed illFormed =>
      have unread : MoveText.parse? text = none :=
        Option.eq_none_iff_forall_ne_some.2 fun t read =>
          illFormed (MoveText.wellFormed_iff.2 ⟨t, read⟩)
      rw [reading, MoveText.parse, unread]
      rfl
    | illegal wellFormed unwritten =>
      obtain ⟨parts, read⟩ := MoveText.wellFormed_iff.1 wellFormed
      have missed : (p.legalAmong p.pseudoMoves).find? parts.names = none := by
        refine List.find?_eq_none.2 fun m listed named => ?_
        have legal := mem_legalAmong_pseudoMoves.1 listed
        exact unwritten m legal ((firm.names_iff legal read).1 named)
      rw [reading_of_parse? read, missed]
  · by_cases written : ∃ m, p.Legal m ∧ m.text = text
    · exact .inl written
    · by_cases wellFormed : MoveText.WellFormed text
      · exact .inr ⟨_, .illegal wellFormed fun m legal same => written ⟨m, legal, same⟩⟩
      · exact .inr ⟨_, .malformed wellFormed⟩

end

/-- In every position of a game whose history has room for one more move, a text is resolved as the
legal move that is written this way, of which there is at most one, and otherwise as the error of
its form or of its move.  The position is handed back, its number of the move too unless the counter
is full. -/
theorem resolve_of_reachable [ZobristKeys] {p : Position} (reachable : p.Reachable)
    (room : p.history.size < historyCapacity) (text : String) :
    ∃ answer fullmove, p.resolve text = .ok (answer, p.recount fullmove p.ply) ∧
      (p.fullmove ≠ 65535 → fullmove = p.fullmove) ∧
      (∀ m, answer = .ok m ↔ p.Legal m ∧ m.text = text) ∧
      (∀ e, answer = .error e ↔ p.Misnames text e) ∧
      ∀ m m', p.Legal m → p.Legal m' → m.text = m'.text → m = m' := by
  have firm := reachable.grounded.firm
  have roomy : p.Roomy 1 := ⟨firm, room⟩
  obtain ⟨fullmove, resolved, exact⟩ := roomy.resolve_reads text
  have decides := firm.reading_decides text
  refine ⟨_, fullmove, resolved, fun open_ => exact ?_, decides.ok_iff, decides.error_iff,
    fun m m' left right => firm.eq_of_text left right⟩
  have bound := p.fullmove.toNat_lt
  have apart : p.fullmove.toNat ≠ 65535 := fun full => open_ (UInt16.toNat_inj.1 full)
  omega

/-- Before the rehearsal a pawn may go two squares; castling is generated but leaves the king
attacked; and a Cyrillic letter is no file. -/
theorem resolve_of_rehearsal :
    (∃ q, Rehearsal.start.resolve "d7d5" =
      .ok (.ok ⟨51, 35, none, none, { MoveFlags.none with doublePush := true }⟩, q)) ∧
    (∃ q, Rehearsal.start.resolve "e8c8" = .ok (.error (.illegalMove "e8c8"), q)) ∧
    ∃ q, Rehearsal.start.resolve "d7д5" = .ok (.error (.malformedMove "d7д5"), q) := by
  have room : Rehearsal.start.history.size < historyCapacity := by decide +kernel
  refine ⟨?_, ?_, ?_⟩
  · obtain ⟨answer, fullmove, resolved, -, ok_iff, -⟩ :=
      resolve_of_reachable Rehearsal.reachable room "d7d5"
    cases Rehearsal.played with
    | cons member made _ =>
      rw [(ok_iff _).2 ⟨⟨member, _, made⟩, by decide +kernel⟩] at resolved
      exact ⟨_, resolved⟩
  · obtain ⟨answer, fullmove, resolved, -, -, error_iff, -⟩ :=
      resolve_of_reachable Rehearsal.reachable room "e8c8"
    have rejected : ∀ m ∈ Rehearsal.start.pseudoMoves, m.text = "e8c8" →
        Rehearsal.start.after? m = none := by
      decide +kernel
    have wellFormed : MoveText.WellFormed "e8c8" := MoveText.wellFormed_iff.2 ⟨_, rfl⟩
    rw [(error_iff _).2 (.illegal wellFormed fun m legal written => ?_)] at resolved
    · exact ⟨_, resolved⟩
    · obtain ⟨member, q, made⟩ := legal
      cases (rejected m member written).symm.trans (after?_eq_some.2 made)
  · obtain ⟨answer, fullmove, resolved, -, -, error_iff, -⟩ :=
      resolve_of_reachable Rehearsal.reachable room "d7д5"
    have illFormed : ¬ MoveText.WellFormed "d7д5" := by
      rw [MoveText.wellFormed_iff]
      exact fun ⟨_, read⟩ => nomatch read
    rw [(error_iff _).2 (.malformed illFormed)] at resolved
    exact ⟨_, resolved⟩

end Position

end ChessEngine
