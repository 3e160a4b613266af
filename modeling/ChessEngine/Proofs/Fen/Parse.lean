import ChessEngine.Proofs.Fen.Board
import ChessEngine.Proofs.Fen.Fields

/-!
# Reading a whole text

The reader succeeds with the setup a text denotes and otherwise reports the first
thing wrong with it (`parse_iff`).  That the fields are read one after the other
matters only for the error: each constructor of `Faulty` says that the fields to
the left of the faulty one denote something.
-/

namespace ChessEngine

namespace Fen

variable {text : String}

theorem words_eq_parts (text : String) : Text.words text = parts text := by
  rw [Text.words, pieces_eq_splitOnP]
  rfl

/-- A text of six fields is read field by field. -/
theorem parse_fields {board side castling enPassant halfmove fullmove : String}
    (split : parts text = [board, side, castling, enPassant, halfmove, fullmove]) :
    parse text = do
      let pieces ← parseBoard board
      let side ← parseSide side
      let rights ← parseCastling castling
      let enPassant ← parseEnPassant enPassant
      let fifty ← parseCounter halfmove
      let fullmove ← parseCounter fullmove
      return { pieces, side, rights, enPassant, fifty, fullmove } := by
  rw [parse, words_eq_parts, split]

theorem parse_of_denotes {setup : Setup} (denoted : Denotes text setup) :
    parse text = .ok setup := by
  obtain ⟨board, castling, enPassant, halfmove, fullmove, split, pieces, rights, target, fifty,
    number⟩ := denoted
  rw [parse_fields split, (parseBoard_decides _).bind_of_good pieces,
    (parseSide_decides _).bind_of_good rfl,
    (parseCastling_decides _).bind_of_good rights,
    (parseEnPassant_decides _).bind_of_good target,
    (parseCounter_decides _).bind_of_good fifty,
    (parseCounter_decides _).bind_of_good number]
  rfl

/-- The texts of too few fields are told apart by their number of fields. -/
theorem parse_of_missing {field : FenField} (absent : fields[(parts text).length]? = some field) :
    parse text = .error (.missingField field) := by
  rw [parse, words_eq_parts]
  match split : parts text, absent with
  | [], absent | [_], absent | [_, _], absent | [_, _, _], absent | [_, _, _, _], absent
  | [_, _, _, _, _], absent =>
    cases Option.some.inj absent
    rfl
  | _ :: _ :: _ :: _ :: _ :: _ :: rest, absent =>
    rw [List.getElem?_eq_none (by simp [fields])] at absent
    cases absent

theorem parse_of_trailing (more : 6 < (parts text).length) :
    parse text = .error .trailingFields := by
  rw [parse, words_eq_parts]
  match split : parts text, more with
  | _ :: _ :: _ :: _ :: _ :: _ :: _ :: rest, _ => rfl

theorem parse_of_faulty {e : InputError} (faulty : Faulty text e) : parse text = .error e := by
  cases faulty with
  | missing absent => exact parse_of_missing absent
  | trailing more => exact parse_of_trailing more
  | board split fault =>
    rw [parse_fields split, (parseBoard_decides _).bind_of_bad fault]
  | side split pieces neither =>
    rw [parse_fields split, (parseBoard_decides _).bind_of_good pieces,
      (parseSide_decides _).bind_of_bad ⟨neither, rfl⟩]
  | castling split pieces fault =>
    rw [parse_fields split, (parseBoard_decides _).bind_of_good pieces,
      (parseSide_decides _).bind_of_good rfl,
      (parseCastling_decides _).bind_of_bad fault]
  | enPassant split pieces rights nothing =>
    rw [parse_fields split, (parseBoard_decides _).bind_of_good pieces,
      (parseSide_decides _).bind_of_good rfl,
      (parseCastling_decides _).bind_of_good rights,
      (parseEnPassant_decides _).bind_of_bad ⟨nothing, rfl⟩]
  | halfmove split pieces rights target nothing =>
    rw [parse_fields split, (parseBoard_decides _).bind_of_good pieces,
      (parseSide_decides _).bind_of_good rfl,
      (parseCastling_decides _).bind_of_good rights,
      (parseEnPassant_decides _).bind_of_good target,
      (parseCounter_decides _).bind_of_bad ⟨nothing, rfl⟩]
  | fullmove split pieces rights target fifty nothing =>
    rw [parse_fields split, (parseBoard_decides _).bind_of_good pieces,
      (parseSide_decides _).bind_of_good rfl,
      (parseCastling_decides _).bind_of_good rights,
      (parseEnPassant_decides _).bind_of_good target,
      (parseCounter_decides _).bind_of_good fifty,
      (parseCounter_decides _).bind_of_bad ⟨nothing, rfl⟩]

/-- Six fields denote a setup, or one of them is the first that denotes nothing. -/
theorem denotes_or_faulty_of_fields {board side castling enPassant halfmove fullmove : String}
    (split : parts text = [board, side, castling, enPassant, halfmove, fullmove]) :
    (∃ setup, Denotes text setup) ∨ ∃ e, Faulty text e := by
  obtain ⟨pieces, onBoard⟩ | ⟨e, fault⟩ := (parseBoard_decides board).total
  case inr => exact .inr ⟨e, .board split fault⟩
  obtain ⟨color, rfl⟩ | ⟨e, neither, -⟩ := (parseSide_decides side).total
  case inr => exact .inr ⟨_, .side split onBoard neither⟩
  obtain ⟨rights, allowed⟩ | ⟨e, fault⟩ := (parseCastling_decides castling).total
  case inr => exact .inr ⟨e, .castling split onBoard fault⟩
  obtain ⟨target, passed⟩ | ⟨e, nothing, -⟩ := (parseEnPassant_decides enPassant).total
  case inr => exact .inr ⟨_, .enPassant split onBoard allowed nothing⟩
  obtain ⟨fifty, counted⟩ | ⟨e, nothing, -⟩ := (parseCounter_decides halfmove).total
  case inr => exact .inr ⟨_, .halfmove split onBoard allowed passed nothing⟩
  obtain ⟨number, numbered⟩ | ⟨e, nothing, -⟩ := (parseCounter_decides fullmove).total
  case inr => exact .inr ⟨_, .fullmove split onBoard allowed passed counted nothing⟩
  exact .inl ⟨⟨pieces, color, rights, target, fifty, number⟩, board, castling, enPassant, halfmove,
    fullmove, split, onBoard, allowed, passed, counted, numbered⟩

theorem denotes_or_faulty (text : String) :
    (∃ setup, Denotes text setup) ∨ ∃ e, Faulty text e := by
  rcases Nat.lt_trichotomy (parts text).length 6 with few | six | many
  · exact .inr ⟨_, .missing (List.getElem?_eq_getElem few)⟩
  · match split : parts text, six with
    | [_, _, _, _, _, _], _ => exact denotes_or_faulty_of_fields split
  · exact .inr ⟨_, .trailing many⟩

theorem parse_decides (text : String) : Decides (parse text) (Denotes text) (Faulty text) :=
  .of_cases (fun _ => parse_of_denotes) (fun _ => parse_of_faulty) (denotes_or_faulty text)

theorem Denotes.nodup {setup : Setup} (denoted : Denotes text setup) :
    (setup.pieces.map Prod.fst).Nodup ∧ ∀ n ∈ setup.pieces.map Prod.fst, n < 64 := by
  obtain ⟨_, _, _, _, _, _, pieces, _⟩ := denoted
  exact pieces.nodup

/-- A text is read exactly if it denotes a setup, and then as this setup, whose pieces stand on
distinct squares of the board; the error of any other text is the first thing wrong with it. -/
theorem parse_iff (text : String) :
    (∀ setup, parse text = .ok setup ↔ Denotes text setup) ∧
      (∀ setup, parse text = .ok setup →
        (setup.pieces.map Prod.fst).Nodup ∧ ∀ n ∈ setup.pieces.map Prod.fst, n < 64) ∧
      ∀ e, parse text = .error e ↔ Faulty text e :=
  ⟨(parse_decides text).ok_iff,
    fun setup read => Denotes.nodup (((parse_decides text).ok_iff setup).1 read),
    (parse_decides text).error_iff⟩

/-- Rights may be repeated and counters may have signs and leading zeros; of a rank that is too wide
and an unknown side to move only the first is reported. -/
theorem parse_passedPawn :
    (Denotes "4k2r/8/8/3pP3/8/8/8/4K3 w kk d6 +0 003"
        ⟨[(60, ⟨.black, .king⟩), (63, ⟨.black, .rook⟩), (35, ⟨.black, .pawn⟩),
          (36, ⟨.white, .pawn⟩), (4, ⟨.white, .king⟩)],
          .white, ⟨false, false, true, false⟩, some 43, 0, 3⟩ ∧
      [60, 63, 35, 36, 4].Nodup ∧ ∀ n ∈ [60, 63, 35, 36, 4], n < 64) ∧
      Faulty "4k3/8/8/8/8/7P1/8/4K3 x - - 0 1" (.rankWidth 3) := by
  obtain ⟨good, squares, -⟩ := parse_iff "4k2r/8/8/3pP3/8/8/8/4K3 w kk d6 +0 003"
  obtain ⟨-, -, bad⟩ := parse_iff "4k3/8/8/8/8/7P1/8/4K3 x - - 0 1"
  exact ⟨⟨(good _).1 rfl, squares _ rfl⟩, (bad _).1 rfl⟩

end Fen

end ChessEngine
