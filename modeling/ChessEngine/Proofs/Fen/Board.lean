import ChessEngine.Proofs.Fen.Grammar
import ChessEngine.Proofs.Outcome
import Mathlib.Data.List.Nodup

/-!
# Reading the board

The board is read with a running file number; `Row` and `Rank` say what a rank
denotes without one.  `parseRank_append` connects them: characters that stand for
squares are read as these squares and move the file number on by as many.  Every
rank either denotes eight squares or has a first thing wrong with it
(`rank_cases`), and the same holds of the board (`board_cases`), so that
`parseRank_decides` and `parseBoard_decides` have nothing left to look at.
-/

namespace ChessEngine

/-! ## Characters -/

/-- A digit is the character of a number below ten. -/
theorem isDigit_iff {c : Char} : c.isDigit = true ↔ ∃ n < 10, c = Nat.digitChar n := by
  constructor
  · intro digit
    simp only [Char.isDigit, Bool.and_eq_true, decide_eq_true_eq] at digit
    have low : 48 ≤ c.toNat := UInt32.le_iff_toNat_le.1 digit.1
    have high : c.toNat ≤ 57 := UInt32.le_iff_toNat_le.1 digit.2
    refine ⟨c.toNat - 48, by omega, ?_⟩
    have value : ∀ n < 10, (Nat.digitChar n).toNat = 48 + n := by decide
    refine Char.toNat_inj.1 ?_
    rw [value _ (by omega)]
    omega
  · rintro ⟨n, below, rfl⟩
    revert n
    decide

theorem toNat_digitChar : ∀ n < 10, (Nat.digitChar n).toNat - '0'.toNat = n := by decide

/-- A kind is read from its letter and from nothing else. -/
theorem Kind.ofLetter?_eq_some_iff {c : Char} {k : Kind} : ofLetter? c = some k ↔ c = k.letter := by
  constructor
  · intro found
    unfold ofLetter? at found
    split at found <;> cases found <;> rfl
  · rintro rfl
    exact ofLetter?_letter k

namespace Piece

theorem isDigit_letter (p : Piece) : p.letter.isDigit = false := by
  obtain ⟨c, k⟩ := p
  cases c <;> cases k <;> decide

theorem ofLetter?_eq_some_iff {c : Char} {p : Piece} : ofLetter? c = some p ↔ c = p.letter := by
  constructor
  · intro found
    obtain ⟨k, lower, rfl⟩ := Option.map_eq_some_iff.1 found
    rw [Kind.ofLetter?_eq_some_iff] at lower
    by_cases upper : c.isUpper = true
    · have range : ∀ n < 26, ∀ k ∈ Kind.all, (Char.ofNat (65 + n)).toLower = k.letter →
          Char.ofNat (65 + n) = k.letter.toUpper := by decide
      have capital : 'A'.val ≤ c.val ∧ c.val ≤ 'Z'.val := of_decide_eq_true upper
      have bounds : 65 ≤ c.toNat ∧ c.toNat ≤ 90 :=
        ⟨UInt32.le_iff_toNat_le.1 capital.1, UInt32.le_iff_toNat_le.1 capital.2⟩
      have same : c = Char.ofNat (65 + (c.toNat - 65)) := by
        rw [Nat.add_sub_cancel' bounds.1, Char.ofNat_toNat]
      simp only [upper, if_true, letter]
      rw [same] at lower ⊢
      exact range _ (by omega) k (by cases k <;> decide) lower
    · have unchanged : c.toLower = c :=
        dif_neg fun capital => upper (decide_eq_true capital)
      simp only [upper, Bool.false_eq_true, if_false, letter]
      rw [← lower, unchanged]
  · rintro rfl
    exact ofLetter?_letter p

example : ([Color.white, .black].flatMap fun c => Kind.all.map fun k => letter ⟨c, k⟩) =
    ['P', 'N', 'B', 'R', 'Q', 'K', 'p', 'n', 'b', 'r', 'q', 'k'] := by decide

end Piece

namespace Fen

section

variable {rank : Fin 8} {file n : Nat} {row before after : List Char} {c : Char} {p : Piece}
  {squares more : List (Option Piece)} {e : InputError}

/-! ## One rank -/

theorem Row.append {left right : List Char} (first : Row left squares) (second : Row right more) :
    Row (left ++ right) (squares ++ more) := by
  induction first with
  | nil => exact second
  | piece p _ ih => exact ih.piece p
  | gap n low high _ ih =>
    rw [List.append_assoc]
    exact ih.gap n low high

theorem piecesFrom_append (left right : List (Option Piece)) :
    piecesFrom rank file (left ++ right) =
      piecesFrom rank file left ++ piecesFrom rank (file + left.length) right := by
  rw [piecesFrom, List.zipIdx_append, List.filterMap_append]
  rfl

theorem piecesFrom_replicate : piecesFrom rank file (List.replicate n none) = [] := by
  refine List.filterMap_eq_nil_iff.2 fun ⟨holder, place⟩ listed => ?_
  have empty := List.eq_of_mem_replicate (List.fst_mem_of_mem_zipIdx listed)
  rw [show holder = none from empty]
  rfl

theorem parseRank_piece (room : file < 8) :
    parseRank rank file (p.letter :: row) =
      (parseRank rank (file + 1) row).map ((8 * rank.val + file, p) :: ·) := by
  rw [parseRank, if_neg (by simp [p.isDigit_letter]), Piece.ofLetter?_letter]
  dsimp only
  rw [if_neg (by omega)]
  cases parseRank rank (file + 1) row <;> rfl

theorem parseRank_gap (low : 1 ≤ n) (high : n ≤ 8) (room : file + n ≤ 8) :
    parseRank rank file (n.digitChar :: row) = parseRank rank (file + n) row := by
  have digit : n.digitChar.isDigit = true := isDigit_iff.2 ⟨n, by omega, rfl⟩
  rw [parseRank, if_pos digit, toNat_digitChar n (by omega)]
  exact if_neg (by simp; omega)

/-- Characters that stand for squares are read as these squares, while there is room for them. -/
theorem parseRank_append (denoted : Row before squares) (room : file + squares.length ≤ 8) :
    parseRank rank file (before ++ row) =
      (parseRank rank (file + squares.length) row).map (piecesFrom rank file squares ++ ·) := by
  induction denoted generalizing file with
  | nil =>
    show parseRank rank file row = (parseRank rank file row).map ([] ++ ·)
    cases parseRank rank file row <;> rfl
  | piece p _ ih =>
    rw [List.length_cons] at room ⊢
    rw [List.cons_append, parseRank_piece (by omega), ih (by omega)]
    rw [Nat.add_assoc, Nat.add_comm 1]
    cases parseRank rank _ row <;> rfl
  | gap n low high _ ih =>
    rw [List.length_append, List.length_replicate] at room ⊢
    rw [List.cons_append, parseRank_gap low high (by omega), ih (by omega), Nat.add_assoc,
      piecesFrom_append, piecesFrom_replicate, List.length_replicate]
    rfl

theorem parseRank_of_rank (denoted : Rank row squares) :
    parseRank rank 0 row = .ok (piecesFrom rank 0 squares) := by
  have read : parseRank rank 0 (row ++ []) = _ :=
    parseRank_append denoted.row (by rw [denoted.width])
  rw [List.append_nil, denoted.width] at read
  rw [read]
  exact congrArg Except.ok (List.append_nil _)

/-- What is wrong after some squares is wrong with the whole row. -/
theorem parseRank_append_error (denoted : Row before squares) (room : squares.length ≤ 8)
    (fails : parseRank rank squares.length row = .error e) :
    parseRank rank 0 (before ++ row) = .error e := by
  rw [parseRank_append denoted (by omega), Nat.zero_add, fails]
  rfl

theorem parseRank_of_fault (fault : RankFault rank row e) : parseRank rank 0 row = .error e := by
  cases fault with
  | letter denoted room symbol unknown =>
    refine parseRank_append_error denoted room ?_
    have none : Piece.ofLetter? _ = none := Option.eq_none_iff_forall_ne_some.2 fun p found =>
      unknown p (Piece.ofLetter?_eq_some_iff.1 found).symm
    rw [parseRank, if_neg (by rw [symbol]; decide), none]
  | digit denoted room outside =>
    refine parseRank_append_error denoted room ?_
    rcases outside with rfl | rfl
    · rw [parseRank, if_pos (by decide)]
      exact if_pos rfl
    · rw [parseRank, if_pos (by decide)]
      exact if_pos (by simp)
  | wide denoted room single excess =>
    refine parseRank_append_error denoted room ?_
    cases single with
    | piece p rest =>
      cases rest
      rw [parseRank, if_neg (by simp [p.isDigit_letter]), Piece.ofLetter?_letter]
      exact if_pos (Nat.le_of_lt_succ excess)
    | gap n low high rest =>
      cases rest
      have digit : n.digitChar.isDigit = true := isDigit_iff.2 ⟨n, by omega, rfl⟩
      rw [List.append_nil, List.length_replicate] at excess
      rw [parseRank, if_pos digit, toNat_digitChar n (by omega)]
      exact if_pos (by simp; omega)
  | short denoted few =>
    rw [← row.append_nil]
    refine parseRank_append_error denoted few.le ?_
    exact if_neg few.ne

/-- A character stands for squares, or it is no letter of a piece, or it is no width. -/
theorem row_singleton_cases (c : Char) :
    (∃ more, Row [c] more) ∨ (c.isDigit = false ∧ ∀ p : Piece, p.letter ≠ c) ∨
      c = '0' ∨ c = '9' := by
  by_cases digit : c.isDigit = true
  · obtain ⟨n, below, rfl⟩ := isDigit_iff.1 digit
    by_cases width : 1 ≤ n ∧ n ≤ 8
    · exact .inl ⟨_, .gap n width.1 width.2 .nil⟩
    · obtain rfl | rfl : n = 0 ∨ n = 9 := by omega
      · exact .inr (.inr (.inl rfl))
      · exact .inr (.inr (.inr rfl))
  · by_cases known : ∃ p : Piece, p.letter = c
    · obtain ⟨p, rfl⟩ := known
      exact .inl ⟨_, .piece p .nil⟩
    · exact .inr (.inl ⟨by simpa using digit, not_exists.1 known⟩)

/-- A row is a rank or has a first thing wrong with it. -/
theorem rank_cases (rank : Fin 8) (row : List Char) :
    (∃ squares, Rank row squares) ∨ ∃ e, RankFault rank row e := by
  -- The characters before the present one stand for at most eight squares.
  suffices further : ∀ rest before squares, Row before squares → squares.length ≤ 8 →
      (∃ squares, Rank (before ++ rest) squares) ∨ ∃ e, RankFault rank (before ++ rest) e from
    further row [] [] .nil (Nat.zero_le 8)
  intro rest
  induction rest with
  | nil =>
    intro before squares denoted room
    rw [List.append_nil]
    rcases room.lt_or_eq with few | enough
    · exact .inr ⟨_, .short denoted few⟩
    · exact .inl ⟨squares, denoted, enough⟩
  | cons c rest ih =>
    intro before squares denoted room
    rcases row_singleton_cases c with ⟨more, single⟩ | ⟨symbol, unknown⟩ | outside
    · by_cases fits : squares.length + more.length ≤ 8
      · have longer := ih (before ++ [c]) (squares ++ more) (denoted.append single)
          (by rwa [List.length_append])
        rwa [List.append_assoc] at longer
      · exact .inr ⟨_, .wide denoted room single (by omega)⟩
    · exact .inr ⟨_, .letter denoted room symbol unknown⟩
    · exact .inr ⟨_, .digit denoted room outside⟩

/-! ## All ranks -/

variable {order : List (Fin 8)} {rows : List (List Char)} {ranks : List (List (Option Piece))}

theorem readRanks_of_ranks (denoted : List.Forall₂ Rank rows ranks) (order : List (Fin 8)) :
    (order.zip rows).mapM (fun (rank, row) => parseRank rank 0 row) =
      .ok ((order.zip ranks).map fun (rank, squares) => piecesFrom rank 0 squares) := by
  induction denoted generalizing order with
  | nil => rw [List.zip_nil_right, List.zip_nil_right]; rfl
  | cons first _ ih =>
    cases order with
    | nil => rfl
    | cons rank order =>
      simp only [List.zip_cons_cons, List.mapM_cons, parseRank_of_rank first, ok_bind, ih order]
      rfl

theorem readRanks_of_fault {start : List (List Char)} (denoted : List.Forall₂ Rank start ranks)
    (place : order[start.length]? = some rank) (fault : RankFault rank row e) :
    (order.zip (start ++ row :: rows)).mapM (fun (rank, row) => parseRank rank 0 row) =
      .error e := by
  induction denoted generalizing order with
  | nil =>
    obtain ⟨order, rfl⟩ : ∃ rest, order = rank :: rest := by
      cases order with
      | nil => cases place
      | cons r order => exact ⟨order, by rw [Option.some.inj place]⟩
    simp only [List.nil_append, List.zip_cons_cons, List.mapM_cons, parseRank_of_fault fault]
    rfl
  | cons first _ ih =>
    cases order with
    | nil => cases place
    | cons r order =>
      simp only [List.cons_append, List.zip_cons_cons, List.mapM_cons, parseRank_of_rank first,
        ok_bind, ih place]
      rfl

/-- All rows are ranks, or one of them is the first that has something wrong with it. -/
theorem ranks_cases : ∀ {rows : List (List Char)} {order : List (Fin 8)},
    rows.length = order.length → (∃ ranks, List.Forall₂ Rank rows ranks) ∨
      ∃ start row rest ranks rank e, rows = start ++ row :: rest ∧
        List.Forall₂ Rank start ranks ∧ order[start.length]? = some rank ∧ RankFault rank row e
  | [], _, _ => .inl ⟨[], .nil⟩
  | row :: rows, r :: order, same => by
    rcases rank_cases r row with ⟨squares, first⟩ | ⟨e, fault⟩
    · rcases ranks_cases (Nat.succ.inj same) with ⟨ranks, others⟩ |
        ⟨start, bad, rest, ranks, rank, e, rfl, others, place, fault⟩
      · exact .inl ⟨squares :: ranks, .cons first others⟩
      · exact .inr ⟨row :: start, bad, rest, squares :: ranks, rank, e, rfl,
          .cons first others, place, fault⟩
    · exact .inr ⟨[], row, rows, [], r, e, rfl, .nil, rfl, fault⟩

/-! ## The board -/

theorem pieces_eq_splitOnP (cut : Char → Bool) (text : List Char) :
    Text.pieces cut text = text.splitOnP cut := by
  induction text with
  | nil => rfl
  | cons c rest ih =>
    rw [Text.pieces, List.splitOnP_cons_eq_if_modifyHead, ih]
    split
    · rfl
    · cases split : rest.splitOnP cut with
      | nil => exact absurd split (List.splitOnP_ne_nil _ _)
      | cons piece more => rfl

theorem pieces_slash (text : List Char) : Text.pieces (· == '/') text = text.splitOn '/' :=
  pieces_eq_splitOnP _ text

theorem finRange_reverse : (List.finRange 8).reverse = rankOrder := by decide

theorem rankOrder_place : ∀ {n : Nat} {rank : Fin 8},
    rankOrder[n]? = some rank ↔ rank.val + n = 7 := by
  intro n rank
  by_cases inside : n < 8
  · have each : ∀ n < 8, ∀ rank : Fin 8, rankOrder[n]? = some rank ↔ rank.val + n = 7 := by
      decide
    exact each n inside rank
  · rw [List.getElem?_eq_none (by simpa [rankOrder] using inside)]
    simp
    omega

/-- The board is read as the pieces it denotes, or for the first thing that is wrong with it. -/
theorem parseBoard_decides (text : String) :
    Decides (parseBoard text) (Board text) (BoardFault text) := by
  have unfolded : (text.toList.splitOn '/').length = 8 → parseBoard text =
      (rankOrder.zip (text.toList.splitOn '/')).mapM (fun (rank, row) => parseRank rank 0 row)
        >>= fun rows => .ok rows.flatten := fun count => by
    rw [parseBoard]
    dsimp only
    rw [pieces_slash, if_neg (not_not.2 count), finRange_reverse]
    rfl
  refine .of_cases ?_ ?_ ?_
  · rintro pieces ⟨ranks, count, denoted, rfl⟩
    rw [unfolded (denoted.length_eq.trans count), readRanks_of_ranks denoted, ok_bind,
      List.flatMap]
  · rintro e (count | ⟨split, count, denoted, place, fault⟩)
    · rw [parseBoard]
      dsimp only
      rw [pieces_slash, if_pos count]
    · rw [unfolded count, split,
        readRanks_of_fault denoted (rankOrder_place.2 place) fault]
      rfl
  · by_cases count : (text.toList.splitOn '/').length = 8
    · rcases ranks_cases (show _ = rankOrder.length from count) with ⟨ranks, denoted⟩ |
        ⟨start, row, rest, ranks, rank, e, split, denoted, place, fault⟩
      · exact .inl ⟨_, ranks, denoted.length_eq.symm.trans count, denoted, rfl⟩
      · exact .inr ⟨e, .rank split count denoted (rankOrder_place.1 place) fault⟩
    · exact .inr ⟨_, .count count⟩

/-! ## The squares of the pieces -/

theorem piecesFrom_cons (holder : Option Piece) :
    piecesFrom rank file (holder :: squares) =
      (holder.map fun piece => (8 * rank.val + file, piece)).toList ++
        piecesFrom rank (file + 1) squares := by
  cases holder <;> rfl

theorem bounds_of_mem_piecesFrom {entry : Nat × Piece}
    (listed : entry ∈ piecesFrom rank file squares) :
    8 * rank.val + file ≤ entry.1 ∧ entry.1 < 8 * rank.val + file + squares.length := by
  induction squares generalizing file with
  | nil => cases listed
  | cons holder squares ih =>
    rw [piecesFrom_cons, List.mem_append] at listed
    rw [List.length_cons]
    rcases listed with here | later
    · rw [Option.mem_toList, Option.map_eq_some_iff] at here
      obtain ⟨piece, -, rfl⟩ := here
      exact ⟨le_rfl, by dsimp only; omega⟩
    · have further := ih later
      omega

theorem nodup_piecesFrom : ((piecesFrom rank file squares).map Prod.fst).Nodup := by
  induction squares generalizing file with
  | nil => exact List.nodup_nil
  | cons holder squares ih =>
    rw [piecesFrom_cons]
    cases holder with
    | none => exact ih
    | some piece =>
      refine List.nodup_cons.2 ⟨fun again => ?_, ih⟩
      obtain ⟨entry, listed, same⟩ := List.mem_map.1 again
      have later := (bounds_of_mem_piecesFrom listed).1
      dsimp only at same
      omega

theorem width_of_mem {rows : List (List Char)} {ranks : List (List (Option Piece))}
    (denoted : List.Forall₂ Rank rows ranks) : ∀ squares ∈ ranks, squares.length = 8 := by
  induction denoted with
  | nil => exact fun _ listed => absurd listed List.not_mem_nil
  | cons first _ ih => exact List.forall_mem_cons.2 ⟨first.width, ih⟩

/-- A board names distinct squares. -/
theorem Board.nodup {text : String} {pieces : List (Nat × Piece)} (denoted : Board text pieces) :
    (pieces.map Prod.fst).Nodup ∧ ∀ n ∈ pieces.map Prod.fst, n < 64 := by
  obtain ⟨ranks, count, rows, rfl⟩ := denoted
  have width : ∀ entry ∈ rankOrder.zip ranks, entry.2.length = 8 := fun entry listed =>
    width_of_mem rows _ (List.of_mem_zip listed).2
  have inside : ∀ entry ∈ rankOrder.zip ranks, ∀ n ∈ (piecesFrom entry.1 0 entry.2).map Prod.fst,
      n / 8 = entry.1.val := fun entry listed n named => by
    obtain ⟨piece, held, rfl⟩ := List.mem_map.1 named
    have bounds := bounds_of_mem_piecesFrom held
    rw [width entry listed] at bounds
    omega
  rw [List.map_flatMap]
  constructor
  · refine List.nodup_flatMap.2 ⟨fun entry _ => nodup_piecesFrom, ?_⟩
    have distinct : ((rankOrder.zip ranks).map Prod.fst).Nodup := by
      rw [List.map_fst_zip (by rw [count]; rfl)]
      decide
    refine (List.pairwise_map.1 distinct).imp_of_mem fun here there different n first second => ?_
    exact different (Fin.ext ((inside _ here n first).symm.trans (inside _ there n second)))
  · intro n named
    obtain ⟨entry, listed, held⟩ := List.mem_flatMap.1 named
    have rank := inside entry listed n held
    omega

end

end Fen

end ChessEngine
