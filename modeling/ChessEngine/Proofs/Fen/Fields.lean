import ChessEngine.Proofs.Fen.Grammar
import ChessEngine.Proofs.Outcome

/-!
# Reading the other fields

The side to move, the castling rights, the en-passant square and the counters:
each is read as what it denotes, and a field that denotes nothing is an error.
-/

namespace ChessEngine

/-! ## Squares by name -/

namespace Square

theorem coordinate?_eq_some_iff {start c : Char} {n : Fin 8} :
    coordinate? start c = some n ↔ c.toNat = start.toNat + n.val := by
  have small := n.isLt
  unfold coordinate?
  split
  · next inside =>
    rw [Option.some.injEq, Fin.ext_iff]
    dsimp only
    omega
  · next outside =>
    exact ⟨nofun, fun value => absurd ⟨by omega, by omega⟩ outside⟩

theorem toNat_name (s : Square) :
    (Char.ofNat ('a'.toNat + s.file.val)).toNat = 'a'.toNat + s.file.val ∧
      (Char.ofNat ('1'.toNat + s.rank.val)).toNat = '1'.toNat + s.rank.val := by
  revert s
  decide

theorem ofChars?_eq_some_iff {f r : Char} {s : Square} :
    ofChars? f r = some s ↔ String.ofList [f, r] = s.name := by
  have named : String.ofList [f, r] = s.name ↔
      coordinate? 'a' f = some s.file ∧ coordinate? '1' r = some s.rank := by
    rw [name, String.ofList_inj, List.cons.injEq, List.cons.injEq, and_iff_left rfl,
      coordinate?_eq_some_iff, coordinate?_eq_some_iff, ← Char.toNat_inj, ← Char.toNat_inj,
      (toNat_name s).1, (toNat_name s).2]
  rw [named]
  unfold ofChars?
  constructor
  · intro found
    split at found
    · next file rank => cases found; simp [file, rank]
    · cases found
  · rintro ⟨file, rank⟩
    rw [file, rank]
    exact congrArg some (ofRankFile_rank_file s)

/-- A square is read from its name and from nothing else. -/
theorem ofName?_eq_some_iff {text : String} {s : Square} :
    ofName? text = some s ↔ text = s.name := by
  unfold ofName?
  split
  · next f r chars =>
    rw [ofChars?_eq_some_iff, ← chars, String.ofList_toList]
  · next other =>
    refine ⟨nofun, ?_⟩
    rintro rfl
    exact absurd (String.toList_ofList) (other _ _)

end Square

namespace Fen

variable {text : String}

/-! ## The side to move -/

theorem parseSide_decides (text : String) :
    Decides (parseSide text) (fun color => text = sideText color)
      (fun e => (∀ color, text ≠ sideText color) ∧ e = .sideToMove text) := by
  refine .of_cases ?_ ?_ ?_
  · rintro (_ | _) rfl <;> rfl
  · rintro e ⟨neither, rfl⟩
    exact (if_neg (neither .white)).trans (if_neg (neither .black))
  · by_cases known : ∃ color, text = sideText color
    · exact .inl known
    · exact .inr ⟨_, not_exists.1 known, rfl⟩

/-! ## The castling rights -/

theorem castlingLetter?_eq_some_iff {c : Char} {color : Color} {wing : Wing} :
    castlingLetter? c = some (color, wing) ↔ c = rightLetter color wing := by
  constructor
  · intro found
    unfold castlingLetter? at found
    split at found <;> cases found <;> rfl
  · rintro rfl
    cases color <;> cases wing <;> rfl

theorem allows_grant {rights : CastlingRights} {c color : Color} {w wing : Wing} :
    (rights.grant c w).allows color wing = true ↔
      rights.allows color wing = true ∨ rightLetter color wing = rightLetter c w := by
  rw [CastlingRights.grant, CastlingRights.allows_ofPred]
  cases c <;> cases w <;> cases color <;> cases wing <;> simp [rightLetter]

/-- Letters of rights grant these rights and no others. -/
theorem parseCastlingLetters_append {before rest : List Char}
    (known : ∀ c ∈ before, IsRight c) (rights : CastlingRights) :
    ∃ granted, parseCastlingLetters rights (before ++ rest) = parseCastlingLetters granted rest ∧
      ∀ color wing, granted.allows color wing = true ↔
        rights.allows color wing = true ∨ rightLetter color wing ∈ before := by
  induction before generalizing rights with
  | nil => exact ⟨rights, rfl, by simp⟩
  | cons c before ih =>
    obtain ⟨⟨color, wing, rfl⟩, later⟩ := List.forall_mem_cons.1 known
    obtain ⟨granted, read, allowed⟩ := ih later (rights.grant color wing)
    refine ⟨granted, ?_, fun color' wing' => ?_⟩
    · rw [← read, List.cons_append, parseCastlingLetters,
        castlingLetter?_eq_some_iff.2 rfl]
    · rw [allowed, allows_grant, List.mem_cons, or_assoc]

theorem allows_none (color : Color) (wing : Wing) :
    CastlingRights.none.allows color wing = false := by
  cases color <;> cases wing <;> rfl

/-- Among the characters is a first one that stands for no right, or there is none. -/
theorem castling_cases : ∀ letters : List Char, (∀ c ∈ letters, IsRight c) ∨
    ∃ before c after, letters = before ++ c :: after ∧ (∀ b ∈ before, IsRight b) ∧ ¬ IsRight c
  | [] => .inl (by simp)
  | c :: letters => by
    by_cases known : IsRight c
    · rcases castling_cases letters with all | ⟨before, b, after, rfl, start, bad⟩
      · exact .inl (List.forall_mem_cons.2 ⟨known, all⟩)
      · exact .inr ⟨c :: before, b, after, rfl, List.forall_mem_cons.2 ⟨known, start⟩, bad⟩
    · exact .inr ⟨[], c, letters, rfl, by simp, known⟩

theorem parseCastling_decides (text : String) :
    Decides (parseCastling text) (Castling text) (CastlingFault text) := by
  refine .of_cases ?_ ?_ ?_
  · rintro rights (⟨rfl, rfl⟩ | ⟨letters, known, allowed⟩)
    · rfl
    · obtain ⟨granted, read, grants⟩ := parseCastlingLetters_append known .none
      rw [parseCastling, if_neg letters, ← List.append_nil text.toList, read,
        parseCastlingLetters]
      refine congrArg Except.ok (CastlingRights.ext_allows fun color wing => ?_)
      rw [Bool.eq_iff_iff, grants, allowed, allows_none, Bool.false_eq_true, false_or]
  · rintro e ⟨letters, before, c, after, chars, known, bad, rfl⟩
    obtain ⟨granted, read, -⟩ := parseCastlingLetters_append known .none
    have unknown : castlingLetter? c = none := Option.eq_none_iff_forall_ne_some.2
      fun ⟨color, wing⟩ found => bad ⟨color, wing, castlingLetter?_eq_some_iff.1 found⟩
    rw [parseCastling, if_neg letters, chars, read, parseCastlingLetters, unknown]
  · by_cases hyphen : text = "-"
    · exact .inl ⟨.none, .inl ⟨hyphen, rfl⟩⟩
    · rcases castling_cases text.toList with known | ⟨before, c, after, chars, start, bad⟩
      · classical
        refine .inl ⟨.ofPred fun color wing => decide (rightLetter color wing ∈ text.toList),
          .inr ⟨hyphen, known, fun color wing => ?_⟩⟩
        rw [CastlingRights.allows_ofPred, decide_eq_true_eq]
      · exact .inr ⟨_, hyphen, before, c, after, chars, start, bad, rfl⟩

/-! ## The en-passant square -/

theorem name_ne_hyphen (s : Square) : s.name ≠ "-" := by
  intro same
  have chars := congrArg (fun text => text.toList.length) same
  simp [Square.name] at chars

theorem parseEnPassant_decides (text : String) :
    Decides (parseEnPassant text) (EnPassant text)
      (fun e => (∀ target, ¬ EnPassant text target) ∧ e = .squareName text) := by
  refine .of_cases ?_ ?_ ?_
  · rintro target (⟨rfl, rfl⟩ | ⟨s, rfl, rfl⟩)
    · rfl
    · rw [parseEnPassant, if_neg (name_ne_hyphen s), Square.parse,
        Square.ofName?_eq_some_iff.2 rfl]
      rfl
  · rintro e ⟨nothing, rfl⟩
    have hyphen : text ≠ "-" := fun same => nothing none (.inl ⟨same, rfl⟩)
    have unnamed : Square.ofName? text = none := Option.eq_none_iff_forall_ne_some.2
      fun s found => nothing _ (.inr ⟨s, Square.ofName?_eq_some_iff.1 found, rfl⟩)
    rw [parseEnPassant, if_neg hyphen, Square.parse, unnamed]
    rfl
  · by_cases denoted : ∃ target, EnPassant text target
    · exact .inl denoted
    · exact .inr ⟨_, not_exists.1 denoted, rfl⟩

/-! ## The counters -/

theorem foldl_eq_decimal (digits : List Char) :
    digits.foldl (fun n c => 10 * n + (c.toNat - '0'.toNat)) 0 = decimal digits := by
  rw [decimal, Nat.ofDigits_eq_foldr, List.foldr_map, List.foldr_reverse]
  simp only [Nat.cast_id, Nat.add_comm]

/-- A counter's digits, with the sign taken off if there is one. -/
def unsigned (text : String) : List Char :=
  match text.toList with
  | '+' :: rest => rest
  | all => all

theorem number_iff {n : Counter} : Number text n ↔ unsigned text ≠ [] ∧
    (∀ c ∈ unsigned text, c.isDigit = true) ∧ decimal (unsigned text) = n.toNat := by
  constructor
  · rintro ⟨digits, written, some, each, value⟩
    have same : unsigned text = digits := by
      rcases written with plain | signed
      · rw [unsigned, plain]
        split
        · exact absurd (each _ List.mem_cons_self) (by decide)
        · rfl
      · rw [unsigned, signed]
        rfl
    rw [same]
    exact ⟨some, each, value⟩
  · rintro ⟨some, each, value⟩
    refine ⟨unsigned text, ?_, some, each, value⟩
    unfold unsigned
    split
    · next rest signed => exact .inr signed
    · exact .inl rfl

theorem ofText?_eq_some_iff {n : Counter} : Counter.ofText? text = some n ↔ Number text n := by
  have opened : Counter.ofText? text =
      if (unsigned text).isEmpty || !(unsigned text).all Char.isDigit then none
      else if decimal (unsigned text) < 65536 then
        some (UInt16.ofNat (decimal (unsigned text))) else none := by
    rw [← foldl_eq_decimal]
    rfl
  rw [opened, number_iff]
  by_cases digits : unsigned text ≠ [] ∧ ∀ c ∈ unsigned text, c.isDigit = true
  · have passed : ((unsigned text).isEmpty || !(unsigned text).all Char.isDigit) = false := by
      simpa using digits
    rw [passed, if_neg Bool.false_ne_true, ← and_assoc, and_iff_right digits]
    constructor
    · intro found
      split at found
      · next below =>
        cases found
        exact (UInt16.toNat_ofNat_of_lt' below).symm
      · cases found
    · intro value
      rw [value, if_pos n.toNat_lt, UInt16.ofNat_toNat]
  · have refused : ((unsigned text).isEmpty || !(unsigned text).all Char.isDigit) = true := by
      simpa [imp_iff_not_or] using digits
    rw [refused, if_pos rfl, ← and_assoc]
    exact ⟨nofun, fun denoted => absurd denoted.1 digits⟩

theorem parseCounter_decides (text : String) :
    Decides (parseCounter text) (Number text)
      (fun e => (∀ n, ¬ Number text n) ∧ e = .counter text) := by
  refine .of_cases ?_ ?_ ?_
  · intro n denoted
    rw [parseCounter, ofText?_eq_some_iff.2 denoted]
  · rintro e ⟨nothing, rfl⟩
    have unread : Counter.ofText? text = none := Option.eq_none_iff_forall_ne_some.2
      fun n found => nothing n (ofText?_eq_some_iff.1 found)
    rw [parseCounter, unread]
  · by_cases denoted : ∃ n, Number text n
    · exact .inl denoted
    · exact .inr ⟨_, not_exists.1 denoted, rfl⟩

end Fen

end ChessEngine
