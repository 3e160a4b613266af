/-!
# Squares

The sixty-four squares are numbered rank by rank, `a1 = 0`, `h1 = 7`, `a8 = 56`,
`h8 = 63`.  `Square.ofCoordinates?` is the only place where a step can leave the
board: it answers `none` there, so no later definition needs edge checks of its
own.
-/

namespace ChessEngine

@[simp] theorem get_ofFn {α : Type} {n : Nat} (f : Fin n → α) (i : Fin n) :
    (Vector.ofFn f).get i = f i :=
  Vector.getElem_ofFn i.isLt

@[simp] theorem get_replicate {α : Type} {n : Nat} (a : α) (i : Fin n) :
    (Vector.replicate n a).get i = a :=
  Vector.getElem_replicate i.isLt

/-- A square of the board. -/
abbrev Square := Fin 64

namespace Square

/-- Squares can be written as numerals. -/
instance (priority := high) neZeroCount : @NeZero Nat Zero.ofOfNat0 64 := ⟨by decide⟩

/-- Ranks and files can be written as numerals. -/
instance (priority := high) neZeroWidth : @NeZero Nat Zero.ofOfNat0 8 := ⟨by decide⟩

/-- The rank of a square, `0` for the first. -/
def rank (s : Square) : Fin 8 := ⟨s.val / 8, by omega⟩

/-- The file of a square, `0` for the a-file. -/
def file (s : Square) : Fin 8 := ⟨s.val % 8, by omega⟩

/-- The square on the given rank and file. -/
def ofRankFile (rank file : Fin 8) : Square := ⟨8 * rank.val + file.val, by omega⟩

/-- All squares in ascending order. -/
def all : List Square := List.finRange 64

/-- The square with the given file and rank, if there is one. -/
def ofCoordinates? (file rank : Int) : Option Square :=
  if h : (0 ≤ file ∧ file < 8) ∧ (0 ≤ rank ∧ rank < 8) then
    some (ofRankFile ⟨rank.toNat, by omega⟩ ⟨file.toNat, by omega⟩)
  else none

/-- The square `df` files to the right and `dr` ranks up, if it is on the board. -/
def shift? (s : Square) (df dr : Int) : Option Square :=
  ofCoordinates? (s.file.val + df) (s.rank.val + dr)

/-- The square with the given number. -/
def ofIndex? (n : Nat) : Option Square :=
  if h : n < 64 then some ⟨n, h⟩ else none

/-- The name of a square, such as `e4`. -/
def name (s : Square) : String :=
  String.ofList [Char.ofNat ('a'.toNat + s.file.val), Char.ofNat ('1'.toNat + s.rank.val)]

/-- Reads one of the eight characters from `start` on as its offset from `start`. -/
def coordinate? (start c : Char) : Option (Fin 8) :=
  if h : start.toNat ≤ c.toNat ∧ c.toNat < start.toNat + 8 then
    some ⟨c.toNat - start.toNat, by omega⟩
  else none

/-- Reads a file letter and a rank digit as a square. -/
def ofChars? (fileChar rankChar : Char) : Option Square :=
  match coordinate? 'a' fileChar, coordinate? '1' rankChar with
  | some f, some r => some (ofRankFile r f)
  | _, _ => none

/-- The square with the given name. -/
def ofName? (text : String) : Option Square :=
  match text.toList with
  | [f, r] => ofChars? f r
  | _ => none

@[simp] theorem ofRankFile_rank_file (s : Square) : ofRankFile s.rank s.file = s := by
  apply Fin.ext
  simp only [ofRankFile, rank, file]
  omega

@[simp] theorem rank_ofRankFile (r f : Fin 8) : (ofRankFile r f).rank = r := by
  apply Fin.ext
  simp only [ofRankFile, rank]
  omega

@[simp] theorem file_ofRankFile (r f : Fin 8) : (ofRankFile r f).file = f := by
  apply Fin.ext
  simp only [ofRankFile, file]
  omega

end Square

end ChessEngine
