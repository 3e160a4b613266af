import ChessEngine.Fen
import ChessEngine.Proofs.Position.Weight
import ChessEngine.Search.Ordering
import ChessEngine.Search.Score

/-!
# How far static scores can go

Scores of mates start at `mateScore - maxPly`, so no static score may come near
it.  On a board with at most eight pawns a side, the structure of the pawns is
worth little (`PawnWeights.terms_bounds`).  Material is the other part: from the
initial position no side can have more than its pieces and eight more queens,
and no side is without its king, whose value both sides therefore have in common.
-/

namespace ChessEngine

/-! ## The structure of the pawns -/

theorem foldl_add_bounds {α : Type} {f : α → Int} {l : List α} {low high : Int}
    (bounds : ∀ a ∈ l, low ≤ f a ∧ f a ≤ high) :
    l.length * low ≤ l.foldl (fun total a => total + f a) 0 ∧
      l.foldl (fun total a => total + f a) 0 ≤ l.length * high := by
  have above := List.card_nsmul_le_sum (l.map f) low (List.forall_mem_map.2 fun a member =>
    (bounds a member).1)
  have below := List.sum_le_card_nsmul (l.map f) high (List.forall_mem_map.2 fun a member =>
    (bounds a member).2)
  rw [List.length_map, nsmul_eq_mul] at above below
  rw [foldl_add_eq_sum]
  exact ⟨above, below⟩

namespace PawnWeights

variable {files : Vector Nat 8}

theorem countOn_of_lt {f : Nat} (inside : f < 8) : countOn files f = files.get ⟨f, inside⟩ := by
  rw [countOn, Vector.getElem?_eq_getElem inside]
  rfl

theorem countOn_of_le {f : Nat} (beside : 8 ≤ f) : countOn files f = 0 := by
  rw [countOn, Vector.getElem?_eq_none beside]
  rfl

theorem countOn_le {n : Nat} (few : ∀ f : Fin 8, files.get f ≤ n) (f : Nat) :
    countOn files f ≤ n := by
  by_cases inside : f < 8
  · rw [countOn_of_lt inside]
    exact few ⟨f, inside⟩
  · rw [countOn_of_le (Nat.le_of_not_lt inside)]
    exact Nat.zero_le n

theorem filePenalty_bounds (few : ∀ f : Fin 8, files.get f ≤ 8) (f : Nat) :
    0 ≤ standard.filePenalty files f ∧ standard.filePenalty files f ≤ 204 := by
  have count := countOn_le few f
  simp only [filePenalty, standard]
  split <;> omega

/-- At most eight pawns of a side are worth between these bounds. -/
theorem terms_bounds {p : Position} {c : Color}
    (onFile : ∀ f : Fin 8, (p.placement.pawnsOnFile.get c).get f ≤ 8)
    (control : ∀ s, p.pawnControl c s ≤ 8) :
    -1632 ≤ standard.terms p c ∧ standard.terms p c ≤ 192 := by
  have penalty : ∀ f ∈ List.range 8, _ := fun f _ => filePenalty_bounds onFile f
  have bonus : ∀ s ∈ centreSquares, 0 ≤ (p.pawnControl c s * standard.centre : Int) ∧
      (p.pawnControl c s * standard.centre : Int) ≤ 48 := by
    intro s _
    have few := control s
    simp only [standard]
    omega
  have penalties := foldl_add_bounds penalty
  have centre := foldl_add_bounds bonus
  have squares : centreSquares.length = 4 := rfl
  rw [List.length_range] at penalties
  rw [squares] at centre
  simp only [terms]
  omega

end PawnWeights

/-! ## Games from the initial position -/

namespace Position

theorem ofFen_initial : ofFen Fen.initial = .ok initial := by
  have accepted : (ofFen Fen.initial).toOption.isSome = true := by decide +kernel
  unfold initial
  split
  · assumption
  · next failed =>
    rw [failed] at accepted
    cases accepted

theorem grounded_initial : initial.Grounded ∧ initial.history = .empty :=
  grounded_of_fen ofFen_initial

theorem inCheck_initial : initial.inCheck initial.side.opposite = false := by decide +kernel

theorem hasKing_initial (c : Color) : initial.HasKing c := by
  cases c with
  | white => exact ⟨4, by decide +kernel⟩
  | black => exact ⟨60, by decide +kernel⟩

theorem total_initial (c : Color) : (Weight.material c).total initial.pieceOn = 30400 ∧
    (Weight.pawns c).total initial.pieceOn = 8 := by
  cases c <;> decide +kernel

section

variable {p : Position}

theorem Follows.material_bounds (follows : Follows initial p) (c : Color) :
    20000 ≤ p.material c ∧ p.material c ≤ 30400 := by
  have grounded := grounded_initial.1
  have tallied := (follows.grounded grounded).firm.consistent.tallied
  obtain ⟨s, king⟩ := ((follows.calm grounded inCheck_initial).kings c).2 (hasKing_initial c)
  have worth := follows.total_le grounded (Weight.material c)
  rw [(total_initial c).1] at worth
  exact ⟨tallied.le_material king, (tallied.material_le c).trans worth⟩

theorem Follows.terms_bounds (follows : Follows initial p) (c : Color) :
    -1632 ≤ PawnWeights.standard.terms p c ∧ PawnWeights.standard.terms p c ≤ 192 := by
  have tallied := (follows.grounded grounded_initial.1).firm.consistent.tallied
  have few := follows.total_le grounded_initial.1 (Weight.pawns c)
  rw [(total_initial c).2] at few
  apply PawnWeights.terms_bounds
  · intro f
    have counted : _ ≤ (Weight.pawns c).total p.pieceOn := tallied.onFile_le c f
    omega
  · intro s
    have counted : (p.pawnControl c s : Int) ≤ (Weight.pawns c).total p.pieceOn :=
      tallied.control_le c s
    omega

theorem abs_fromSide (p : Position) (score : Int) : |p.fromSide score| = |score| := by
  unfold fromSide
  split
  · rfl
  · exact abs_neg score

end

/-- In a game from the initial position, of any length, the static scores stay clear of the scores
of mates. -/
theorem score_of_played {p : Position} {moves : List Move} (played : Played initial moves p) :
    |p.materialScore| < mateScore - maxPly ∧
      |PawnWeights.standard.score p| < mateScore - maxPly := by
  obtain ⟨grounded, unplayed⟩ := grounded_initial
  have follows := played.reaches.follows grounded unplayed
  have white := follows.material_bounds .white
  have black := follows.material_bounds .black
  have whitePawns := follows.terms_bounds .white
  have blackPawns := follows.terms_bounds .black
  rw [materialScore, PawnWeights.score, abs_fromSide, abs_fromSide, abs_lt, abs_lt,
    materialBalance]
  simp only [mateScore, maxPly]
  omega

end Position

namespace Opening

/-- 1. e4 d5 2. exd5 -/
def moves : List Move :=
  [⟨12, 28, none, none, { MoveFlags.none with doublePush := true }⟩,
    ⟨51, 35, none, none, { MoveFlags.none with doublePush := true }⟩,
    ⟨28, 35, some ⟨.black, .pawn⟩, none, { MoveFlags.none with capture := true }⟩]

def last : Position := (Position.initial.follow? moves).get (by decide +kernel)

theorem played : Position.Played .initial moves last :=
  Position.played_of_follow? (Option.some_get _).symm

end Opening

namespace Position

theorem score_of_opening : Opening.last.materialScore = -100 ∧
    |Opening.last.materialScore| < mateScore - maxPly ∧
    |PawnWeights.standard.score Opening.last| < mateScore - maxPly :=
  ⟨by decide +kernel, score_of_played Opening.played⟩

end Position

end ChessEngine
