import ChessEngine.Proofs.Search.Score
import ChessEngine.Search.Scan
import Mathlib.Algebra.BigOperators.Fin
import Mathlib.Algebra.BigOperators.Ring.Finset

/-!
# The tables say what the board says

`PawnWeights.score` reads material, pawn counts and pawn control off the tables of
a position; `PawnWeights.scannedScore` looks at every square.  Where the tables
agree with the index both come to the same.  A penalty that the tables give by
files is a sum over the squares of each file, and the control of a square counts
the same pairs of a pawn and a centre square as the attacks of the pawns do.
-/

namespace ChessEngine

open Finset

/-! ## Totals as sums -/

theorem Square.foldl_all_eq_sum (f : Square → Int) :
    Square.all.foldl (fun total s => total + f s) 0 = ∑ s, f s := by
  rw [foldl_add_eq_sum]
  exact (Fin.sum_univ_def f).symm

theorem Square.countP_all_eq_card (f : Square → Bool) :
    Square.all.countP f = #{s | f s = true} := by
  rw [List.countP_eq_length_filter, ← List.toFinset_card_of_nodup (Square.nodup_all.filter _)]
  congr 1
  ext s
  simp [Square.mem_all]

theorem foldl_range_eq_sum (n : Nat) (f : Nat → Int) :
    (List.range n).foldl (fun total i => total + f i) 0 = ∑ i : Fin n, f i := by
  rw [foldl_add_eq_sum]
  exact sum_range f

/-- All members but the least have one below them. -/
theorem card_filter_exists_lt (l : Finset Square) : #{s ∈ l | ∃ t ∈ l, t < s} = #l - 1 := by
  rcases l.eq_empty_or_nonempty with rfl | nonempty
  · rfl
  · have others : {s ∈ l | ∃ t ∈ l, t < s} = l.erase (l.min' nonempty) := by
      ext s
      rw [mem_filter, mem_erase, and_comm]
      refine and_congr_left fun member => ⟨?_, fun other => ?_⟩
      · rintro ⟨t, listed, below⟩ rfl
        exact absurd (l.min'_le t listed) (not_le.2 below)
      · exact ⟨_, l.min'_mem nonempty, lt_of_le_of_ne (l.min'_le s member) other.symm⟩
    rw [others, card_erase_of_mem (l.min'_mem nonempty)]

namespace Position

/-- The squares of a side's pawns on the file with number `n`. -/
def pawnsOn (p : Position) (c : Color) (n : Nat) : Finset Square :=
  {s | p.hasPawn c s = true ∧ s.file.val = n}

/-- The number of a side's pawns on the files beside the one with number `n`. -/
def pawnsBeside (p : Position) (c : Color) (n : Nat) : Nat :=
  #(p.pawnsOn c (n + 1)) + if n = 0 then 0 else #(p.pawnsOn c (n - 1))

variable {p : Position} {c : Color} {s t : Square} {n : Nat}

theorem mem_pawnsOn : s ∈ p.pawnsOn c n ↔ p.hasPawn c s = true ∧ s.file.val = n := by
  rw [pawnsOn, mem_filter_univ]

theorem isDoubled_iff : p.isDoubled c s = true ↔
    s ∈ p.pawnsOn c s.file ∧ ∃ t ∈ p.pawnsOn c s.file, t < s := by
  simp [isDoubled, mem_pawnsOn, Square.mem_all, Fin.ext_iff, and_assoc]

theorem pawnsBeside_eq_zero_iff : p.pawnsBeside c n = 0 ↔
    ∀ t, p.hasPawn c t = true → t.file.val + 1 ≠ n ∧ t.file.val ≠ n + 1 := by
  have none : ∀ n, #(p.pawnsOn c n) = 0 ↔ ∀ t, p.hasPawn c t = true → t.file.val ≠ n := fun n => by
    simp [pawnsOn, filter_eq_empty_iff]
  rw [pawnsBeside, Nat.add_eq_zero_iff, none]
  split
  · next first =>
    subst first
    simp
  · next later =>
    rw [none, ← forall_and]
    refine forall_congr' fun t => ?_
    rw [← imp_and]
    refine imp_congr_right fun _ => ?_
    omega

theorem isIsolated_iff : p.isIsolated c s = true ↔
    s ∈ p.pawnsOn c s.file ∧ p.pawnsBeside c s.file = 0 := by
  rw [pawnsBeside_eq_zero_iff]
  simp [isIsolated, mem_pawnsOn, Square.mem_all]

theorem material_eq_sum (tallied : p.placement.Tallied) (c : Color) :
    p.material c = ∑ s, p.scannedValue c s :=
  (tallied.material c).trans (Square.foldl_all_eq_sum _)

end Position

namespace PawnWeights

variable {p : Position} {c : Color} {n : Nat}

theorem countOn_eq_card (tallied : p.placement.Tallied) (n : Nat) :
    countOn (p.placement.pawnsOnFile.get c) n = #(p.pawnsOn c n) := by
  by_cases inside : n < 8
  · rw [countOn_of_lt inside, tallied.onFile, Placement.countedOnFile, Square.countP_all_eq_card]
    congr 1
    ext s
    simp [Position.mem_pawnsOn, Position.hasPawn, Placement.holds, Fin.ext_iff, Position.pieceOn]
  · rw [countOn_of_le (Nat.le_of_not_lt inside), eq_comm, card_eq_zero, Position.pawnsOn,
      filter_eq_empty_iff]
    rintro s - ⟨-, rfl⟩
    exact inside s.file.isLt

/-! ## Penalties -/

/-- A penalty for the squares of a file that `P` picks out is due once for each of them. -/
theorem sum_penalty {f : Fin 8} {P : Square → Bool} {picked : Finset Square}
    (mem_iff : ∀ s, s ∈ picked ↔ s.file = f ∧ P s = true) (penalty : Int) :
    (∑ s with s.file = f, if P s = true then penalty else 0) = picked.card * penalty := by
  have same : picked = (univ.filter fun s : Square => s.file = f).filter (P · = true) := by
    ext s
    rw [mem_iff, mem_filter, mem_filter_univ]
  rw [same, ← sum_filter, sum_const, nsmul_eq_mul]

theorem sum_isDoubled (p : Position) (c : Color) (f : Fin 8) (penalty : Int) :
    (∑ s with s.file = f, if p.isDoubled c s = true then penalty else 0) =
      (#(p.pawnsOn c f) - 1 : Nat) * penalty := by
  rw [← card_filter_exists_lt]
  refine sum_penalty (fun s => ?_) penalty
  rw [mem_filter, Position.isDoubled_iff]
  constructor
  · rintro ⟨pawn, lower⟩
    cases Fin.ext (Position.mem_pawnsOn.1 pawn).2
    exact ⟨rfl, pawn, lower⟩
  · rintro ⟨rfl, pawns⟩
    exact pawns

theorem sum_isIsolated (p : Position) (c : Color) (f : Fin 8) (penalty : Int) :
    (∑ s with s.file = f, if p.isIsolated c s = true then penalty else 0) =
      if p.pawnsBeside c f = 0 then #(p.pawnsOn c f) * penalty else 0 := by
  have isolated : ∀ s, s ∈ {s ∈ p.pawnsOn c f | p.pawnsBeside c f = 0} ↔
      s.file = f ∧ p.isIsolated c s = true := fun s => by
    rw [mem_filter, Position.isIsolated_iff]
    constructor
    · rintro ⟨pawn, alone⟩
      cases Fin.ext (Position.mem_pawnsOn.1 pawn).2
      exact ⟨rfl, pawn, alone⟩
    · rintro ⟨rfl, pawns⟩
      exact pawns
  rw [sum_penalty isolated, filter_const]
  split
  · rfl
  · simp

theorem filePenalty_eq_sum (tallied : p.placement.Tallied) (w : PawnWeights) (c : Color)
    (f : Fin 8) : w.filePenalty (p.placement.pawnsOnFile.get c) f =
      ∑ s with s.file = f, ((if p.isDoubled c s = true then w.doubled else 0) +
        if p.isIsolated c s = true then w.isolated else 0) := by
  rw [sum_add_distrib, sum_isDoubled, sum_isIsolated]
  simp only [filePenalty, countOn_eq_card tallied, Position.pawnsBeside]
  rfl

/-! ## Control of the centre -/

theorem control_eq_sum (tallied : p.placement.Tallied) (c : Color) (t : Square) :
    p.pawnControl c t = ∑ s, if p.hasPawn c s = true ∧ t ∈ pawnAttacks c s then 1 else 0 := by
  rw [Position.pawnControl, tallied.control, Placement.countedControl, Square.countP_all_eq_card,
    card_filter]
  simp only [Bool.and_eq_true, ← Bitboard.mem_def]
  rfl

/-- Attacks counted by their origin and by their target. -/
theorem sum_attacks (tallied : p.placement.Tallied) (c : Color) (targets : List Square) :
    (∑ s, if p.hasPawn c s = true then targets.countP (fun t => decide (t ∈ pawnAttacks c s))
      else 0) = (targets.map (p.pawnControl c)).sum := by
  induction targets with
  | nil => simp
  | cons t rest ih =>
    rw [List.map_cons, List.sum_cons, ← ih, control_eq_sum tallied, ← sum_add_distrib]
    refine sum_congr rfl fun s _ => ?_
    by_cases pawn : p.hasPawn c s = true
    · simp [pawn, List.countP_cons, Nat.add_comm]
    · simp [pawn]

/-! ## Both scores -/

theorem scannedTotal_eq (tallied : p.placement.Tallied) (w : PawnWeights) (c : Color) :
    w.scannedTotal p c = p.material c + w.terms p c := by
  have penalties : (∑ s, ((if p.isDoubled c s = true then w.doubled else 0) +
        if p.isIsolated c s = true then w.isolated else 0)) =
      ∑ f : Fin 8, w.filePenalty (p.placement.pawnsOnFile.get c) f := by
    simp only [filePenalty_eq_sum tallied]
    exact (sum_fiberwise univ Square.file _).symm
  have attacks : (∑ s, (p.centreAttacks c s : Int)) =
      (centreSquares.map fun t => (p.pawnControl c t : Int)).sum := by
    rw [← Nat.cast_sum]
    exact congrArg Nat.cast (sum_attacks tallied c centreSquares)
  have centre : centreSquares.foldl
      (fun score s => score + (p.pawnControl c s * w.centre : Int)) 0 =
        (∑ s, (p.centreAttacks c s : Int)) * w.centre := by
    rw [foldl_add_eq_sum, List.sum_map_mul_right, attacks]
  have total : w.scannedTotal p c = ∑ s, w.scannedTerm p c s := Square.foldl_all_eq_sum _
  rw [total, terms, foldl_range_eq_sum, centre, ← penalties, Position.material_eq_sum tallied,
    sum_mul, ← sum_sub_distrib, ← sum_add_distrib]
  refine sum_congr rfl fun s _ => ?_
  rw [scannedTerm]
  omega

theorem score_eq_scannedScore (tallied : p.placement.Tallied) (w : PawnWeights) :
    w.score p = w.scannedScore p := by
  unfold score scannedScore Position.fromSide Position.materialBalance
  simp only [scannedTotal_eq tallied]
  cases p.side with
  | white => dsimp only; omega
  | black => dsimp only; omega

end PawnWeights

end ChessEngine
