import ChessEngine.Proofs.Search.Score
import ChessEngine.Search.Checked
import Mathlib.Algebra.Order.Ring.Abs
import Mathlib.Tactic.Ring

/-!
# Scores stay within their words

A file holds at most eight pawns of a side, a square is attacked by at most as many
as there are squares, and no piece is worth more than a king.  With weights of at
most a million no step of a score can therefore leave a word of 32 bits: every
checked step comes to the unchecked one (`PawnWeights.checkedScore_eq_some`).
-/

namespace ChessEngine

variable {n : Int}

theorem fit?_of_bounds (low : -2147483648 ≤ n) (high : n ≤ 2147483647) : fit? n = some n :=
  if_pos ⟨low, high⟩

theorem fit?_of_abs_le (small : |n| ≤ 2147483647) : fit? n = some n := by
  have bounds := abs_le.1 small
  exact fit?_of_bounds (by omega) bounds.2

section Fold

variable {α : Type} {l : List α} {f : α → Int} {step limit : Int}

/-- Additions that are carried out while the total is within the limit come to the sum, if the
total stays within the limit whatever is added. -/
theorem foldlM_eq_some_sum {checked : Int → α → Option Int} {start : Int}
    (added : ∀ a ∈ l, ∀ total, |total| ≤ limit → checked total a = some (total + f a))
    (small : ∀ a ∈ l, |f a| ≤ step) (nonneg : 0 ≤ step)
    (enough : |start| + l.length * step ≤ limit) :
    l.foldlM checked start = some (start + (l.map f).sum) := by
  induction l generalizing start with
  | nil => simp
  | cons a rest ih =>
    rw [List.forall_mem_cons] at added small
    rw [List.length_cons, Nat.cast_add, Nat.cast_one, add_mul, one_mul] at enough
    have further : 0 ≤ (rest.length : Int) * step := mul_nonneg (Int.natCast_nonneg _) nonneg
    have next : |start + f a| ≤ |start| + step :=
      (abs_add_le start (f a)).trans (Int.add_le_add_left small.1 _)
    rw [List.foldlM_cons, added.1 start (by omega), List.map_cons, List.sum_cons, ← add_assoc]
    exact ih added.2 small.2 (by omega)

theorem abs_sum_map_le (small : ∀ a ∈ l, |f a| ≤ step) : |(l.map f).sum| ≤ l.length * step := by
  have bounds := foldl_add_bounds fun a member => abs_le.1 (small a member)
  rw [foldl_add_eq_sum] at bounds
  rw [abs_le, ← mul_neg]
  exact bounds

end Fold

/-! ## What a board can hold -/

namespace Placement.Tallied

variable {p : Placement} (tallied : p.Tallied) (c : Color)

include tallied in
theorem onFile_le_eight (f : Fin 8) : (p.pawnsOnFile.get c).get f ≤ 8 := by
  have inside : Square.all.countP (fun s => s.file == f) = 8 := by
    revert f
    decide
  rw [tallied.onFile, ← inside]
  exact List.countP_mono_left fun s _ counted => (Bool.and_eq_true .. ▸ counted).2

include tallied in
theorem control_le_sixtyFour (t : Square) : (p.pawnControl.get c).get t ≤ 64 := by
  rw [tallied.control]
  exact List.countP_le_length.trans_eq (List.length_finRange)

include tallied in
theorem abs_material_le : |p.material.get c| ≤ 1280000 := by
  have worth : ∀ s ∈ Square.all, |p.valueOn c s| ≤ 20000 := fun s _ => by
    unfold valueOn
    split
    · next piece _ =>
      rcases piece with ⟨d, k⟩
      cases c <;> cases d <;> cases k <;> decide
    · decide
  have most := abs_sum_map_le worth
  rw [Square.all, List.length_finRange] at most
  rw [tallied.material, countedMaterial, foldl_add_eq_sum]
  exact most

end Placement.Tallied

namespace PawnWeights

/-- No weight is more than `bound`, whatever its sign. -/
structure Within (w : PawnWeights) (bound : Int) : Prop where
  doubled : |w.doubled| ≤ bound
  isolated : |w.isolated| ≤ bound
  centre : |w.centre| ≤ bound

variable {w : PawnWeights} {p : Position} {files : Vector Nat 8} {score weight : Int}
  {count most : Nat}

theorem abs_count_mul_le (few : count ≤ most) (small : |weight| ≤ 1000000) :
    |(count : Int) * weight| ≤ most * 1000000 := by
  rw [abs_mul, Nat.abs_cast]
  exact mul_le_mul (Int.ofNat_le.2 few) small (abs_nonneg _) (Int.natCast_nonneg _)

/-! ## The pawns of a side -/

theorem takeOff_eq_some (room : |score| ≤ 2000000000) (few : count ≤ 8)
    (small : |weight| ≤ 1000000) : takeOff score count weight = some (score - count * weight) := by
  have penalty : |(count : Int) * weight| ≤ 8000000 := abs_count_mul_le few small
  have left := abs_sub score (count * weight)
  rw [takeOff, fit?_of_abs_le (by omega), Option.bind_eq_bind, Option.bind_some,
    fit?_of_abs_le (by omega)]

theorem abs_filePenalty_le (few : ∀ f : Fin 8, files.get f ≤ 8) (within : w.Within 1000000)
    (f : Nat) : |w.filePenalty files f| ≤ 16000000 := by
  have count := countOn_le few f
  have doubled : |((countOn files f - 1 : Nat) : Int) * w.doubled| ≤ 8000000 :=
    abs_count_mul_le (show _ ≤ 8 by omega) within.doubled
  have isolated : |(countOn files f : Int) * w.isolated| ≤ 8000000 :=
    abs_count_mul_le count within.isolated
  simp only [filePenalty]
  generalize countOn files (f + 1) + _ = neighbours
  split
  · exact (abs_add_le _ _).trans (by omega)
  · rw [add_zero]
    omega

theorem checkedFile_eq_some (few : ∀ f : Fin 8, files.get f ≤ 8) (within : w.Within 1000000)
    (room : |score| ≤ 1900000000) (f : Nat) :
    w.checkedFile files score f = some (score + -w.filePenalty files f) := by
  have count := countOn_le few f
  have doubled : |((countOn files f - 1 : Nat) : Int) * w.doubled| ≤ 8000000 :=
    abs_count_mul_le (show _ ≤ 8 by omega) within.doubled
  have left := abs_sub score ((countOn files f - 1 : Nat) * w.doubled)
  -- A file without pawns, and one with a single pawn, have nothing to take off for doubling.
  have first : (if 1 < countOn files f then takeOff score (countOn files f - 1) w.doubled
      else some score) = some (score - (countOn files f - 1 : Nat) * w.doubled) := by
    split
    · exact takeOff_eq_some (by omega) (by omega) within.doubled
    · next single =>
      rw [Nat.sub_eq_zero_of_le (Nat.not_lt.1 single), Nat.cast_zero, zero_mul, sub_zero]
  have second := takeOff_eq_some (left.trans (by omega)) count within.isolated
  simp only [checkedFile, filePenalty]
  generalize countOn files (f + 1) + _ = neighbours
  split
  · next empty => simp [empty]
  · rw [first, Option.bind_eq_bind, Option.bind_some]
    split
    · rw [second]
      exact congrArg some (by ring)
    · exact congrArg some (by ring)

theorem checkedCentre_eq_some {c : Color} {s : Square} (few : p.pawnControl c s ≤ 64)
    (within : w.Within 1000000) (room : |score| ≤ 1900000000) :
    w.checkedCentre p c score s = some (score + p.pawnControl c s * w.centre) := by
  have bonus : |(p.pawnControl c s : Int) * w.centre| ≤ 64000000 :=
    abs_count_mul_le few within.centre
  have total := abs_add_le score (p.pawnControl c s * w.centre)
  rw [checkedCentre, fit?_of_abs_le (by omega), Option.bind_eq_bind, Option.bind_some,
    fit?_of_abs_le (by omega)]

/-! ## Whole scores -/

theorem terms_eq_sum (w : PawnWeights) (p : Position) (c : Color) : w.terms p c =
    ((List.range 8).map fun f => -w.filePenalty (p.placement.pawnsOnFile.get c) f).sum +
      (centreSquares.map fun s => (p.pawnControl c s * w.centre : Int)).sum := by
  have penalties := List.sum_neg
    ((List.range 8).map (w.filePenalty (p.placement.pawnsOnFile.get c)))
  rw [List.map_map] at penalties
  rw [terms, foldl_add_eq_sum, foldl_add_eq_sum, Int.sub_eq_add_neg, penalties, Int.add_comm]
  rfl

section

variable {c : Color} (within : w.Within 1000000)
  (few : ∀ f : Fin 8, (p.placement.pawnsOnFile.get c).get f ≤ 8)
  (control : ∀ s, p.pawnControl c s ≤ 64)

include within few in
theorem foldlM_checkedFile :
    (List.range 8).foldlM (w.checkedFile (p.placement.pawnsOnFile.get c)) 0 =
        some ((List.range 8).map fun f => -w.filePenalty (p.placement.pawnsOnFile.get c) f).sum ∧
      |((List.range 8).map fun f => -w.filePenalty (p.placement.pawnsOnFile.get c) f).sum| ≤
        128000000 := by
  have penalty : ∀ f ∈ List.range 8,
      |-w.filePenalty (p.placement.pawnsOnFile.get c) f| ≤ 16000000 := fun f _ => by
    rw [abs_neg]
    exact abs_filePenalty_le few within f
  have most := abs_sum_map_le penalty
  rw [List.length_range] at most
  refine ⟨?_, by omega⟩
  rw [← zero_add (List.sum _)]
  refine foldlM_eq_some_sum (fun f _ score room => checkedFile_eq_some few within room f)
    penalty (by omega) ?_
  rw [List.length_range, abs_zero]
  omega

include within control in
theorem foldlM_checkedCentre (room : |score| ≤ 128000000) :
    centreSquares.foldlM (w.checkedCentre p c) score =
        some (score + (centreSquares.map fun s => (p.pawnControl c s * w.centre : Int)).sum) ∧
      |(centreSquares.map fun s => (p.pawnControl c s * w.centre : Int)).sum| ≤ 256000000 := by
  have bonus : ∀ s ∈ centreSquares, |(p.pawnControl c s : Int) * w.centre| ≤ 64000000 :=
    fun s _ => abs_count_mul_le (control s) within.centre
  have squares : centreSquares.length = 4 := rfl
  have most := abs_sum_map_le bonus
  rw [squares] at most
  refine ⟨foldlM_eq_some_sum (fun s _ score room => checkedCentre_eq_some (control s) within room)
    bonus (by omega) ?_, by omega⟩
  rw [squares]
  omega

include within few control in
theorem checkedTerms_eq_some :
    w.checkedTerms p c = some (w.terms p c) ∧ |w.terms p c| ≤ 400000000 := by
  obtain ⟨files, penalties⟩ := foldlM_checkedFile within few
  obtain ⟨squares, centre⟩ := foldlM_checkedCentre within control penalties
  rw [checkedTerms, files, Option.bind_eq_bind, Option.bind_some, squares, terms_eq_sum]
  exact ⟨rfl, (abs_add_le _ _).trans (by omega)⟩

end

/-- Checking a score changes nothing. -/
theorem checkedScore_eq_some (tallied : p.placement.Tallied) (within : w.Within 1000000) :
    w.checkedScore p = some (w.score p) := by
  have white : |p.material .white| ≤ 1280000 := tallied.abs_material_le .white
  have black : |p.material .black| ≤ 1280000 := tallied.abs_material_le .black
  have balance := abs_sub (p.material .white) (p.material .black)
  obtain ⟨whiteTerms, whiteMost⟩ := checkedTerms_eq_some within
    (tallied.onFile_le_eight .white) (tallied.control_le_sixtyFour .white)
  obtain ⟨blackTerms, blackMost⟩ := checkedTerms_eq_some within
    (tallied.onFile_le_eight .black) (tallied.control_le_sixtyFour .black)
  have pawns := abs_sub (w.terms p .white) (w.terms p .black)
  have total := abs_add_le (p.material .white - p.material .black)
    (w.terms p .white - w.terms p .black)
  simp only [checkedScore, whiteTerms, blackTerms, Option.bind_eq_bind, Option.bind_some]
  rw [fit?_of_abs_le (by omega), Option.bind_some, fit?_of_abs_le (by omega), Option.bind_some,
    fit?_of_abs_le (by omega), Option.bind_some, score, Position.fromSide,
    Position.materialBalance]
  cases p.side with
  | white => rfl
  | black =>
    refine fit?_of_abs_le ?_
    rw [abs_neg]
    omega

end PawnWeights

end ChessEngine
