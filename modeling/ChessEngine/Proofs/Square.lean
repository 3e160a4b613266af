import ChessEngine.Attack.Step

/-!
# Steps in coordinates

`shift?_eq_some_iff` turns a step on the board into two equations between files
and ranks; what later modules need of pawn steps and passed squares follows from
it by arithmetic.
-/

namespace ChessEngine

namespace Square

theorem eq_of_rank_file {s t : Square} (rank : s.rank = t.rank) (file : s.file = t.file) :
    s = t := by
  rw [← ofRankFile_rank_file s, rank, file, ofRankFile_rank_file]

theorem val_eq (s : Square) : s.val = 8 * s.rank.val + s.file.val := by
  simp only [rank, file]
  omega

theorem ofIndex?_eq_some_iff {n : Nat} {s : Square} : ofIndex? n = some s ↔ n = s.val := by
  unfold ofIndex?
  split
  · rw [Option.some.injEq, Fin.ext_iff]
  · next outside => exact ⟨nofun, fun same => absurd (same ▸ s.isLt) outside⟩

theorem shift?_eq_some_iff {s t : Square} {df dr : Int} :
    s.shift? df dr = some t ↔
      (t.file.val : Int) = s.file.val + df ∧ (t.rank.val : Int) = s.rank.val + dr := by
  unfold shift? ofCoordinates?
  constructor
  · intro shifted
    split at shifted
    · next inside =>
      cases shifted
      rw [file_ofRankFile, rank_ofRankFile]
      exact ⟨Int.toNat_of_nonneg inside.1.1, Int.toNat_of_nonneg inside.2.1⟩
    · cases shifted
  · rintro ⟨file, rank⟩
    have fileLt := t.file.isLt
    have rankLt := t.rank.isLt
    rw [dif_pos ⟨⟨by omega, by omega⟩, by omega, by omega⟩, Option.some.injEq]
    refine eq_of_rank_file (Fin.ext ?_) (Fin.ext ?_)
    · rw [rank_ofRankFile]
      exact (congrArg Int.toNat rank).symm
    · rw [file_ofRankFile]
      exact (congrArg Int.toNat file).symm

/-- A step along a file, in square numbers. -/
theorem shift?_zero_eq_some_iff {s t : Square} {dr : Int} :
    s.shift? 0 dr = some t ↔ (t.val : Int) = s.val + 8 * dr := by
  have start := s.val_eq
  have target := t.val_eq
  have fileStart := s.file.isLt
  have fileTarget := t.file.isLt
  rw [shift?_eq_some_iff]
  omega

/-- Two equal steps along a file are one of twice the length. -/
theorem shift?_twice {s q t : Square} {dr : Int} (first : s.shift? 0 dr = some q) :
    s.shift? 0 (2 * dr) = some t ↔ q.shift? 0 dr = some t := by
  rw [shift?_eq_some_iff] at first ⊢
  rw [shift?_eq_some_iff]
  omega

/-- A step along a file stays on the board as long as its rank does. -/
theorem exists_shift? {s : Square} {dr : Int} (low : 0 ≤ s.rank.val + dr)
    (high : s.rank.val + dr < 8) : ∃ t, s.shift? 0 dr = some t := by
  refine ⟨ofRankFile ⟨(s.rank.val + dr).toNat, by omega⟩ s.file, shift?_eq_some_iff.2 ⟨?_, ?_⟩⟩
  · rw [file_ofRankFile, Int.add_zero]
  · rw [rank_ofRankFile]
    exact Int.toNat_of_nonneg low

end Square

theorem Step.forward_opposite (c : Color) : Step.forward c.opposite = -Step.forward c := by
  cases c <;> rfl

/-- A pawn's capture goes one rank ahead. -/
theorem rank_of_mem_pawnAttacks {c : Color} {s t : Square} (attacked : t ∈ pawnAttacks c s) :
    (t.rank.val : Int) = s.rank.val + Step.forward c := by
  obtain ⟨step, listed, shifted⟩ := mem_pawnAttacks.1 attacked
  have rank := (Square.shift?_eq_some_iff.1 shifted).2
  simp only [Step.pawn, List.mem_cons, List.not_mem_nil, or_false] at listed
  rcases listed with rfl | rfl <;> exact rank

end ChessEngine
