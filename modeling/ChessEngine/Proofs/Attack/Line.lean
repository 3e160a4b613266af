import ChessEngine.Proofs.Square
import ChessEngine.Rules.Movement
import Mathlib.Logic.Basic

/-!
# What a slider sees

There are two ways to tell whether a slider attacks a square.  The generator
follows rays up to the first occupied square; the oracle asks whether the square
is within reach on an empty board and whether the line between is clear, which it
tells by the numbers of ranks, files and squares.  Both come down to `Step.Sees`:
repeating a step leads to the square, and every square passed on the way is free.

`mem_bishopAttacks` and `mem_rookAttacks` say so of the rays, `Step.Leads.sees_iff`
of the line, and `bishopAttacks_iff_reach` and its siblings that the two ways agree
on every occupation of the board.
-/

namespace ChessEngine

namespace Square

/-- The square with the given coordinates. -/
theorem exists_shift?_of_bounds {s : Square} {df dr : Int}
    (file : 0 ≤ s.file.val + df ∧ s.file.val + df < 8)
    (rank : 0 ≤ s.rank.val + dr ∧ s.rank.val + dr < 8) : ∃ t, s.shift? df dr = some t := by
  refine ⟨ofRankFile ⟨(s.rank.val + dr).toNat, by omega⟩ ⟨(s.file.val + df).toNat, by omega⟩,
    shift?_eq_some_iff.2 ⟨?_, ?_⟩⟩
  · rw [file_ofRankFile]
    exact Int.toNat_of_nonneg file.1
  · rw [rank_ofRankFile]
    exact Int.toNat_of_nonneg rank.1

theorem eq_iff_rank_file {s t : Square} :
    s = t ↔ s.rank.val = t.rank.val ∧ s.file.val = t.file.val := by
  constructor
  · rintro rfl
    exact ⟨rfl, rfl⟩
  · rintro ⟨rank, file⟩
    exact eq_of_rank_file (Fin.ext rank) (Fin.ext file)

end Square

namespace Step

variable {step : Step} {n k : Nat} {s t u q : Square} {occupied : Bitboard}

/-! ## Repeated steps -/

theorem leads_iff : step.Leads n s t ↔
    (t.file.val : Int) = s.file.val + n * step.1 ∧ (t.rank.val : Int) = s.rank.val + n * step.2 :=
  Square.shift?_eq_some_iff

theorem leads_one : step.Leads 1 s t ↔ s.shift? step.1 step.2 = some t := by
  rw [leads_iff, Square.shift?_eq_some_iff, Int.natCast_one, Int.one_mul, Int.one_mul]

theorem leads_succ (first : s.shift? step.1 step.2 = some u) :
    step.Leads (n + 1) s t ↔ step.Leads n u t := by
  obtain ⟨file, rank⟩ := Square.shift?_eq_some_iff.1 first
  rw [leads_iff, leads_iff, Int.natCast_succ, Int.add_mul, Int.add_mul]
  omega

theorem Leads.unique (left : step.Leads n s t) (right : step.Leads n s u) : t = u :=
  Option.some.inj (left.symm.trans right)

/-- After `n` steps from `s` a slider meets `t`, and the squares passed are free. -/
def Sees (occupied : Bitboard) (step : Step) (n : Nat) (s t : Square) : Prop :=
  step.Leads n s t ∧
    ∀ k : Nat, 0 < k → k < n → ∃ q : Square, step.Leads k s q ∧ ¬ q ∈ occupied

theorem sees_one (first : s.shift? step.1 step.2 = some u) :
    step.Sees occupied 1 s t ↔ t = u := by
  unfold Sees
  rw [leads_one, first, Option.some.injEq, eq_comm]
  exact and_iff_left fun k positive below => absurd positive (by omega)

theorem sees_add_two (first : s.shift? step.1 step.2 = some u) :
    step.Sees occupied (n + 2) s t ↔ ¬ u ∈ occupied ∧ step.Sees occupied (n + 1) u t := by
  unfold Sees
  rw [leads_succ first]
  constructor
  · rintro ⟨leads, free⟩
    obtain ⟨q, one, empty⟩ := free 1 (by omega) (by omega)
    rw [leads_one, first, Option.some.injEq] at one
    subst one
    refine ⟨empty, leads, fun k positive below => ?_⟩
    obtain ⟨q, later, empty⟩ := free (k + 1) (by omega) (by omega)
    exact ⟨q, (leads_succ first).1 later, empty⟩
  · rintro ⟨empty, leads, free⟩
    refine ⟨leads, fun k positive below => ?_⟩
    obtain rfl | ⟨j, rfl⟩ : k = 1 ∨ ∃ j, k = j + 2 := by
      rcases k with _ | _ | j
      · omega
      · exact .inl rfl
      · exact .inr ⟨j, rfl⟩
    · exact ⟨u, leads_one.2 first, empty⟩
    · obtain ⟨q, later, empty⟩ := free (j + 1) (by omega) (by omega)
      exact ⟨q, (leads_succ first).2 later, empty⟩

/-- Where the first step leaves the board, nothing is seen. -/
theorem not_sees (edge : s.shift? step.1 step.2 = none) : ¬ step.Sees occupied (n + 1) s t := by
  rintro ⟨leads, free⟩
  have one : ∃ q, step.Leads 1 s q := by
    rcases n with _ | n
    · exact ⟨t, leads⟩
    · obtain ⟨q, one, -⟩ := free 1 (by omega) (by omega)
      exact ⟨q, one⟩
  obtain ⟨q, one⟩ := one
  rw [leads_one, edge] at one
  cases one

end Step

/-! ## Lines on the board -/

/-- The eight steps of sliders, one square each. -/
def Step.unit : List Step := Step.diagonal ++ Step.orthogonal

section

variable {step : Step} {n m k : Nat} {s t q : Square} {occupied found : Bitboard}

theorem Step.mem_unit : step ∈ Step.unit ↔
    step = (1, 1) ∨ step = (-1, 1) ∨ step = (1, -1) ∨ step = (-1, -1) ∨
      step = (0, 1) ∨ step = (0, -1) ∨ step = (1, 0) ∨ step = (-1, 0) := by
  simp [Step.unit, Step.diagonal, Step.orthogonal]

theorem Step.Leads.lt (leads : step.Leads n s t) (listed : step ∈ Step.unit) : n < 8 := by
  rw [Step.leads_iff] at leads
  rcases Step.mem_unit.1 listed with rfl | rfl | rfl | rfl | rfl | rfl | rfl | rfl <;>
    dsimp only at leads <;> omega

/-- A line that stays on the board to its end stays on it on the way. -/
theorem Step.Leads.exists_of_le (leads : step.Leads n s t) (listed : step ∈ Step.unit)
    (below : k ≤ n) : ∃ q, step.Leads k s q := by
  rw [Step.leads_iff] at leads
  refine Square.exists_shift?_of_bounds ?_ ?_ <;>
    rcases Step.mem_unit.1 listed with rfl | rfl | rfl | rfl | rfl | rfl | rfl | rfl <;>
      dsimp only at leads ⊢ <;> omega

/-- A square is met once on a line. -/
theorem Step.Leads.number_unique (left : step.Leads n s t) (right : step.Leads m s t)
    (listed : step ∈ Step.unit) : n = m := by
  rw [Step.leads_iff] at left right
  rcases Step.mem_unit.1 listed with rfl | rfl | rfl | rfl | rfl | rfl | rfl | rfl <;>
    dsimp only at left right <;> omega

/-- Seven steps are enough for any line. -/
theorem exists_lt_seven_iff {p : Nat → Prop} (short : ∀ n, p n → n < 8) :
    (∃ k < 7, p (k + 1)) ↔ ∃ n, 0 < n ∧ p n := by
  constructor
  · rintro ⟨k, -, holds⟩
    exact ⟨k + 1, Nat.succ_pos k, holds⟩
  · rintro ⟨n, positive, holds⟩
    have below := short n holds
    obtain ⟨k, rfl⟩ := Nat.exists_eq_succ_of_ne_zero (Nat.ne_of_gt positive)
    exact ⟨k, by omega, holds⟩

/-! ## Following rays -/

theorem mem_trace_walk : t ∈ trace occupied (walk step n s) found ↔
    t ∈ found ∨ ∃ k < n, step.Sees occupied (k + 1) s t := by
  induction n generalizing s found with
  | zero => simp [walk, trace]
  | succ n ih =>
    rw [walk]
    cases first : s.shift? step.1 step.2 with
    | none => simp [trace, Step.not_sees first]
    | some u =>
      rw [Nat.exists_lt_succ_left, Nat.zero_add, Step.sees_one first]
      simp only [Step.sees_add_two first, trace]
      by_cases blocked : u ∈ occupied
      · rw [if_pos (Bitboard.mem_def.1 blocked)]
        simp [blocked]
      · rw [if_neg (mt Bitboard.mem_def.2 blocked), ih]
        simp [blocked, or_assoc]

theorem mem_trace {line : List Square} :
    t ∈ trace occupied line found ↔ t ∈ found ∨ t ∈ trace occupied line ∅ := by
  induction line generalizing found with
  | nil => simp [trace]
  | cons u rest ih =>
    simp only [trace]
    split
    · simp
    · rw [ih, @ih (Bitboard.insert ∅ u)]
      simp [or_assoc]

theorem mem_foldl_trace {lines : List (List Square)} :
    t ∈ lines.foldl (fun found line => trace occupied line found) found ↔
      t ∈ found ∨ ∃ line ∈ lines, t ∈ trace occupied line ∅ := by
  induction lines generalizing found with
  | nil => simp
  | cons line lines ih =>
    rw [List.foldl_cons, ih, mem_trace]
    simp [or_assoc]

/-- A slider meets what it sees along one of its steps. -/
theorem mem_sweep_rays {steps : List Step} (unit : ∀ step ∈ steps, step ∈ Step.unit) :
    t ∈ sweep occupied ((Step.rays steps).get s) ↔
      ∃ step ∈ steps, ∃ n, 0 < n ∧ step.Sees occupied n s t := by
  have rays : (Step.rays steps).get s = steps.map fun step => ray step s := get_ofFn _ s
  rw [sweep, mem_foldl_trace, rays, or_iff_right (Bitboard.not_mem_empty t)]
  simp only [List.mem_map, exists_exists_and_eq_and]
  refine exists_congr fun step => and_congr_right fun listed => ?_
  rw [ray, mem_trace_walk, or_iff_right (Bitboard.not_mem_empty t)]
  exact exists_lt_seven_iff fun n (seen : step.Sees occupied n s t) =>
    seen.1.lt (unit step listed)

theorem mem_bishopAttacks : t ∈ bishopAttacks s occupied ↔
    ∃ step ∈ Step.diagonal, ∃ n, 0 < n ∧ step.Sees occupied n s t :=
  mem_sweep_rays fun _ listed => List.mem_append_left _ listed

theorem mem_rookAttacks : t ∈ rookAttacks s occupied ↔
    ∃ step ∈ Step.orthogonal, ∃ n, 0 < n ∧ step.Sees occupied n s t :=
  mem_sweep_rays fun _ listed => List.mem_append_right _ listed

theorem mem_queenAttacks : t ∈ queenAttacks s occupied ↔
    ∃ step ∈ Step.diagonal ++ Step.orthogonal, ∃ n, 0 < n ∧ step.Sees occupied n s t := by
  rw [queenAttacks, Bitboard.mem_union, mem_bishopAttacks, mem_rookAttacks]
  simp only [List.mem_append, or_and_right, exists_or]

/-! ## Reach -/

theorem mem_walk (listed : step ∈ Step.unit) :
    t ∈ walk step n s ↔ ∃ k < n, step.Leads (k + 1) s t := by
  induction n generalizing s with
  | zero => simp [walk]
  | succ n ih =>
    rw [walk]
    cases first : s.shift? step.1 step.2 with
    | none =>
      refine iff_of_false List.not_mem_nil ?_
      rintro ⟨k, -, leads⟩
      obtain ⟨q, one⟩ := leads.exists_of_le listed (Nat.succ_pos k)
      rw [Step.leads_one, first] at one
      cases one
    | some u =>
      rw [List.mem_cons, ih, Nat.exists_lt_succ_left, Nat.zero_add, Step.leads_one, first]
      simp only [Step.leads_succ first, Option.some.injEq, eq_comm]

/-- Whatever stands on the board, a slider may reach what one of its steps leads to. -/
theorem mem_reach {steps : List Step} (unit : ∀ step ∈ steps, step ∈ Step.unit) :
    t ∈ Bitboard.ofList (steps.flatMap fun step => ray step s) ↔
      ∃ step ∈ steps, ∃ n, 0 < n ∧ step.Leads n s t := by
  rw [Bitboard.mem_ofList, List.mem_flatMap]
  refine exists_congr fun step => and_congr_right fun listed => ?_
  rw [ray, mem_walk (unit step listed)]
  exact exists_lt_seven_iff fun n (leads : step.Leads n s t) => leads.lt (unit step listed)

theorem mem_bishopReach : t ∈ bishopReach s ↔
    ∃ step ∈ Step.diagonal, ∃ n, 0 < n ∧ step.Leads n s t := by
  rw [bishopReach, bishopReachTable, get_ofFn]
  exact mem_reach fun _ listed => List.mem_append_left _ listed

theorem mem_rookReach : t ∈ rookReach s ↔
    ∃ step ∈ Step.orthogonal, ∃ n, 0 < n ∧ step.Leads n s t := by
  rw [rookReach, rookReachTable, get_ofFn]
  exact mem_reach fun _ listed => List.mem_append_right _ listed

/-! ## Clear ranks and files -/

/-- `q` is passed on the way of `n` steps from `s`. -/
def Step.Passes (step : Step) (n : Nat) (s q : Square) : Prop :=
  ∃ k, 0 < k ∧ k < n ∧ step.Leads k s q

theorem Step.Leads.sees_iff_passes (leads : step.Leads n s t) (listed : step ∈ Step.unit) :
    step.Sees occupied n s t ↔ ∀ q, step.Passes n s q → ¬ q ∈ occupied := by
  rw [Step.Sees, and_iff_right leads]
  constructor
  · rintro free q ⟨k, positive, below, passed⟩
    obtain ⟨q', passed', empty⟩ := free k positive below
    rwa [passed.unique passed']
  · intro free k positive below
    obtain ⟨q, passed⟩ := leads.exists_of_le listed (Nat.le_of_lt below)
    exact ⟨q, passed, free q ⟨k, positive, below, passed⟩⟩

theorem insideClear_iff {place : Fin 8 → Square} {a b : Fin 8} :
    insideClear occupied place a b = true ↔
      ∀ i : Fin 8, min a.val b.val < i.val → i.val < max a.val b.val → ¬ place i ∈ occupied := by
  simp only [insideClear, List.all_eq_true, List.mem_range'_1, Bool.not_eq_true', Bitboard.mem_def,
    Bool.not_eq_true]
  constructor
  · intro clear i low high
    have here := clear i.val ⟨low, by omega⟩
    rwa [Fin.ofNat_val_eq_self] at here
  · rintro clear i ⟨low, high⟩
    have inside : i < 8 := by omega
    have here := clear ⟨i, inside⟩ low (by dsimp only; omega)
    rwa [show Fin.ofNat 8 i = ⟨i, inside⟩ from Fin.ext (Nat.mod_eq_of_lt inside)]

/-- A line on which one coordinate counts the steps, up or down, is clear if the places strictly
between the coordinates of its ends are. -/
theorem Step.Leads.sees_iff_insideClear (leads : step.Leads n s t) (listed : step ∈ Step.unit)
    (place : Fin 8 → Square) (number : Square → Fin 8) {sign : Int}
    (signed : sign = 1 ∨ sign = -1) (placed : ∀ i, number (place i) = i)
    (line : ∀ k q, step.Leads k s q ↔
      place (number q) = q ∧ ((number q).val : Int) = (number s).val + k * sign) :
    step.Sees occupied n s t ↔ insideClear occupied place (number s) (number t) = true := by
  rw [leads.sees_iff_passes listed, insideClear_iff]
  have ends := ((line n t).1 leads).2
  constructor
  · intro free i low high
    refine free _ ⟨gap i.val (number s).val, ?_, ?_, (line _ _).2 ⟨by rw [placed], ?_⟩⟩
    · unfold gap
      omega
    · unfold gap
      rcases signed with rfl | rfl <;> omega
    · rw [placed]
      unfold gap
      rcases signed with rfl | rfl <;> omega
  · rintro clear q ⟨k, first, last, passed⟩
    obtain ⟨here, count⟩ := (line k q).1 passed
    rw [← here]
    refine clear (number q) ?_ ?_ <;> rcases signed with rfl | rfl <;> omega

theorem Step.Leads.along_rank (leads : step.Leads n s t) (listed : step ∈ Step.unit)
    (positive : 0 < n) (level : s.rank = t.rank) :
    ∃ sign : Int, (sign = 1 ∨ sign = -1) ∧ step = (sign, 0) := by
  rw [Step.leads_iff] at leads
  rcases Step.mem_unit.1 listed with rfl | rfl | rfl | rfl | rfl | rfl | rfl | rfl <;>
    dsimp only at leads <;> first | omega | exact ⟨_, by decide, rfl⟩

theorem Step.Leads.along_file (leads : step.Leads n s t) (listed : step ∈ Step.unit)
    (positive : 0 < n) (level : s.file = t.file) :
    ∃ sign : Int, (sign = 1 ∨ sign = -1) ∧ step = (0, sign) := by
  rw [Step.leads_iff] at leads
  rcases Step.mem_unit.1 listed with rfl | rfl | rfl | rfl | rfl | rfl | rfl | rfl <;>
    dsimp only at leads <;> first | omega | exact ⟨_, by decide, rfl⟩

theorem Step.Leads.sees_iff_rank (leads : step.Leads n s t) (listed : step ∈ Step.unit)
    (positive : 0 < n) (level : s.rank = t.rank) : step.Sees occupied n s t ↔
      insideClear occupied (Square.ofRankFile s.rank) s.file t.file = true := by
  obtain ⟨sign, signed, rfl⟩ := leads.along_rank listed positive level
  refine leads.sees_iff_insideClear listed _ Square.file signed (Square.file_ofRankFile _) ?_
  intro k q
  rw [Step.leads_iff, Square.eq_iff_rank_file, Square.rank_ofRankFile, Square.file_ofRankFile]
  dsimp only
  omega

theorem Step.Leads.sees_iff_file (leads : step.Leads n s t) (listed : step ∈ Step.unit)
    (positive : 0 < n) (level : s.file = t.file) : step.Sees occupied n s t ↔
      insideClear occupied (fun rank => Square.ofRankFile rank s.file) s.rank t.rank = true := by
  obtain ⟨sign, signed, rfl⟩ := leads.along_file listed positive level
  refine leads.sees_iff_insideClear listed _ Square.rank signed
    (fun _ => Square.rank_ofRankFile ..) ?_
  intro k q
  rw [Step.leads_iff, Square.eq_iff_rank_file, Square.rank_ofRankFile, Square.file_ofRankFile]
  dsimp only
  omega

/-! ## Clear diagonals -/

/-- How the number of a square changes with a step. -/
def Step.difference (step : Step) : Int := 8 * step.2 + step.1

theorem Step.mem_diagonal : step ∈ Step.diagonal ↔
    step = (1, 1) ∨ step = (-1, 1) ∨ step = (1, -1) ∨ step = (-1, -1) := by
  simp [Step.diagonal]

theorem diagonalNext?_eq_some_iff {difference : Int} :
    diagonalNext? difference s = some t ↔
      (t.val : Int) = s.val + difference ∧ gap t.file.val s.file.val = 1 := by
  unfold diagonalNext?
  constructor
  · intro next
    split at next
    · dsimp only at next
      split at next
      · next inside apart =>
        cases next
        exact ⟨Int.toNat_of_nonneg inside.1, apart⟩
      · cases next
    · cases next
  · rintro ⟨number, apart⟩
    have below := t.isLt
    have same : ∀ inside, (⟨(s.val + difference).toNat, inside⟩ : Square) = t := fun _ =>
      Fin.ext (by dsimp only; omega)
    rw [dif_pos ⟨by omega, by omega⟩]
    simp only [same, apart, if_true]

/-- By number a diagonal step either goes where it should, or past the edge of the board, and that
is noticed. -/
theorem diagonalNext?_difference (listed : step ∈ Step.diagonal) :
    diagonalNext? step.difference s = s.shift? step.1 step.2 := by
  refine Option.ext fun t => ?_
  have atStart := s.val_eq
  have atEnd := t.val_eq
  rw [diagonalNext?_eq_some_iff, Square.shift?_eq_some_iff, Step.difference]
  unfold gap
  rcases Step.mem_diagonal.1 listed with rfl | rfl | rfl | rfl <;> dsimp only <;> omega

theorem diagonalClearFrom_iff (listed : step ∈ Step.diagonal) :
    diagonalClearFrom occupied step.difference t n s = true ↔
      ∃ k < n, step.Sees occupied (k + 1) s t := by
  induction n generalizing s with
  | zero => simp [diagonalClearFrom]
  | succ n ih =>
    rw [diagonalClearFrom, diagonalNext?_difference listed]
    cases first : s.shift? step.1 step.2 with
    | none => simp [Step.not_sees first]
    | some u =>
      rw [Nat.exists_lt_succ_left, Nat.zero_add, Step.sees_one first]
      simp only [Step.sees_add_two first]
      by_cases arrived : u = t
      · simp [arrived]
      · by_cases blocked : u ∈ occupied
        · simp [arrived, Ne.symm arrived, blocked, Bitboard.mem_def.1 blocked]
        · simp [arrived, Ne.symm arrived, blocked, mt Bitboard.mem_def.2 blocked, ih]

theorem diagonalDifference?_of_leads (leads : step.Leads n s t) (listed : step ∈ Step.diagonal)
    (positive : 0 < n) : diagonalDifference? s t = some step.difference := by
  have short := leads.lt (List.mem_append_left _ listed)
  have atStart := s.val_eq
  have atEnd := t.val_eq
  rw [Step.leads_iff] at leads
  unfold diagonalDifference? gap Step.difference
  simp only [Fin.lt_def]
  rcases Step.mem_diagonal.1 listed with rfl | rfl | rfl | rfl <;> dsimp only at leads ⊢
  · rw [if_pos (by omega), if_pos (by omega)]
    rfl
  · rw [if_neg (by omega), if_pos (by omega), if_pos (by omega)]
    rfl
  · rw [if_neg (by omega), if_pos (by omega), if_neg (by omega)]
    rfl
  · rw [if_pos (by omega), if_neg (by omega)]
    rfl

theorem Step.Leads.sees_iff_diagonal (leads : step.Leads n s t) (listed : step ∈ Step.diagonal)
    (positive : 0 < n) : step.Sees occupied n s t ↔ diagonalClear occupied s t = true := by
  have unit : step ∈ Step.unit := List.mem_append_left _ listed
  rw [diagonalClear, diagonalDifference?_of_leads leads listed positive]
  refine Iff.trans ?_ (diagonalClearFrom_iff listed).symm
  constructor
  · intro seen
    have short := leads.lt unit
    obtain ⟨k, rfl⟩ := Nat.exists_eq_succ_of_ne_zero (Nat.ne_of_gt positive)
    exact ⟨k, by omega, seen⟩
  · rintro ⟨k, -, seen⟩
    rwa [leads.number_unique seen.1 unit]

/-! ## Rays and reach agree -/

/-- On a line the squares passed are free exactly if the line is found clear. -/
theorem Step.Leads.sees_iff (leads : step.Leads n s t) (listed : step ∈ Step.unit)
    (positive : 0 < n) : step.Sees occupied n s t ↔ lineClear occupied s t = true := by
  unfold lineClear
  split
  · next level => exact leads.sees_iff_rank listed positive level
  · next apart =>
    split
    · next level => exact leads.sees_iff_file listed positive level
    · next aside =>
      refine leads.sees_iff_diagonal ?_ positive
      rw [Step.leads_iff] at leads
      rw [Fin.ext_iff] at apart aside
      rcases Step.mem_unit.1 listed with rfl | rfl | rfl | rfl | rfl | rfl | rfl | rfl <;>
        dsimp only at leads <;> first | omega | decide

theorem sees_iff_leads_and_lineClear {steps : List Step}
    (unit : ∀ step ∈ steps, step ∈ Step.unit) :
    (∃ step ∈ steps, ∃ n, 0 < n ∧ step.Sees occupied n s t) ↔
      (∃ step ∈ steps, ∃ n, 0 < n ∧ step.Leads n s t) ∧ lineClear occupied s t = true := by
  constructor
  · rintro ⟨step, listed, n, positive, seen⟩
    exact ⟨⟨step, listed, n, positive, seen.1⟩,
      (seen.1.sees_iff (unit step listed) positive).1 seen⟩
  · rintro ⟨⟨step, listed, n, positive, leads⟩, clear⟩
    exact ⟨step, listed, n, positive, (leads.sees_iff (unit step listed) positive).2 clear⟩

theorem bishopAttacks_iff_reach : t ∈ bishopAttacks s occupied ↔
    t ∈ bishopReach s ∧ lineClear occupied s t = true := by
  rw [mem_bishopAttacks, mem_bishopReach]
  exact sees_iff_leads_and_lineClear fun _ listed => List.mem_append_left _ listed

theorem rookAttacks_iff_reach : t ∈ rookAttacks s occupied ↔
    t ∈ rookReach s ∧ lineClear occupied s t = true := by
  rw [mem_rookAttacks, mem_rookReach]
  exact sees_iff_leads_and_lineClear fun _ listed => List.mem_append_right _ listed

theorem queenAttacks_iff_reach : t ∈ queenAttacks s occupied ↔
    t ∈ queenReach s ∧ lineClear occupied s t = true := by
  rw [queenAttacks, queenReach, Bitboard.mem_union, Bitboard.mem_union, bishopAttacks_iff_reach,
    rookAttacks_iff_reach, or_and_right]

end

end ChessEngine
