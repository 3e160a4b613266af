import ChessEngine.Proofs.Attack.Axis
import Mathlib.Algebra.BigOperators.Fin
import Mathlib.Algebra.Order.BigOperators.Group.Finset
import Mathlib.Tactic.IntervalCases

/-!
# How much sliders can see between them

However many sliders a side has, from each of eight sides they see every square once at most, so
together they meet no more than the vacant squares of every line twice.  Each slider also takes
squares away, the one it stands on, and where a line has two sliders and both its ends are vacant,
these are seen from one side only.

The bound charges for this line by line.  A line is granted its `allowance` whatever stands on it,
each slider on it is charged its `share`, one at the end of a long line a `surcharge` besides, and
a piece in the way brings a `discount` (`Axis.line_bound`).  Over all lines of the four axes the
grants come to two hundred, the charges and rebates to a number for each kind and square
(`two_mul_met_le`).  Halved, and with the moves of the other pieces added, this leaves a hundred
moves besides a `Kind.mobility` for each piece (`census_freedom_le`).
-/

namespace ChessEngine

open Finset

namespace Axis

section Lines

variable (a : Axis)

/-- The members of a set on the line with the given number. -/
def on (squares : Finset Square) (l : Nat) : Finset Square := {s ∈ squares | a.line s = l}

/-- The number of squares of a line. -/
def length (l : Nat) : Nat := #(a.on univ l)

/-- No square of the line comes before this one. -/
def IsFirst (back : Bool) (s : Square) : Prop :=
  ∀ t, a.line t = a.line s → a.place back s ≤ a.place back t

/-- The square is the first or the last of its line. -/
def IsEnd (s : Square) : Prop := ∃ back, a.IsFirst back s

instance (back : Bool) : DecidablePred (a.IsFirst back) := fun s =>
  inferInstanceAs (Decidable (∀ t, a.line t = a.line s → a.place back s ≤ a.place back t))

instance : DecidablePred a.IsEnd := fun s =>
  inferInstanceAs (Decidable (∃ back, a.IsFirst back s))

variable {a} {s t : Square} {l : Nat} {back : Bool} {squares : Finset Square}

theorem mem_on : s ∈ a.on squares l ↔ s ∈ squares ∧ a.line s = l := mem_filter

theorem length_le (a : Axis) (l : Nat) : a.length l ≤ 8 := by
  refine (card_le_card_of_injOn (t := range 8) (a.place false) ?_ ?_).trans (card_range 8).le
  · exact fun s _ => mem_range.2 (Nat.lt_succ_of_le (a.place_le false s))
  · exact fun s level t level' same =>
      eq_of_line_place false ((mem_on.1 level).2.trans (mem_on.1 level').2.symm) same

/-! ### Ends of lines -/

theorem IsFirst.unique (first : a.IsFirst back s) (first' : a.IsFirst back t)
    (level : a.line s = a.line t) : s = t :=
  eq_of_line_place back level (le_antisymm (first t level.symm) (first' s level))

theorem exists_isFirst (a : Axis) (back : Bool) (s : Square) :
    ∃ t, a.line t = a.line s ∧ a.IsFirst back t := by
  obtain ⟨t, member, least⟩ := exists_min_image (a.on univ (a.line s)) (a.place back)
    ⟨s, mem_on.2 ⟨mem_univ s, rfl⟩⟩
  have level := (mem_on.1 member).2
  exact ⟨t, level, fun u along => least u (mem_on.2 ⟨mem_univ u, along.trans level⟩)⟩

/-- Where the two ends of a line are the same, it has no other square. -/
theorem eq_of_isFirst (first : a.IsFirst false s) (last : a.IsFirst true s)
    (level : a.line t = a.line s) : t = s := by
  have low := first t level
  have high := last t level
  rw [place_true, place_true] at high
  have inside := a.place_le false t
  exact eq_of_line_place false level (by omega)

/-- A line has two ends. -/
theorem card_ends_le (squares : Finset Square) : #(a.on {s ∈ squares | a.IsEnd s} l) ≤ 2 := by
  have once : ∀ back, #{s ∈ a.on univ l | a.IsFirst back s} ≤ 1 := by
    refine fun back => card_le_one.2 fun s first t first' => ?_
    obtain ⟨level, first⟩ := mem_filter.1 first
    obtain ⟨level', first'⟩ := mem_filter.1 first'
    exact first.unique first' ((mem_on.1 level).2.trans (mem_on.1 level').2.symm)
  have either : a.on {s ∈ squares | a.IsEnd s} l ⊆
      {s ∈ a.on univ l | a.IsFirst false s} ∪ {s ∈ a.on univ l | a.IsFirst true s} := by
    intro s member
    obtain ⟨isEnd, level⟩ := mem_on.1 member
    obtain ⟨back, first⟩ := (mem_filter.1 isEnd).2
    have onLine : s ∈ a.on univ l := mem_on.2 ⟨mem_univ s, level⟩
    cases back
    · exact mem_union_left _ (mem_filter.2 ⟨onLine, first⟩)
    · exact mem_union_right _ (mem_filter.2 ⟨onLine, first⟩)
  calc #(a.on {s ∈ squares | a.IsEnd s} l)
      ≤ _ := (card_le_card either).trans (card_union_le _ _)
    _ ≤ 1 + 1 := Nat.add_le_add (once false) (once true)

/-! ### Sums over lines -/

/-- What each member of a set contributes by the number of its line is a sum over the lines. -/
theorem sum_on (a : Axis) (squares : Finset Square) (f : Nat → Nat) :
    ∑ l ∈ range 15, f l * #(a.on squares l) = ∑ s ∈ squares, f (a.line s) := by
  rw [← sum_fiberwise_of_maps_to (g := a.line) fun s _ => mem_range.2 (a.line_lt s)]
  refine sum_congr rfl fun l _ => ?_
  rw [mul_comm, ← smul_eq_mul, ← sum_const]
  exact sum_congr rfl fun s member => by rw [(mem_on.1 member).2]

end Lines

/-! ## One line -/

variable (own : Square → Option Kind)

/-- The squares without a piece of the side. -/
def vacant : Finset Square := {s | own s = none}

variable (a : Axis)

/-- The squares of the pieces that slide along an axis. -/
def runners : Finset Square := {s | ∃ k ∈ a.kinds, own s = some k}

/-- The squares of the other pieces. -/
def blockers : Finset Square := {s | own s ≠ none ∧ ¬ ∃ k ∈ a.kinds, own s = some k}

/-- The vacant squares that lie ahead of some piece that slides along their line. -/
def met (back : Bool) : Finset Square :=
  {t ∈ vacant own | ∃ s ∈ a.runners own, a.line s = a.line t ∧ a.place back s < a.place back t}

variable {own a} {l : Nat} {back : Bool} {s t : Square}

theorem mem_on_met : t ∈ a.on (a.met own back) l ↔ t ∈ a.on (vacant own) l ∧
    ∃ s ∈ a.on (a.runners own) l, a.place back s < a.place back t := by
  simp only [mem_on, met, mem_filter]
  constructor
  · rintro ⟨⟨free, s, runs, level, ahead⟩, rfl⟩
    exact ⟨⟨free, rfl⟩, s, ⟨runs, level⟩, ahead⟩
  · rintro ⟨⟨free, rfl⟩, s, ⟨runs, level⟩, ahead⟩
    exact ⟨⟨free, s, runs, level, ahead⟩, rfl⟩

theorem on_met_subset : a.on (a.met own back) l ⊆ a.on (vacant own) l :=
  fun _ member => (mem_on_met.1 member).1

/-- A square of a line is vacant, or the piece on it slides along the line or is in the way. -/
theorem mem_on_parts (own : Square → Option Kind) (level : a.line s = l) :
    s ∈ a.on (a.runners own) l ∨ s ∈ a.on (a.blockers own) l ∨ s ∈ a.on (vacant own) l := by
  simp only [mem_on, runners, blockers, vacant, mem_filter_univ, level, and_true]
  tauto

theorem card_parts (own : Square → Option Kind) (a : Axis) (l : Nat) :
    #(a.on (a.runners own) l) + #(a.on (a.blockers own) l) + #(a.on (vacant own) l) =
      a.length l := by
  have apart : Disjoint (a.on (a.runners own) l) (a.on (a.blockers own) l) :=
    disjoint_left.2 fun s runs blocks =>
      (mem_filter_univ s |>.1 (mem_on.1 blocks).1).2 (mem_filter_univ s |>.1 (mem_on.1 runs).1)
  have apart' : Disjoint (a.on (a.runners own) l ∪ a.on (a.blockers own) l)
      (a.on (vacant own) l) := by
    refine disjoint_left.2 fun s stands free => ?_
    have none : own s = none := (mem_filter_univ s).1 (mem_on.1 free).1
    simp [mem_on, runners, blockers, none] at stands
  rw [← card_union_of_disjoint apart, ← card_union_of_disjoint apart', length]
  congr 1
  ext s
  rw [mem_union, mem_union, or_assoc]
  exact ⟨fun part => mem_on.2 ⟨mem_univ s, by
    rcases part with part | part | part <;> exact (mem_on.1 part).2⟩,
    fun member => mem_on_parts own (mem_on.1 member).2⟩

theorem met_of_no_runner (none : #(a.on (a.runners own) l) = 0) :
    #(a.on (a.met own back) l) = 0 := by
  rw [card_eq_zero] at none ⊢
  refine eq_empty_of_forall_notMem fun t member => ?_
  obtain ⟨-, s, runs, -⟩ := mem_on_met.1 member
  exact notMem_empty s (none ▸ runs)

/-- A single slider meets each square from one side only. -/
theorem met_of_one_runner (one : #(a.on (a.runners own) l) = 1) :
    #(a.on (a.met own false) l) + #(a.on (a.met own true) l) ≤ #(a.on (vacant own) l) := by
  obtain ⟨r, single⟩ := card_eq_one.1 one
  have apart : Disjoint (a.on (a.met own false) l) (a.on (a.met own true) l) := by
    refine disjoint_left.2 fun t early late => ?_
    obtain ⟨-, s, runs, ahead⟩ := mem_on_met.1 early
    obtain ⟨-, s', runs', behind⟩ := mem_on_met.1 late
    rw [single, mem_singleton] at runs runs'
    subst runs runs'
    rw [place_true, place_true] at behind
    omega
  rw [← card_union_of_disjoint apart]
  exact card_le_card (union_subset on_met_subset on_met_subset)

/-- The first square is not ahead of anything. -/
theorem card_met_add_first (own : Square → Option Kind) (first : a.IsFirst back s)
    (level : a.line s = l) :
    #(a.on (a.met own back) l) + (if s ∈ a.on (vacant own) l then 1 else 0) ≤
      #(a.on (vacant own) l) := by
  have unmet : ¬ s ∈ a.on (a.met own back) l := fun member => by
    obtain ⟨-, r, runs, ahead⟩ := mem_on_met.1 member
    exact absurd ahead (not_lt.2 (first r ((mem_on.1 runs).2.trans level.symm)))
  split
  · next free =>
    rw [← card_insert_of_notMem unmet]
    exact card_le_card (insert_subset free on_met_subset)
  · exact card_le_card on_met_subset

/-- Several sliders may meet squares from both sides, but not the two ends of the line.  An end
that is not vacant is a slider at the end or a piece in the way. -/
theorem met_of_runners (several : 2 ≤ #(a.on (a.runners own) l)) :
    #(a.on (a.met own false) l) + #(a.on (a.met own true) l) + 2 ≤
      2 * #(a.on (vacant own) l) + #(a.on {s ∈ a.runners own | a.IsEnd s} l) +
        #(a.on (a.blockers own) l) := by
  obtain ⟨r, runs, r', runs', distinct⟩ := one_lt_card.1 several
  obtain ⟨s, along, first⟩ := a.exists_isFirst false r
  obtain ⟨t, along', last⟩ := a.exists_isFirst true r
  have level : a.line s = l := along.trans (mem_on.1 runs).2
  have level' : a.line t = l := along'.trans (mem_on.1 runs).2
  have apart : s ≠ t := by
    rintro rfl
    have single : ∀ u ∈ a.on (a.runners own) l, u = s := fun u runs =>
      eq_of_isFirst first last ((mem_on.1 runs).2.trans level.symm)
    exact distinct ((single r runs).trans (single r' runs').symm)
  have ends : ∀ u ∈ ({s, t} : Finset Square), a.IsEnd u ∧ a.line u = l := by
    simp only [mem_insert, mem_singleton, forall_eq_or_imp, forall_eq]
    exact ⟨⟨⟨false, first⟩, level⟩, ⟨true, last⟩, level'⟩
  have taken : ({s, t} : Finset Square).filter (¬ · ∈ a.on (vacant own) l) ⊆
      a.on {s ∈ a.runners own | a.IsEnd s} l ∪ a.on (a.blockers own) l := by
    intro u member
    obtain ⟨pair, stands⟩ := mem_filter.1 member
    obtain ⟨isEnd, level⟩ := ends u pair
    rcases mem_on_parts own level with runs | blocks | free
    · exact mem_union_left _
        (mem_on.2 ⟨mem_filter.2 ⟨(mem_on.1 runs).1, isEnd⟩, level⟩)
    · exact mem_union_right _ blocks
    · exact absurd free stands
  have bound := (card_le_card taken).trans (card_union_le _ _)
  have pair : #({s, t} : Finset Square) = 2 := card_pair apart
  have free : #(({s, t} : Finset Square).filter (· ∈ a.on (vacant own) l)) =
      (if s ∈ a.on (vacant own) l then 1 else 0) + if t ∈ a.on (vacant own) l then 1 else 0 := by
    rw [card_filter, sum_pair apart]
  have split := card_filter_add_card_filter_not (s := ({s, t} : Finset Square))
    (· ∈ a.on (vacant own) l)
  have early := card_met_add_first own first level
  have late := card_met_add_first own last level'
  omega

/-! ## Charges -/

/-- What each slider is charged on a line of the given length, for both directions together. -/
def share : Nat → Nat
  | 0 | 1 => 0
  | 2 => 1
  | 3 | 4 => 2
  | _ => 3

/-- What is granted to a line of the given length whatever stands on it. -/
def allowance (length : Nat) : Nat := 2 * (length - 1 - share length)

/-- What a slider at the end of a long line is charged besides. -/
def surcharge (length : Nat) : Nat := if 7 ≤ length then 2 else 0

/-- What a piece in the way is worth on a line of full length. -/
def discount (length : Nat) : Nat := if length = 8 then 1 else 0

theorem line_bound {length n m v e x : Nat} (full : n + m + v = length) (short : length ≤ 8)
    (ends : e ≤ 2) (none : n = 0 → x = 0) (one : n = 1 → x ≤ v)
    (several : 2 ≤ n → x + 2 ≤ 2 * v + e + m) :
    2 * x + discount length * m ≤
      allowance length + (2 * share length * n + surcharge length * e) := by
  interval_cases length <;> simp only [discount, allowance, share, surcharge] <;> norm_num <;> omega

/-! ## One axis -/

/-- What a slider on a square is charged for the line through it. -/
def charge (a : Axis) (s : Square) : Nat :=
  2 * share (a.length (a.line s)) + if a.IsEnd s then surcharge (a.length (a.line s)) else 0

/-- What a piece in the way is worth on the line through its square. -/
def rebate (a : Axis) (s : Square) : Nat := discount (a.length (a.line s))

theorem met_le (own : Square → Option Kind) (a : Axis) :
    2 * (#(a.met own false) + #(a.met own true)) + ∑ s ∈ a.blockers own, a.rebate s ≤
      ∑ l ∈ range 15, allowance (a.length l) + ∑ s ∈ a.runners own, a.charge s := by
  have each : ∀ l,
      2 * (#(a.on (a.met own false) l) + #(a.on (a.met own true) l)) +
          discount (a.length l) * #(a.on (a.blockers own) l) ≤
        allowance (a.length l) + (2 * share (a.length l) * #(a.on (a.runners own) l) +
          surcharge (a.length l) * #(a.on {s ∈ a.runners own | a.IsEnd s} l)) := by
    refine fun l => line_bound (card_parts own a l) (a.length_le l)
      (card_ends_le _) (fun none => ?_) met_of_one_runner met_of_runners
    rw [met_of_no_runner none, met_of_no_runner none]
  have total := sum_le_sum fun l (_ : l ∈ range 15) => each l
  have whole : ∀ squares, ∑ l ∈ range 15, #(a.on squares l) = squares.card := fun squares => by
    simpa using a.sum_on squares fun _ => 1
  simp only [sum_add_distrib, ← mul_sum, whole, a.sum_on _ fun l => discount (a.length l),
    a.sum_on _ fun l => 2 * share (a.length l), a.sum_on _ fun l => surcharge (a.length l)] at total
  simpa only [charge, rebate, sum_add_distrib, sum_filter, mul_sum] using total

/-- The vacant squares that a piece on `s` would see along an axis. -/
def seen (own : Square → Option Kind) (occupied : Bitboard) (a : Axis) (back : Bool)
    (s : Square) : Finset Square :=
  {t ∈ vacant own | a.Views back occupied s t}

/-- No square is seen twice from the same side. -/
theorem sum_seen_le {occupied : Bitboard} (standing : ∀ s, own s ≠ none → s ∈ occupied) (a : Axis)
    (back : Bool) :
    ∑ s ∈ a.runners own, #(seen own occupied a back s) ≤ #(a.met own back) := by
  have stands : ∀ s ∈ a.runners own, s ∈ occupied := fun s runs => by
    obtain ⟨k, -, here⟩ := (mem_filter_univ s).1 runs
    exact standing s (by simp [here])
  rw [← card_biUnion]
  · refine card_le_card (biUnion_subset.2 fun s runs t member => ?_)
    obtain ⟨free, views⟩ := mem_filter.1 member
    exact mem_filter.2 ⟨free, s, runs, views.line.symm, views.ahead⟩
  · refine fun s runs t runs' apart => disjoint_left.2 fun u member member' => apart ?_
    exact (mem_filter.1 member).2.unique (mem_filter.1 member').2 (stands s runs) (stands t runs')

/-- All lines together are granted two hundred. -/
theorem sum_allowance : ∑ a : Axis, ∑ l ∈ range 15, allowance (a.length l) = 200 := by
  decide +kernel

end Axis

/-! ## The whole board -/

/-- What the pieces of a side come to on their squares. -/
def census (own : Square → Option Kind) (f : Kind → Square → Nat) : Nat :=
  ∑ s, (own s).elim 0 fun k => f k s

section Census

variable (own : Square → Option Kind) (f g : Kind → Square → Nat)

theorem census_add : census own (fun k s => f k s + g k s) = census own f + census own g := by
  rw [census, census, census, ← sum_add_distrib]
  refine sum_congr rfl fun s _ => ?_
  cases own s <;> rfl

theorem census_mul (n : Nat) : census own (fun k s => n * f k s) = n * census own f := by
  rw [census, census, mul_sum]
  refine sum_congr rfl fun s _ => ?_
  cases own s <;> rfl

theorem census_sum {ι : Type} (l : Finset ι) (h : ι → Kind → Square → Nat) :
    census own (fun k s => ∑ i ∈ l, h i k s) = ∑ i ∈ l, census own (h i) := by
  unfold census
  rw [sum_comm]
  refine sum_congr rfl fun s _ => ?_
  cases own s
  · exact sum_const_zero.symm
  · rfl

/-- The pieces of a side may be counted kind by kind. -/
theorem census_eq_sum_kinds :
    census own f = (Kind.all.map fun k => ∑ s with own s = some k, f k s).sum := by
  simp only [census, Kind.all, List.map_cons, List.map_nil, List.sum_cons, List.sum_nil,
    sum_filter, ← sum_add_distrib, add_zero]
  refine sum_congr rfl fun s _ => ?_
  rcases own s with _ | k
  · simp
  · cases k <;> simp

theorem census_le {f g : Kind → Square → Nat} (le : ∀ k s, f k s ≤ g k s) :
    census own f ≤ census own g := by
  refine sum_le_sum fun s _ => ?_
  cases own s
  · exact le_rfl
  · exact le _ s

/-- What concerns the sliders of an axis alone is a sum over their squares. -/
theorem census_runners (a : Axis) (h : Square → Nat) :
    census own (fun k s => if k ∈ a.kinds then h s else 0) = ∑ s ∈ a.runners own, h s := by
  rw [Axis.runners, sum_filter]
  refine sum_congr rfl fun s _ => ?_
  cases own s <;> simp

theorem census_blockers (a : Axis) (h : Square → Nat) :
    census own (fun k s => if k ∈ a.kinds then 0 else h s) = ∑ s ∈ a.blockers own, h s := by
  rw [Axis.blockers, sum_filter]
  refine sum_congr rfl fun s _ => ?_
  cases own s <;> simp

end Census

/-- What a piece is charged on its square, for the axes along which it slides. -/
def charge (k : Kind) (s : Square) : Nat := ∑ a : Axis, if k ∈ a.kinds then a.charge s else 0

/-- What a piece is worth by being in the way of the axes along which it does not slide. -/
def rebate (k : Kind) (s : Square) : Nat := ∑ a : Axis, if k ∈ a.kinds then 0 else a.rebate s

/-- Twice the number of squares that the sliders of a side see from all eight sides. -/
theorem two_mul_met_le (own : Square → Option Kind) :
    2 * ∑ a : Axis, (#(a.met own false) + #(a.met own true)) + census own rebate ≤
      200 + census own charge := by
  have total := sum_le_sum fun a (_ : a ∈ (univ : Finset Axis)) => a.met_le own
  simp only [sum_add_distrib, ← mul_sum, Axis.sum_allowance, ← census_blockers, ← census_runners,
    ← census_sum] at total
  rw [sum_add_distrib]
  exact total

/-! ## Freedom -/

namespace Kind

/-- The most moves of a piece that does not slide. -/
def leaps : Kind → Nat
  | pawn => 13
  | knight | king => 8
  | bishop | rook | queen => 0

/-- What a piece of this kind adds, at most, to the number of moves of its side. -/
def mobility : Kind → Nat
  | pawn | queen => 12
  | knight | king => 7
  | bishop => 5
  | rook => 8

/-- What a piece is charged for its moves is covered by its mobility and by what it takes from the
sliders beside it. -/
theorem charge_le : ∀ k s, charge k s + 2 * leaps k ≤ 2 * mobility k + rebate k s := by
  have finite : ∀ k ∈ all, ∀ s, charge k s + 2 * leaps k ≤ 2 * mobility k + rebate k s := by
    decide +kernel
  exact fun k => finite k (by cases k <;> decide)

end Kind

/-- The most moves of a piece on a square: its leaps, or what it sees along its lines. -/
def freedom (own : Square → Option Kind) (occupied : Bitboard) (k : Kind) (s : Square) : Nat :=
  k.leaps + ∑ a : Axis, if k ∈ a.kinds then
    #(Axis.seen own occupied a false s) + #(Axis.seen own occupied a true s) else 0

theorem leaps_le_freedom (own : Square → Option Kind) (occupied : Bitboard) (k : Kind)
    (s : Square) : k.leaps ≤ freedom own occupied k s :=
  Nat.le_add_right ..

/-- A side has no more than a hundred moves besides the mobility of its pieces. -/
theorem census_freedom_le (own : Square → Option Kind) {occupied : Bitboard}
    (standing : ∀ s, own s ≠ none → s ∈ occupied) :
    census own (freedom own occupied) ≤ 100 + census own fun k _ => k.mobility := by
  have slides : census own (fun k s => ∑ a : Axis, if k ∈ a.kinds then
      #(Axis.seen own occupied a false s) + #(Axis.seen own occupied a true s) else 0) ≤
        ∑ a : Axis, (#(a.met own false) + #(a.met own true)) := by
    rw [census_sum]
    refine sum_le_sum fun a _ => ?_
    rw [census_runners, sum_add_distrib]
    exact Nat.add_le_add (Axis.sum_seen_le standing a false) (Axis.sum_seen_le standing a true)
  have met := two_mul_met_le own
  have covered := census_le own Kind.charge_le
  unfold freedom
  simp only [census_add, census_mul] at covered ⊢
  omega

end ChessEngine
