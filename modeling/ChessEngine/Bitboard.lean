import ChessEngine.Square

/-!
# Sets of squares as machine words

A `Bitboard` is a set of squares held in one 64-bit word, square `s` being a
member when bit `s` is set.  Its one view is membership: each operation below
has a lemma that says what it does to the members, and `mem_squares` says the
same of the ascending list of members.
-/

namespace ChessEngine

/-- A set of squares. -/
structure Bitboard where
  bits : UInt64
deriving DecidableEq

namespace Bitboard

/-- Whether bit `s` is set. -/
def contains (b : Bitboard) (s : Square) : Bool :=
  (b.bits >>> UInt64.ofNat s.val) &&& 1 != 0

instance : Membership Square Bitboard := ⟨fun b s => b.contains s = true⟩

instance (s : Square) (b : Bitboard) : Decidable (s ∈ b) :=
  inferInstanceAs (Decidable (b.contains s = true))

instance : EmptyCollection Bitboard := ⟨⟨0⟩⟩

instance : Union Bitboard := ⟨fun a b => ⟨a.bits ||| b.bits⟩⟩

instance : Inter Bitboard := ⟨fun a b => ⟨a.bits &&& b.bits⟩⟩

instance : SDiff Bitboard := ⟨fun a b => ⟨a.bits &&& ~~~b.bits⟩⟩

/-- The set of one square. -/
def single (s : Square) : Bitboard := ⟨1 <<< UInt64.ofNat s.val⟩

/-- Whether there is no member. -/
def isEmpty (b : Bitboard) : Bool := b.bits == 0

/-- Adds a member. -/
def insert (b : Bitboard) (s : Square) : Bitboard := b ∪ single s

/-- Drops a member. -/
def erase (b : Bitboard) (s : Square) : Bitboard := b \ single s

/-- Changes the membership of every square of `a`. -/
def toggle (b a : Bitboard) : Bitboard := ⟨b.bits ^^^ a.bits⟩

/-- Whether the two sets share a member. -/
def meets (a b : Bitboard) : Bool := a.bits &&& b.bits != 0

/-- The set with the listed members. -/
def ofList (squares : List Square) : Bitboard :=
  squares.foldl insert ∅

/-- The set of the squares that satisfy `p`. -/
def ofPred (p : Square → Bool) : Bitboard :=
  ofList (Square.all.filter p)

/-- The members below `n`, ascending, in front of `found`. -/
def squaresBelow (b : Bitboard) : (n : Nat) → n ≤ 64 → List Square → List Square
  | 0, _, found => found
  | n + 1, h, found =>
    let s : Square := ⟨n, h⟩
    squaresBelow b n (Nat.le_of_succ_le h) (if b.contains s then s :: found else found)

/-- The members in ascending order. -/
def squares (b : Bitboard) : List Square :=
  if b.isEmpty then [] else squaresBelow b 64 (Nat.le_refl 64) []

/-! ## Membership -/

theorem mem_def {s : Square} {b : Bitboard} : s ∈ b ↔ b.contains s = true := Iff.rfl

/-- Membership is the bit of the word. -/
theorem mem_iff {s : Square} {b : Bitboard} :
    s ∈ b ↔ b.bits.toBitVec.getLsbD s.val = true := by
  have hs : s.val % 64 = s.val := Nat.mod_eq_of_lt s.isLt
  have hbit : (b.bits >>> UInt64.ofNat s.val &&& 1).toBitVec.getLsbD 0 =
      b.bits.toBitVec.getLsbD s.val := by
    simp [hs]
  rw [mem_def, contains, bne_iff_ne, ne_eq, ← UInt64.toBitVec_inj, ← hbit]
  constructor
  · intro h
    by_cases hb : (b.bits >>> UInt64.ofNat s.val &&& 1).toBitVec.getLsbD 0 = true
    · exact hb
    · refine absurd (BitVec.eq_of_getLsbD_eq fun i _ => ?_) h
      by_cases hz : i = 0
      · subst hz
        simpa using hb
      · simp [hz, BitVec.getLsbD_one]
  · intro hb h
    rw [h] at hb
    simp at hb

/-- Two sets with the same members are equal. -/
theorem ext_mem {a b : Bitboard} (h : ∀ s : Square, s ∈ a ↔ s ∈ b) : a = b := by
  obtain ⟨x⟩ := a
  obtain ⟨y⟩ := b
  congr 1
  rw [← UInt64.toBitVec_inj]
  refine BitVec.eq_of_getLsbD_eq fun i hi => ?_
  have := h ⟨i, hi⟩
  rw [mem_iff, mem_iff] at this
  exact Bool.eq_iff_iff.2 this

@[simp] theorem not_mem_empty (s : Square) : ¬ s ∈ (∅ : Bitboard) := by
  rw [mem_iff]
  show ¬ (0 : UInt64).toBitVec.getLsbD s.val = true
  simp

@[simp] theorem mem_union {s : Square} {a b : Bitboard} : s ∈ a ∪ b ↔ s ∈ a ∨ s ∈ b := by
  rw [mem_iff, mem_iff, mem_iff]
  show (a.bits ||| b.bits).toBitVec.getLsbD s.val = true ↔ _
  simp only [UInt64.toBitVec_or, BitVec.getLsbD_or, Bool.or_eq_true]

@[simp] theorem mem_inter {s : Square} {a b : Bitboard} : s ∈ a ∩ b ↔ s ∈ a ∧ s ∈ b := by
  rw [mem_iff, mem_iff, mem_iff]
  show (a.bits &&& b.bits).toBitVec.getLsbD s.val = true ↔ _
  simp only [UInt64.toBitVec_and, BitVec.getLsbD_and, Bool.and_eq_true]

@[simp] theorem mem_sdiff {s : Square} {a b : Bitboard} : s ∈ a \ b ↔ s ∈ a ∧ ¬ s ∈ b := by
  rw [mem_iff, mem_iff, mem_iff]
  show (a.bits &&& ~~~b.bits).toBitVec.getLsbD s.val = true ↔ _
  simp [s.isLt]

@[simp] theorem mem_single {s t : Square} : s ∈ single t ↔ s = t := by
  have ht : t.val % 64 = t.val := Nat.mod_eq_of_lt t.isLt
  rw [mem_iff]
  show ((1 : UInt64) <<< UInt64.ofNat t.val).toBitVec.getLsbD s.val = true ↔ _
  have hs := s.isLt
  rw [Fin.ext_iff]
  simp [ht]
  omega

@[simp] theorem mem_toggle {s : Square} {a b : Bitboard} :
    s ∈ b.toggle a ↔ ¬ (s ∈ b ↔ s ∈ a) := by
  rw [mem_iff, mem_iff, mem_iff]
  show (b.bits ^^^ a.bits).toBitVec.getLsbD s.val = true ↔ _
  simp only [UInt64.toBitVec_xor, BitVec.getLsbD_xor]
  cases b.bits.toBitVec.getLsbD s.val <;> cases a.bits.toBitVec.getLsbD s.val <;> simp

@[simp] theorem mem_insert {s t : Square} {b : Bitboard} : s ∈ b.insert t ↔ s ∈ b ∨ s = t := by
  simp [insert]

@[simp] theorem mem_erase {s t : Square} {b : Bitboard} : s ∈ b.erase t ↔ s ∈ b ∧ s ≠ t := by
  simp [erase]

theorem isEmpty_iff {b : Bitboard} : b.isEmpty = true ↔ ∀ s : Square, ¬ s ∈ b := by
  constructor
  · intro h s
    have hb : b = ∅ := by
      obtain ⟨x⟩ := b
      exact congrArg Bitboard.mk (beq_iff_eq.1 h)
    rw [hb]
    exact not_mem_empty s
  · intro h
    have hb : b = ∅ := ext_mem fun s => by simp [h s]
    rw [hb]
    rfl

theorem meets_iff {a b : Bitboard} : a.meets b = true ↔ ∃ s : Square, s ∈ a ∧ s ∈ b := by
  have h : a.meets b = !(a ∩ b).isEmpty := rfl
  rw [h, Bool.not_eq_true', ← Bool.not_eq_true, isEmpty_iff]
  simp

theorem mem_foldl_insert {s : Square} (l : List Square) (b : Bitboard) :
    s ∈ l.foldl insert b ↔ s ∈ b ∨ s ∈ l := by
  induction l generalizing b with
  | nil => simp
  | cons t l ih => simp [ih, or_assoc]

@[simp] theorem mem_ofList {s : Square} {l : List Square} : s ∈ ofList l ↔ s ∈ l := by
  simp [ofList, mem_foldl_insert]

@[simp] theorem mem_ofPred {s : Square} {p : Square → Bool} : s ∈ ofPred p ↔ p s = true := by
  simp [ofPred, Square.all]

/-! ## The ascending list of members -/

theorem mem_squaresBelow {s : Square} (b : Bitboard) (n : Nat) (h : n ≤ 64)
    (found : List Square) :
    s ∈ squaresBelow b n h found ↔ (s.val < n ∧ s ∈ b) ∨ s ∈ found := by
  induction n generalizing found with
  | zero => simp [squaresBelow]
  | succ n ih =>
    rw [squaresBelow, ih]
    by_cases hs : s = ⟨n, h⟩
    · subst hs
      by_cases hb : b.contains ⟨n, h⟩ = true <;> simp [hb, mem_def]
    · have hv : s.val < n + 1 ↔ s.val < n := by
        have : s.val ≠ n := fun e => hs (Fin.ext e)
        omega
      rw [hv]
      by_cases hb : b.contains ⟨n, h⟩ = true <;> simp [hb, hs]

@[simp] theorem mem_squares {s : Square} {b : Bitboard} : s ∈ b.squares ↔ s ∈ b := by
  rw [squares]
  by_cases h : b.isEmpty = true
  · simp [h, isEmpty_iff.1 h s]
  · simp [h, mem_squaresBelow, s.isLt]

theorem pairwise_squaresBelow (b : Bitboard) (n : Nat) (h : n ≤ 64) (found : List Square)
    (hf : found.Pairwise (· < ·)) (hn : ∀ t ∈ found, n ≤ t.val) :
    (squaresBelow b n h found).Pairwise (· < ·) := by
  induction n generalizing found with
  | zero => simpa [squaresBelow] using hf
  | succ n ih =>
    rw [squaresBelow]
    refine ih _ _ ?_ ?_
    · by_cases hb : b.contains ⟨n, h⟩ = true
      · simp only [hb, if_true]
        exact List.pairwise_cons.2 ⟨fun t ht => hn t ht, hf⟩
      · simpa [hb] using hf
    · intro t ht
      by_cases hb : b.contains ⟨n, h⟩ = true
      · simp only [hb, if_true, List.mem_cons] at ht
        rcases ht with rfl | ht
        · exact Nat.le_refl n
        · exact Nat.le_of_succ_le (hn t ht)
      · simp only [hb, Bool.false_eq_true, if_false] at ht
        exact Nat.le_of_succ_le (hn t ht)

/-- The members are listed in ascending order, each once. -/
theorem pairwise_squares (b : Bitboard) : b.squares.Pairwise (· < ·) := by
  rw [squares]
  split
  · exact List.Pairwise.nil
  · exact pairwise_squaresBelow b 64 _ [] List.Pairwise.nil (by simp)

end Bitboard

end ChessEngine
