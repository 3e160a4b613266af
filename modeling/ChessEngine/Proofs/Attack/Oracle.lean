import ChessEngine.Proofs.Attack.Line
import ChessEngine.Proofs.Position.Safety

/-!
# The oracle and the generator agree

The oracle tells who attacks a square by reach and free lines, the generator
finds where a piece may go by following rays.  `attackSet` is what the generator
goes by, and on every placement that passes its audit the oracle answers with
exactly the pieces whose attack set has the square, in the order of probing.
-/

namespace ChessEngine

/-- The squares that a piece on `s` attacks, as the generator finds them. -/
def attackSet (occupied : Bitboard) (piece : Piece) (s : Square) : Bitboard :=
  match piece.kind with
  | .knight => knightAttacks s
  | .king => kingAttacks s
  | .pawn => pawnAttacks piece.color s
  | .bishop => bishopAttacks s occupied
  | .rook => rookAttacks s occupied
  | .queen => queenAttacks s occupied

namespace Placement

variable {p : Placement} {c : Color} {k : Kind} {s t : Square} {occupied : Bitboard}

/-- One piece attacks a square for the oracle if it does so for the generator. -/
theorem hits_iff : hits occupied c k t s = true ↔ t ∈ attackSet occupied ⟨c, k⟩ s := by
  cases k with
  | pawn | knight | king => exact Iff.rfl
  | bishop => simp only [hits, Bool.and_eq_true, attackSet, bishopAttacks_iff_reach]; rfl
  | rook => simp only [hits, Bool.and_eq_true, attackSet, rookAttacks_iff_reach]; rfl
  | queen => simp only [hits, Bool.and_eq_true, attackSet, queenAttacks_iff_reach]; rfl

theorem mem_probeOrder (k : Kind) : k ∈ probeOrder := by
  cases k <;> decide

theorem Tallied.isAttacked_iff (tallied : p.Tallied) : p.isAttacked t c = true ↔
    ∃ k s, p.pieceOn s = some ⟨c, k⟩ ∧ t ∈ attackSet p.allOccupied ⟨c, k⟩ s := by
  simp only [isAttacked, List.any_eq_true, mem_probeOrder, true_and, Bitboard.mem_squares,
    tallied.boards, hits_iff]

theorem Tallied.mem_attackers (tallied : p.Tallied) : (s, k) ∈ p.attackers t c ↔
    p.pieceOn s = some ⟨c, k⟩ ∧ t ∈ attackSet p.allOccupied ⟨c, k⟩ s := by
  rw [attackers, List.mem_flatMap]
  constructor
  · rintro ⟨l, -, listed⟩
    obtain ⟨origin, found, same⟩ := List.mem_map.1 listed
    cases same
    obtain ⟨stands, hit⟩ := List.mem_filter.1 found
    exact ⟨(tallied.boards c k s).1 (Bitboard.mem_squares.1 stands), hits_iff.1 hit⟩
  · rintro ⟨stands, attacked⟩
    refine ⟨k, mem_probeOrder k, List.mem_map_of_mem (List.mem_filter.2 ⟨?_, ?_⟩)⟩
    · exact Bitboard.mem_squares.2 ((tallied.boards c k s).2 stands)
    · exact hits_iff.2 attacked

theorem attackers_ne_nil_iff : p.attackers t c ≠ [] ↔ p.isAttacked t c = true := by
  simp only [attackers, isAttacked, ne_eq, List.flatMap_eq_nil_iff, List.map_eq_nil_iff,
    List.filter_eq_nil_iff, List.any_eq_true, not_forall, Classical.not_not, exists_prop]

/-- The order in which attackers are listed: by kind in the order of probing, then by square. -/
def Precedes (a b : Square × Kind) : Prop :=
  probeOrder.idxOf a.2 < probeOrder.idxOf b.2 ∨ a.2 = b.2 ∧ a.1 < b.1

theorem Precedes.ne {a b : Square × Kind} (precedes : Precedes a b) : a ≠ b := by
  rintro rfl
  rcases precedes with kind | ⟨-, square⟩
  · exact Nat.lt_irrefl _ kind
  · exact Nat.lt_irrefl _ square

theorem pairwise_attackers : (p.attackers t c).Pairwise Precedes := by
  rw [attackers, List.pairwise_flatMap]
  constructor
  · intro k _
    rw [List.pairwise_map]
    exact ((p.piecesOf c k).pairwise_squares.filter _).imp fun below => .inr ⟨rfl, below⟩
  · have probes : probeOrder.Pairwise fun k l => probeOrder.idxOf k < probeOrder.idxOf l := by
      decide
    refine probes.imp fun before a listed b listed' => .inl ?_
    obtain ⟨_, -, rfl⟩ := List.mem_map.1 listed
    obtain ⟨_, -, rfl⟩ := List.mem_map.1 listed'
    exact before

end Placement

namespace Position

/-- In a position that passes its audit a square is attacked exactly if it lies in the attack set of
some piece, and these pieces are listed, each once, by kind and square. -/
theorem attackers_of_audit [ZobristKeys] {p : Position} (audited : p.audit = .ok ()) (t : Square)
    (c : Color) :
    (p.placement.isAttacked t c = true ↔
      ∃ k s, p.pieceOn s = some ⟨c, k⟩ ∧ t ∈ attackSet p.occupied ⟨c, k⟩ s) ∧
    (∀ s k, (s, k) ∈ p.placement.attackers t c ↔
      p.pieceOn s = some ⟨c, k⟩ ∧ t ∈ attackSet p.occupied ⟨c, k⟩ s) ∧
    (p.placement.attackers t c).Nodup ∧
    (p.placement.attackers t c).Pairwise Placement.Precedes ∧
    (p.placement.attackers t c ≠ [] ↔ p.placement.isAttacked t c = true) := by
  obtain ⟨⟨⟩, placement, -⟩ := bind_eq_ok audited
  have tallied := Placement.tallied_of_audit placement
  refine ⟨tallied.isAttacked_iff, fun s k => tallied.mem_attackers, ?_,
    Placement.pairwise_attackers, Placement.attackers_ne_nil_iff⟩
  exact Placement.pairwise_attackers.imp Placement.Precedes.ne

/-- At the end of the rehearsal queen and rook both look at f3. -/
theorem attackers_of_audit_rehearsal : Rehearsal.last.audit = .ok () ∧
    (56, .queen) ∈ Rehearsal.last.placement.attackers 21 .white ∧
    (5, .rook) ∈ Rehearsal.last.placement.attackers 21 .white ∧
    Rehearsal.last.placement.isAttacked 21 .white = true := by
  have audited := Rehearsal.reachable_last.grounded.firm.consistent.audit
  obtain ⟨-, listed, -, -, attacked⟩ := attackers_of_audit audited 21 .white
  have queen := (listed 56 .queen).2 (by decide +kernel)
  have rook := (listed 5 .rook).2 (by decide +kernel)
  exact ⟨audited, queen, rook, attacked.1 (List.ne_nil_of_mem queen)⟩

end Position

end ChessEngine
