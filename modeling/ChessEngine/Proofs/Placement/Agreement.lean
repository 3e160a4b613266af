import ChessEngine.Position.Audit
import ChessEngine.Proofs.Placement.Tables
import ChessEngine.Proofs.Placement.Totals

/-!
# Placements whose tables agree with their index

`Tallied` says that sets, material and pawn tables are what the index of squares
makes them, `KingsNoted` says it of the king squares.  The two are apart because
a king square can only be kept by a side with at most one king, and everything
else has no such condition.  Both are kept by every change that respects its
precondition, and a placement that has both is determined by its index
(`eq_of_pieceOn`).
-/

namespace ChessEngine

namespace Placement

/-- Everything but the king squares is what the index makes it. -/
structure Tallied (p : Placement) : Prop where
  boards : ∀ c k s, s ∈ p.piecesOf c k ↔ p.pieceOn s = some ⟨c, k⟩
  occupied : ∀ c s, s ∈ p.occupied.get c ↔ ∃ k, p.pieceOn s = some ⟨c, k⟩
  allOccupied : ∀ s, s ∈ p.allOccupied ↔ p.pieceOn s ≠ none
  material : ∀ c, p.material.get c = p.countedMaterial c
  onFile : ∀ c f, (p.pawnsOnFile.get c).get f = p.countedOnFile c f
  onRank : ∀ c r, (p.pawnsOnRank.get c).get r = p.countedOnRank c r
  control : ∀ c t, (p.pawnControl.get c).get t = p.countedControl c t

/-- Each king square is where the index has that king, and there is no second one. -/
def KingsNoted (p : Placement) : Prop :=
  ∀ c s, p.kings.get c = some s ↔ p.pieceOn s = some ⟨c, .king⟩

variable {p q : Placement} {piece : Piece} {s t : Square}

theorem pieceOn_put : (p.put piece s).pieceOn = Function.update p.pieceOn s (some piece) := by
  rw [put_eq_alter, pieceOn_alter]

theorem pieceOn_lift : (p.lift piece s).pieceOn = Function.update p.pieceOn s none := by
  rw [lift_eq_alter, pieceOn_alter]

/-! ## What the index counts after a change -/

theorem countedMaterial_put (empty : p.pieceOn s = none) (c : Color) :
    (p.put piece s).countedMaterial c =
      p.countedMaterial c + if piece.color = c then piece.value else 0 := by
  have total := Square.sum_exchange (f := p.valueOn c) (g := (p.put piece s).valueOn c) (s := s)
    fun t other => by rw [valueOn, valueOn, pieceOn_put, Function.update_of_ne other]
  have before : p.valueOn c s = 0 := by rw [valueOn, empty]
  have after : (p.put piece s).valueOn c s = if piece.color = c then piece.value else 0 := by
    rw [valueOn, pieceOn_put, Function.update_self]
  rw [before, after, Int.add_zero] at total
  exact total

theorem countedMaterial_lift (held : p.pieceOn s = some piece) (c : Color) :
    (p.lift piece s).countedMaterial c =
      p.countedMaterial c + if piece.color = c then -piece.value else 0 := by
  have total := Square.sum_exchange (f := p.valueOn c) (g := (p.lift piece s).valueOn c) (s := s)
    fun t other => by rw [valueOn, valueOn, pieceOn_lift, Function.update_of_ne other]
  have before : p.valueOn c s = if piece.color = c then piece.value else 0 := by
    rw [valueOn, held]
  have after : (p.lift piece s).valueOn c s = 0 := by
    rw [valueOn, pieceOn_lift, Function.update_self]
  rw [before, after] at total
  unfold countedMaterial
  by_cases own : piece.color = c
  · rw [if_pos own] at total ⊢
    omega
  · rw [if_neg own] at total ⊢
    omega

/-- The squares that hold a given piece and satisfy `counted`, after a piece was put on an empty
square. -/
theorem countP_holds_put (piece : Piece) (empty : p.pieceOn s = none) (other : Piece)
    (counted : Square → Bool) :
    Square.all.countP (fun t => (p.put piece s).holds other t && counted t) =
      Square.all.countP (fun t => p.holds other t && counted t) +
        if piece = other ∧ counted s = true then 1 else 0 := by
  have total := Square.countP_exchange (s := s)
    (f := fun t => p.holds other t && counted t)
    (g := fun t => (p.put piece s).holds other t && counted t)
    fun t apart => by rw [holds, holds, pieceOn_put, Function.update_of_ne apart]
  simpa [holds, empty, pieceOn_put] using total

/-- The same squares before a piece was lifted. -/
theorem countP_holds_lift (held : p.pieceOn s = some piece) (other : Piece)
    (counted : Square → Bool) :
    Square.all.countP (fun t => p.holds other t && counted t) =
      Square.all.countP (fun t => (p.lift piece s).holds other t && counted t) +
        if piece = other ∧ counted s = true then 1 else 0 := by
  have total := Square.countP_exchange (s := s)
    (f := fun t => p.holds other t && counted t)
    (g := fun t => (p.lift piece s).holds other t && counted t)
    fun t apart => by rw [holds, holds, pieceOn_lift, Function.update_of_ne apart]
  simpa [holds, held, pieceOn_lift] using total.symm

/-! ## Putting and lifting a piece -/

theorem Tallied.put (tallied : p.Tallied) (empty : p.pieceOn s = none) :
    (p.put piece s).Tallied where
  boards c k t := by
    rw [put_eq_alter, piecesOf_alter, pieceOn_alter]
    by_cases same : t = s
    · subst same
      rw [Function.update_self]
      by_cases held : piece = ⟨c, k⟩
      · simp [held]
      · simp [held, tallied.boards, empty]
    · rw [Function.update_of_ne same, ← tallied.boards]
      split <;> simp [same]
  occupied c t := by
    rw [put_eq_alter, occupied_alter, pieceOn_alter]
    by_cases same : t = s
    · subst same
      rw [Function.update_self]
      rcases piece with ⟨d, l⟩
      by_cases color : c = d
      · simp [color]
      · simp [color, tallied.occupied, empty, eq_comm]
    · rw [Function.update_of_ne same, ← tallied.occupied]
      split <;> simp [same]
  allOccupied t := by
    rw [put_eq_alter, allOccupied_alter, pieceOn_alter]
    by_cases same : t = s
    · simp [same]
    · simp [same, tallied.allOccupied]
  material c := by
    rw [countedMaterial_put empty, ← tallied.material, put_eq_alter, material_alter]
  onFile c f := by
    have counted := countP_holds_put piece empty ⟨c, .pawn⟩ fun t => t.file == f
    unfold countedOnFile
    rw [counted, put_eq_alter, pawnsOnFile_alter, tallied.onFile]
    simp only [beq_iff_eq]
    split <;> rfl
  onRank c r := by
    have counted := countP_holds_put piece empty ⟨c, .pawn⟩ fun t => t.rank == r
    unfold countedOnRank
    rw [counted, put_eq_alter, pawnsOnRank_alter, tallied.onRank]
    simp only [beq_iff_eq]
    split <;> rfl
  control c t := by
    have counted := countP_holds_put piece empty ⟨c, .pawn⟩
      fun s => (pawnAttacks c s).contains t
    unfold countedControl
    rw [counted, put_eq_alter, pawnControl_alter, tallied.control]
    simp only [← Bitboard.mem_def]
    split <;> rfl

theorem Tallied.lift (tallied : p.Tallied) (held : p.pieceOn s = some piece) :
    (p.lift piece s).Tallied where
  boards c k t := by
    rw [lift_eq_alter, piecesOf_alter, pieceOn_alter]
    by_cases same : t = s
    · subst same
      rw [Function.update_self]
      by_cases own : piece = ⟨c, k⟩
      · simp [own]
      · simp [own, tallied.boards, held]
    · rw [Function.update_of_ne same, ← tallied.boards]
      split <;> simp [same]
  occupied c t := by
    rw [lift_eq_alter, occupied_alter, pieceOn_alter]
    by_cases same : t = s
    · subst same
      rw [Function.update_self]
      rcases piece with ⟨d, l⟩
      by_cases color : c = d
      · simp [color]
      · simp [color, tallied.occupied, held, eq_comm]
    · rw [Function.update_of_ne same, ← tallied.occupied]
      split <;> simp [same]
  allOccupied t := by
    rw [lift_eq_alter, allOccupied_alter, pieceOn_alter]
    by_cases same : t = s
    · simp [same]
    · simp [same, tallied.allOccupied]
  material c := by
    rw [countedMaterial_lift held, ← tallied.material, lift_eq_alter, material_alter]
  onFile c f := by
    have counted := countP_holds_lift held ⟨c, .pawn⟩ fun t => t.file == f
    rw [lift_eq_alter, pawnsOnFile_alter, tallied.onFile, countedOnFile, counted, countedOnFile]
    simp only [beq_iff_eq]
    split <;> rfl
  onRank c r := by
    have counted := countP_holds_lift held ⟨c, .pawn⟩ fun t => t.rank == r
    rw [lift_eq_alter, pawnsOnRank_alter, tallied.onRank, countedOnRank, counted, countedOnRank]
    simp only [beq_iff_eq]
    split <;> rfl
  control c t := by
    have counted := countP_holds_lift held ⟨c, .pawn⟩ fun s => (pawnAttacks c s).contains t
    rw [lift_eq_alter, pawnControl_alter, tallied.control, countedControl, counted, countedControl]
    simp only [← Bitboard.mem_def]
    split <;> rfl

theorem KingsNoted.put (noted : p.KingsNoted) (empty : p.pieceOn s = none)
    (alone : piece.kind = .king → p.kings.get piece.color = none) : (p.put piece s).KingsNoted := by
  intro c t
  rw [put_eq_alter, kings_alter, pieceOn_alter]
  by_cases own : piece = ⟨c, .king⟩
  · subst own
    have absent : p.pieceOn t ≠ some ⟨c, .king⟩ := fun held => by
      have none := alone rfl
      rw [(noted c t).2 held] at none
      cases none
    by_cases same : t = s
    · simp [same]
    · rw [if_pos rfl, Function.update_of_ne same]
      simp [absent, Ne.symm same]
  · rw [if_neg own, noted c t]
    by_cases same : t = s
    · subst same
      simp [empty, own]
    · rw [Function.update_of_ne same]

theorem KingsNoted.lift (noted : p.KingsNoted) (held : p.pieceOn s = some piece) :
    (p.lift piece s).KingsNoted := by
  intro c t
  rw [lift_eq_alter, kings_alter, pieceOn_alter]
  by_cases own : piece = ⟨c, .king⟩
  · subst own
    have only : p.pieceOn t = some ⟨c, .king⟩ → t = s := fun other =>
      Option.some.inj (((noted c t).2 other).symm.trans ((noted c s).2 held))
    by_cases same : t = s
    · simp [same]
    · rw [if_pos rfl, Function.update_of_ne same]
      simp only [reduceCtorEq, false_iff]
      exact fun other => same (only other)
  · rw [if_neg own, noted c t]
    by_cases same : t = s
    · subst same
      simp [held, own]
    · rw [Function.update_of_ne same]

/-! ## Moving a piece -/

/-- The one update of a relocation amounts to a lift followed by a put. -/
theorem relocate_eq_put_lift (tallied : p.Tallied) (held : p.pieceOn s = some piece)
    (empty : p.pieceOn t = none) : p.relocate piece s t = (p.lift piece s).put piece t := by
  have step : ∀ b : Bitboard, s ∈ b → ¬ t ∈ b →
      b.toggle (.single s ∪ .single t) = (b.erase s).insert t :=
    fun _ => Bitboard.toggle_step
  have boards : (p.boards.update piece.color fun u =>
        u.update piece.kind (·.toggle (.single s ∪ .single t))) =
      (p.boards.update piece.color fun u => u.update piece.kind (·.erase s)).update piece.color
        fun u => u.update piece.kind (·.insert t) := by
    rw [ByColor.update_update]
    refine ByColor.update_congr (KindBoards.ext_get fun k => ?_)
    simp only [KindBoards.get_update]
    by_cases kind : k = piece.kind
    · subst kind
      simp only [if_true]
      exact step _ ((tallied.boards piece.color piece.kind s).2 held) fun member => by
        have other := (tallied.boards piece.color piece.kind t).1 member
        rw [empty] at other
        cases other
    · simp only [if_neg kind]
  have occupied : p.occupied.update piece.color (·.toggle (.single s ∪ .single t)) =
      (p.occupied.update piece.color (·.erase s)).update piece.color (·.insert t) := by
    rw [ByColor.update_update]
    refine ByColor.update_congr (step _ ((tallied.occupied _ s).2 ⟨_, held⟩) fun member => ?_)
    obtain ⟨k, other⟩ := (tallied.occupied _ t).1 member
    rw [empty] at other
    cases other
  have all : p.allOccupied.toggle (.single s ∪ .single t) = (p.allOccupied.erase s).insert t := by
    refine step _ ((tallied.allOccupied s).2 ?_) fun member =>
      (tallied.allOccupied t).1 member empty
    rw [held]
    exact Option.some_ne_none piece
  have material : (p.material.update piece.color (· + -piece.value)).update piece.color
      (· + piece.value) = p.material := by
    refine ByColor.ext_get fun c => ?_
    simp only [ByColor.get_update]
    split <;> omega
  rcases piece with ⟨c, k⟩
  cases k
  all_goals
    simp only [relocate, put, lift, arrive, leave, countPawn, updateBoards, setIndex, addMaterial,
      boards, occupied, all, material]

/-! ## The empty board -/

theorem pieceOn_empty (s : Square) : empty.pieceOn s = none := by
  simp [pieceOn, empty]

theorem Tallied.empty : Placement.empty.Tallied := by
  have value : ∀ c, Placement.empty.valueOn c = fun _ => 0 := fun c =>
    funext fun s => by rw [valueOn, pieceOn_empty]
  have count : ∀ (piece : Piece) (counted : Square → Bool),
      Square.all.countP (fun s => Placement.empty.holds piece s && counted s) = 0 :=
    fun piece counted => List.countP_eq_zero.2 fun s _ => by simp [holds, pieceOn_empty]
  constructor
  case boards =>
    intro c k s
    have none : Placement.empty.piecesOf c k = ∅ := by cases c <;> cases k <;> rfl
    simp [none, pieceOn_empty]
  case occupied =>
    intro c s
    simp [Placement.empty, pieceOn]
  case allOccupied =>
    intro s
    simp [Placement.empty, pieceOn]
  case material =>
    intro c
    rw [countedMaterial, value]
    simp [Placement.empty]
  case onFile =>
    intro c f
    rw [countedOnFile, count]
    simp [Placement.empty]
  case onRank =>
    intro c r
    rw [countedOnRank, count]
    simp [Placement.empty]
  case control =>
    intro c t
    rw [countedControl, count]
    simp [Placement.empty]

theorem KingsNoted.empty : Placement.empty.KingsNoted := by
  intro c s
  simp [Placement.empty, pieceOn]

/-! ## The index determines the placement -/

theorem eq_of_pieceOn (tallied : p.Tallied) (noted : p.KingsNoted) (tallied' : q.Tallied)
    (noted' : q.KingsNoted) (same : p.pieceOn = q.pieceOn) : p = q := by
  have boards : p.boards = q.boards :=
    ByColor.ext_get fun c => KindBoards.ext_get fun k => Bitboard.ext_mem fun s => by
      have left := tallied.boards c k s
      rw [same, ← tallied'.boards] at left
      exact left
  have occupied : p.occupied = q.occupied :=
    ByColor.ext_get fun c => Bitboard.ext_mem fun s => by
      rw [tallied.occupied, same, tallied'.occupied]
  have all : p.allOccupied = q.allOccupied :=
    Bitboard.ext_mem fun s => by rw [tallied.allOccupied, same, tallied'.allOccupied]
  have index : p.index = q.index := Vector.ext fun i h => congrFun same ⟨i, h⟩
  have holds : ∀ piece, p.holds piece = q.holds piece := fun piece =>
    funext fun s => by rw [Placement.holds, Placement.holds, same]
  have material : p.material = q.material := ByColor.ext_get fun c => by
    have values : p.valueOn c = q.valueOn c := funext fun s => by rw [valueOn, valueOn, same]
    rw [tallied.material, tallied'.material, countedMaterial, countedMaterial, values]
  have onFile : p.pawnsOnFile = q.pawnsOnFile :=
    ByColor.ext_get fun c => Vector.ext fun i h => by
      have left := tallied.onFile c ⟨i, h⟩
      rw [countedOnFile, holds] at left
      exact left.trans (tallied'.onFile c ⟨i, h⟩).symm
  have onRank : p.pawnsOnRank = q.pawnsOnRank :=
    ByColor.ext_get fun c => Vector.ext fun i h => by
      have left := tallied.onRank c ⟨i, h⟩
      rw [countedOnRank, holds] at left
      exact left.trans (tallied'.onRank c ⟨i, h⟩).symm
  have control : p.pawnControl = q.pawnControl :=
    ByColor.ext_get fun c => Vector.ext fun i h => by
      have left := tallied.control c ⟨i, h⟩
      rw [countedControl, holds] at left
      exact left.trans (tallied'.control c ⟨i, h⟩).symm
  have kings : p.kings = q.kings := ByColor.ext_get fun c => by
    refine Option.ext fun s => ?_
    rw [noted, same, ← noted']
  cases p
  cases q
  simp only at boards occupied all index material onFile onRank control kings
  rw [boards, occupied, all, index, material, onFile, onRank, control, kings]

end Placement

end ChessEngine
