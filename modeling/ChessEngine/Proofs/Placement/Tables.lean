import ChessEngine.Position.Placement
import Mathlib.Logic.Function.Basic

/-!
# What a change of one square does to each table

`Placement.put` and `Placement.lift` are two uses of one change, `alter`, and
`relocate` is a lift followed by a put.  The lemmas here say entry by entry what
`alter` does to the index, the sets of squares and the tables, so that nothing
later has to open a placement again.
-/

namespace ChessEngine

theorem ByColor.get_update {α : Type} (t : ByColor α) (c d : Color) (f : α → α) :
    (t.update c f).get d = if d = c then f (t.get d) else t.get d := by
  by_cases same : d = c
  · rw [if_pos same, same, get_update_self]
  · rw [if_neg same, get_update_of_ne t f same]

theorem KindBoards.get_update (t : KindBoards) (k l : Kind) (f : Bitboard → Bitboard) :
    (t.update k f).get l = if l = k then f (t.get l) else t.get l := by
  by_cases same : l = k
  · rw [if_pos same, same, get_update_self]
  · rw [if_neg same, get_update_of_ne t f same]

theorem ByColor.update_update {α : Type} (t : ByColor α) (c : Color) (f g : α → α) :
    (t.update c f).update c g = t.update c fun x => g (f x) := by
  cases c <;> rfl

theorem ByColor.update_congr {α : Type} {t : ByColor α} {c : Color} {f g : α → α}
    (same : f (t.get c) = g (t.get c)) : t.update c f = t.update c g := by
  refine ByColor.ext_get fun d => ?_
  rw [get_update, get_update]
  by_cases color : d = c
  · rw [if_pos color, if_pos color, color, same]
  · rw [if_neg color, if_neg color]

theorem KindBoards.ext_get {t u : KindBoards} (h : ∀ k, t.get k = u.get k) : t = u := by
  cases t
  cases u
  have pawn := h .pawn
  have knight := h .knight
  have bishop := h .bishop
  have rook := h .rook
  have queen := h .queen
  have king := h .king
  simp only [get] at pawn knight bishop rook queen king
  rw [pawn, knight, bishop, rook, queen, king]

/-- Toggling the squares of a step is leaving the one and entering the other. -/
theorem Bitboard.toggle_step {b : Bitboard} {origin target : Square} (left : origin ∈ b)
    (entered : ¬ target ∈ b) :
    b.toggle (.single origin ∪ .single target) = (b.erase origin).insert target := by
  refine Bitboard.ext_mem fun s => ?_
  simp only [mem_toggle, mem_union, mem_single, mem_insert, mem_erase]
  by_cases atOrigin : s = origin
  · subst atOrigin
    have apart : s ≠ target := fun same => entered (same ▸ left)
    simp [left, apart]
  · by_cases atTarget : s = target
    · subst atTarget
      simp [entered]
    · simp [atOrigin, atTarget]

namespace Placement

variable {p : Placement} {piece : Piece} {s : Square}

/-! ## Counting a pawn -/

theorem get_set {α : Type} {n : Nat} (table : Vector α n) (i j : Fin n) (x : α) :
    (table.set i x i.isLt).get j = if i = j then x else table.get j := by
  by_cases same : i = j
  · subst same
    rw [if_pos rfl]
    exact Vector.getElem_set_self i.isLt
  · rw [if_neg same]
    exact Vector.getElem_set_ne i.isLt j.isLt fun h => same (Fin.ext h)

theorem get_bump {n : Nat} (f : Nat → Nat) (table : Vector Nat n) (i j : Fin n) :
    (bump f table i).get j = if i = j then f (table.get j) else table.get j := by
  unfold bump
  rw [get_set]
  by_cases same : i = j
  · rw [if_pos same, if_pos same, same]
  · rw [if_neg same, if_neg same]

theorem get_foldl_bump_of_not_mem {n : Nat} {f : Nat → Nat} {j : Fin n} :
    ∀ {entries : List (Fin n)} {table : Vector Nat n}, j ∉ entries →
      (entries.foldl (bump f) table).get j = table.get j
  | [], _, _ => rfl
  | i :: entries, table, absent => by
      obtain ⟨apart, later⟩ := not_or.1 (List.mem_cons.not.1 absent)
      rw [List.foldl_cons, get_foldl_bump_of_not_mem later, get_bump, if_neg fun same =>
        apart same.symm]

/-- A list of different entries counts each of them once. -/
theorem get_foldl_bump_of_mem {n : Nat} {f : Nat → Nat} {j : Fin n} :
    ∀ {entries : List (Fin n)} {table : Vector Nat n}, entries.Nodup → j ∈ entries →
      (entries.foldl (bump f) table).get j = f (table.get j)
  | i :: entries, table, nodup, member => by
      obtain ⟨fresh, nodup⟩ := List.nodup_cons.1 nodup
      rw [List.foldl_cons]
      rcases List.mem_cons.1 member with rfl | later
      · rw [get_foldl_bump_of_not_mem fresh, get_bump, if_pos rfl]
      · have apart : i ≠ j := fun same => fresh (same ▸ later)
        rw [get_foldl_bump_of_mem nodup later, get_bump, if_neg apart]

theorem nodup_squares (b : Bitboard) : b.squares.Nodup :=
  (Bitboard.pairwise_squares b).imp fun less same => absurd less (by simp [same])

/-! ## One change for arrivals and departures -/

/-- Notes in the pawn tables and king squares that a piece came or left. -/
def note (p : Placement) (piece : Piece) (s : Square) (count : Nat → Nat)
    (king : Option Square) : Placement :=
  match piece.kind with
  | .pawn => p.countPawn count piece.color s
  | .king => { p with kings := p.kings.update piece.color fun _ => king }
  | _ => p

/-- Changes what is on a square by one piece, in every table. -/
def alter (p : Placement) (piece : Piece) (s : Square) (holder : Option Piece)
    (board : Bitboard → Bitboard) (value : Int) (count : Nat → Nat) (king : Option Square) :
    Placement :=
  (((p.setIndex s holder).updateBoards piece board).addMaterial piece.color value).note piece s
    count king

theorem put_eq_alter : p.put piece s =
    p.alter piece s (some piece) (·.insert s) piece.value (· + 1) (some s) := by
  rcases piece with ⟨c, k⟩
  cases k <;> rfl

theorem lift_eq_alter : p.lift piece s =
    p.alter piece s none (·.erase s) (-piece.value) (· - 1) none := by
  rcases piece with ⟨c, k⟩
  cases k <;> rfl

section Alter

variable {holder : Option Piece} {board : Bitboard → Bitboard} {value : Int}
  {count : Nat → Nat} {king : Option Square}

theorem pieceOn_alter : (p.alter piece s holder board value count king).pieceOn =
    Function.update p.pieceOn s holder := by
  have index : (p.alter piece s holder board value count king).index =
      p.index.set s holder s.isLt := by
    rcases piece with ⟨c, k⟩
    cases k <;> rfl
  funext t
  unfold pieceOn
  rw [index, get_set]
  by_cases same : s = t
  · rw [if_pos same, same, Function.update_self]
  · rw [if_neg same, Function.update_of_ne fun h => same h.symm]

theorem piecesOf_alter (c : Color) (k : Kind) :
    (p.alter piece s holder board value count king).piecesOf c k =
      if piece = ⟨c, k⟩ then board (p.piecesOf c k) else p.piecesOf c k := by
  have boards : (p.alter piece s holder board value count king).boards =
      p.boards.update piece.color fun t => t.update piece.kind board := by
    rcases piece with ⟨d, l⟩
    cases l <;> rfl
  unfold piecesOf
  rw [boards, ByColor.get_update]
  rcases piece with ⟨d, l⟩
  by_cases color : c = d
  · subst color
    rw [if_pos rfl, KindBoards.get_update]
    simp only [Piece.mk.injEq, true_and, eq_comm]
  · rw [if_neg color, if_neg fun same => color (congrArg Piece.color same).symm]

theorem occupied_alter (c : Color) :
    (p.alter piece s holder board value count king).occupied.get c =
      if c = piece.color then board (p.occupied.get c) else p.occupied.get c := by
  rw [← ByColor.get_update]
  rcases piece with ⟨d, l⟩
  cases l <;> rfl

theorem allOccupied_alter :
    (p.alter piece s holder board value count king).allOccupied = board p.allOccupied := by
  rcases piece with ⟨d, l⟩
  cases l <;> rfl

theorem material_alter (c : Color) :
    (p.alter piece s holder board value count king).material.get c =
      p.material.get c + if piece.color = c then value else 0 := by
  have material : (p.alter piece s holder board value count king).material =
      p.material.update piece.color (· + value) := by
    rcases piece with ⟨d, l⟩
    cases l <;> rfl
  rw [material, ByColor.get_update]
  by_cases same : c = piece.color
  · rw [if_pos same, if_pos same.symm]
  · rw [if_neg same, if_neg fun h => same h.symm, Int.add_zero]

/-- A pawn of side `d` changes the entries of its own side's table only. -/
theorem get_update_pawn {n : Nat} {tables : ByColor (Vector Nat n)}
    {change : Vector Nat n → Vector Nat n} {c d : Color} {j : Fin n} {touched : Prop}
    [Decidable touched]
    (entry : (change (tables.get c)).get j =
      if touched then count ((tables.get c).get j) else (tables.get c).get j) :
    ((tables.update d change).get c).get j =
      if (⟨d, .pawn⟩ : Piece) = ⟨c, .pawn⟩ ∧ touched then count ((tables.get c).get j)
      else (tables.get c).get j := by
  by_cases color : d = c
  · subst color
    rw [ByColor.get_update_self, entry]
    simp only [true_and]
  · rw [ByColor.get_update_of_ne _ _ fun same => color same.symm, if_neg]
    exact fun both => color (congrArg Piece.color both.1)

theorem pawnsOnFile_alter (c : Color) (f : Fin 8) :
    ((p.alter piece s holder board value count king).pawnsOnFile.get c).get f =
      if piece = ⟨c, .pawn⟩ ∧ s.file = f then count ((p.pawnsOnFile.get c).get f)
      else (p.pawnsOnFile.get c).get f := by
  rcases piece with ⟨d, l⟩
  cases l
  case pawn => exact get_update_pawn (get_bump _ _ _ _)
  all_goals
    rw [if_neg (by simp)]
    rfl

theorem pawnsOnRank_alter (c : Color) (r : Fin 8) :
    ((p.alter piece s holder board value count king).pawnsOnRank.get c).get r =
      if piece = ⟨c, .pawn⟩ ∧ s.rank = r then count ((p.pawnsOnRank.get c).get r)
      else (p.pawnsOnRank.get c).get r := by
  rcases piece with ⟨d, l⟩
  cases l
  case pawn => exact get_update_pawn (get_bump _ _ _ _)
  all_goals
    rw [if_neg (by simp)]
    rfl

theorem pawnControl_alter (c : Color) (t : Square) :
    ((p.alter piece s holder board value count king).pawnControl.get c).get t =
      if piece = ⟨c, .pawn⟩ ∧ t ∈ pawnAttacks c s then count ((p.pawnControl.get c).get t)
      else (p.pawnControl.get c).get t := by
  rcases piece with ⟨d, l⟩
  cases l
  case pawn =>
    have own : ((⟨d, .pawn⟩ : Piece) = ⟨c, .pawn⟩ ∧ t ∈ pawnAttacks c s) ↔
        ((⟨d, .pawn⟩ : Piece) = ⟨c, .pawn⟩ ∧ t ∈ pawnAttacks d s) :=
      and_congr_right fun same => by cases same; rfl
    simp only [own]
    refine get_update_pawn ?_
    by_cases attacked : t ∈ pawnAttacks d s
    · rw [if_pos attacked]
      exact get_foldl_bump_of_mem (nodup_squares _) (Bitboard.mem_squares.2 attacked)
    · rw [if_neg attacked]
      exact get_foldl_bump_of_not_mem fun listed => attacked (Bitboard.mem_squares.1 listed)
  all_goals
    rw [if_neg (by simp)]
    rfl

theorem kings_alter (c : Color) :
    (p.alter piece s holder board value count king).kings.get c =
      if piece = ⟨c, .king⟩ then king else p.kings.get c := by
  rcases piece with ⟨d, l⟩
  cases l
  case king =>
    show (p.kings.update d fun _ => king).get c = _
    rw [ByColor.get_update]
    simp only [Piece.mk.injEq, and_true, eq_comm]
  all_goals
    rw [if_neg (by simp)]
    rfl

end Alter

end Placement

end ChessEngine
