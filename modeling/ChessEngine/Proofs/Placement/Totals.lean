import ChessEngine.Square
import Mathlib.Data.List.Basic

/-!
# Totals over the board when one square changes

Material, pawn counts and hashes are totals over all squares: each square
contributes what stands on it.  `foldl_exchange` relates the totals of two
boards that differ on one square only, and the three lemmas after it say so of
sums, of counts and of exclusive ors.  Nothing is subtracted, so the counts need
no lower bound.
-/

namespace ChessEngine

section Fold

variable {α β : Type} {op : β → β → β} [Std.Associative op] [Std.Commutative op]

theorem foldl_op_start {f : α → β} {x : β} :
    ∀ {l : List α} {start : β},
      l.foldl (fun total t => op total (f t)) (op start x) =
        op (l.foldl (fun total t => op total (f t)) start) x
  | [], _ => rfl
  | t :: l, start => by
      have swap : op (op start x) (f t) = op (op start (f t)) x := by ac_rfl
      rw [List.foldl_cons, swap, foldl_op_start, List.foldl_cons]

/-- Two totals whose terms differ at `s` only: each makes up for the other's
term. -/
theorem foldl_exchange {f g : α → β} {s : α} (agree : ∀ t, t ≠ s → g t = f t) :
    ∀ {l : List α} {start : β}, l.Nodup → s ∈ l →
      op (l.foldl (fun total t => op total (g t)) start) (f s) =
        op (l.foldl (fun total t => op total (f t)) start) (g s)
  | [], _, _, member => by cases member
  | t :: l, start, nodup, member => by
      obtain ⟨fresh, nodup⟩ := List.nodup_cons.1 nodup
      rw [List.foldl_cons, List.foldl_cons]
      by_cases here : t = s
      · subst here
        have rest : l.foldl (fun total t => op total (g t)) start =
            l.foldl (fun total t => op total (f t)) start :=
          List.foldl_ext _ _ _ fun total u later =>
            congrArg (op total) (agree u fun same => fresh (same ▸ later))
        rw [foldl_op_start, foldl_op_start, rest]
        ac_rfl
      · have later : s ∈ l := (List.mem_cons.1 member).resolve_left fun same => here same.symm
        rw [agree t here]
        exact foldl_exchange agree nodup later

end Fold

/-- A key taken out of a hash makes room for another. -/
theorem xor_replace (hash old new : UInt64) : hash ^^^ old ^^^ old ^^^ new = hash ^^^ new := by
  rw [UInt64.xor_assoc hash, UInt64.xor_self, UInt64.xor_zero]

namespace Square

theorem mem_all (s : Square) : s ∈ all := List.mem_finRange s

theorem nodup_all : all.Nodup := List.nodup_finRange 64

theorem sum_exchange {f g : Square → Int} {s : Square} (agree : ∀ t, t ≠ s → g t = f t) :
    all.foldl (fun total t => total + g t) 0 + f s =
      all.foldl (fun total t => total + f t) 0 + g s :=
  foldl_exchange agree nodup_all (mem_all s)

theorem xor_exchange {f g : Square → UInt64} {s : Square} (agree : ∀ t, t ≠ s → g t = f t) :
    all.foldl (fun hash t => hash ^^^ g t) 0 ^^^ f s =
      all.foldl (fun hash t => hash ^^^ f t) 0 ^^^ g s :=
  haveI : Std.Associative (fun a b : UInt64 => a ^^^ b) := ⟨UInt64.xor_assoc⟩
  haveI : Std.Commutative (fun a b : UInt64 => a ^^^ b) := ⟨UInt64.xor_comm⟩
  foldl_exchange agree nodup_all (mem_all s)

theorem countP_eq_foldl (f : Square → Bool) :
    ∀ (l : List Square) (start : Nat),
      start + l.countP f = l.foldl (fun total t => total + if f t = true then 1 else 0) start
  | [], _ => rfl
  | t :: l, start => by
      rw [List.foldl_cons, ← countP_eq_foldl f l, List.countP_cons, Nat.add_assoc,
        Nat.add_comm (l.countP f)]

theorem countP_exchange {f g : Square → Bool} {s : Square} (agree : ∀ t, t ≠ s → g t = f t) :
    (all.countP g + if f s = true then 1 else 0) =
      all.countP f + if g s = true then 1 else 0 := by
  have counted := countP_eq_foldl
  rw [← Nat.zero_add (all.countP g), ← Nat.zero_add (all.countP f), counted, counted]
  have terms : ∀ t, t ≠ s → (if g t = true then 1 else 0) = if f t = true then 1 else 0 :=
    fun t other => by rw [agree t other]
  exact foldl_exchange terms nodup_all (mem_all s)

end Square

end ChessEngine
