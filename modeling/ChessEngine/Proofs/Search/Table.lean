import ChessEngine.Search.Runs
import Mathlib.Data.List.Induction

/-!
# What a table remembers

Keys that share a slot displace each other, and clearing forgets everything.
Said about the calls alone: a store stands (`TableCall.Standing`) as long as the
table was not cleared and nothing was stored into its slot, a look-up answers
exactly the stores that stand under its own key, and the counters count the
calls since the table was last cleared (`TableCall.tally`).

`Table.Remembers` ties a table to these calls, the latest first: `Remembers.call`
is what one call preserves, and `remembers_run` has it for a whole run.
-/

namespace ChessEngine

namespace TableCall

/-! ## Histories of calls -/

/-- The calls since the table was last cleared, the latest first. -/
def recent (calls : List TableCall) : List TableCall := calls.reverse.takeWhile (· ≠ .clear)

/-- What the latest store into a slot left there; the calls are given the latest first. -/
def stored (size slot : Nat) : List TableCall → Option TableEntry
  | [] => none
  | .insert key m :: earlier =>
    if key.toNat % size = slot then some ⟨key, m⟩ else stored size slot earlier
  | .probe _ :: earlier => stored size slot earlier
  | .clear :: earlier => stored size slot earlier

/-- The move that a look-up of `key` has to answer after the given calls, the latest first. -/
def answer (size : Nat) (key : UInt64) (earlier : List TableCall) : Option Move :=
  match stored size (key.toNat % size) earlier with
  | some entry => if entry.key = key then some entry.move else none
  | none => none

/-- The call is a look-up. -/
def isProbe : TableCall → Bool
  | .probe _ => true
  | _ => false

/-- The call is a store. -/
def isInsert : TableCall → Bool
  | .insert _ _ => true
  | _ => false

/-- The latest call is a look-up that is answered with a move. -/
def hits (size : Nat) : List TableCall → Bool
  | .probe key :: earlier => (answer size key earlier).isSome
  | _ => false

/-- The latest call is a store that replaces an entry of another key. -/
def displaces (size : Nat) : List TableCall → Bool
  | .insert key _ :: earlier => (stored size (key.toNat % size) earlier).any (·.key != key)
  | _ => false

/-- What a table has to have counted after the given calls, the latest first. -/
def tally (size : Nat) (earlier : List TableCall) : TableStats where
  probes := earlier.countP isProbe
  hits := earlier.tails.countP (hits size)
  stores := earlier.countP isInsert
  overwrites := earlier.tails.countP (displaces size)

/-- `m` was stored under `key`, and since then the table was not cleared and nothing was stored into
the same slot. -/
def Standing (size : Nat) (key : UInt64) (m : Move) (calls : List TableCall) : Prop :=
  ∃ before after, calls = before ++ .insert key m :: after ∧ .clear ∉ after ∧
    ∀ key' m', .insert key' m' ∈ after → key'.toNat % size ≠ key.toNat % size

variable {size slot : Nat} {key : UInt64} {m : Move} {calls earlier : List TableCall}
  {last : TableCall}

theorem recent_append_singleton :
    recent (calls ++ [last]) = if last = .clear then [] else last :: recent calls := by
  rw [recent, List.reverse_append, List.reverse_singleton, List.singleton_append,
    List.takeWhile_cons]
  by_cases clears : last = .clear
  · simp [clears]
  · simp [clears, recent]

/-- A store stands after one more call if it is that call, or stood before and was left alone. -/
theorem standing_append_singleton : Standing size key m (calls ++ [last]) ↔
    last = .insert key m ∨ Standing size key m calls ∧ last ≠ .clear ∧
      ∀ key' m', last = .insert key' m' → key'.toNat % size ≠ key.toNat % size := by
  constructor
  · rintro ⟨before, after, split, uncleared, apart⟩
    -- the last call is the store itself, or the last of the calls after it
    cases after using List.reverseRecOn with
    | nil => exact .inl (List.singleton_inj.1 (List.append_inj' split rfl).2)
    | append_singleton after other =>
      have shape : calls ++ [last] = (before ++ .insert key m :: after) ++ [other] := by
        simpa using split
      obtain ⟨rfl, ⟨⟩⟩ := List.append_inj' shape rfl
      refine .inr ⟨⟨before, after, rfl, ?_, ?_⟩, ?_, ?_⟩
      · exact fun member => uncleared (List.mem_append_left _ member)
      · exact fun key' m' member => apart key' m' (List.mem_append_left _ member)
      · rintro rfl
        exact uncleared (List.mem_append_right _ List.mem_cons_self)
      · rintro key' m' rfl
        exact apart key' m' (List.mem_append_right _ List.mem_cons_self)
  · rintro (rfl | ⟨⟨before, after, rfl, uncleared, apart⟩, keeps, leaves⟩)
    · exact ⟨calls, [], rfl, List.not_mem_nil, fun _ _ member => absurd member List.not_mem_nil⟩
    · refine ⟨before, after ++ [last], by simp, ?_, fun key' m' member => ?_⟩
      · rw [List.mem_append, List.mem_singleton]
        exact fun clears => clears.elim uncleared fun same => keeps same.symm
      · rcases List.mem_append.1 member with inside | atEnd
        · exact apart key' m' inside
        · exact leaves key' m' (List.mem_singleton.1 atEnd).symm

/-- The slot of a key holds the store that stands under it, if there is one. -/
theorem stored_recent_iff : stored size (key.toNat % size) (recent calls) = some ⟨key, m⟩ ↔
    Standing size key m calls := by
  induction calls using List.reverseRecOn with
  | nil =>
    refine iff_of_false nofun ?_
    rintro ⟨before, after, split, -⟩
    simp at split
  | append_singleton calls last ih =>
    rw [recent_append_singleton, standing_append_singleton, ← ih]
    cases last with
    | clear => simp [stored]
    | probe other => simp [stored]
    | insert other m' =>
      by_cases same : other.toNat % size = key.toNat % size
      · simp [stored, same]
      · have apart : ¬ (other = key ∧ m' = m) := fun both => same (by rw [both.1])
        simp [stored, same, apart]

theorem answer_recent_iff : answer size key (recent calls) = some m ↔
    Standing size key m calls := by
  rw [← stored_recent_iff, answer]
  cases stored size (key.toNat % size) (recent calls) with
  | none => simp
  | some entry =>
    obtain ⟨key', m'⟩ := entry
    by_cases same : key' = key
    · simp [same]
    · simp [same]

end TableCall

namespace Table

open TableCall

variable {t : Table} {size : Nat} {key : UInt64} {earlier : List TableCall}

/-! ## Tables and their histories -/

/-- The table is what the calls since it was last cleared make it, the latest call first. -/
structure Remembers (t : Table) (size : Nat) (earlier : List TableCall) : Prop where
  size_eq : t.slots.size = size
  slots : ∀ i < size, t.slots[i]? = some (stored size i earlier)
  stats : t.stats = tally size earlier

theorem Remembers.ofSize (size : Nat) : (Table.ofSize size).Remembers (max size 1) [] where
  size_eq := Array.size_replicate
  slots _ inside := (Array.getElem?_replicate ..).trans (if_pos inside)
  stats := rfl

theorem Remembers.holder_eq (remembers : t.Remembers size earlier) (key : UInt64)
    (inside : (t.slot key).val < t.slots.size) :
    t.slots[(t.slot key).val] = stored size (key.toNat % size) earlier := by
  obtain ⟨rfl, slots, -⟩ := remembers
  exact (Array.getElem?_eq_some_iff.1 (slots _ inside)).choose_spec

theorem Remembers.find?_eq (remembers : t.Remembers size earlier) (key : UInt64) :
    t.find? key = answer size key earlier := by
  have holder : t.slots[t.slot key] = _ := remembers.holder_eq key (t.slot key).isLt
  rw [find?, holder]
  rfl

theorem Remembers.evicts_eq (remembers : t.Remembers size earlier) (key : UInt64) (m : Move) :
    t.evicts key = displaces size (.insert key m :: earlier) := by
  have holder : t.slots[t.slot key] = _ := remembers.holder_eq key (t.slot key).isLt
  rw [evicts, holder, displaces]
  cases stored size (key.toNat % size) earlier with
  | none => rfl
  | some entry => rfl

/-- One call, unless it clears the table, joins the history. -/
theorem Remembers.call {last : TableCall} (remembers : t.Remembers size earlier)
    (keeps : last ≠ .clear) : (t.call last).Remembers size (last :: earlier) := by
  cases last with
  | clear => exact absurd rfl keeps
  | probe key =>
    refine ⟨remembers.size_eq, remembers.slots, ?_⟩
    show { t.stats with
      probes := t.stats.probes + 1
      hits := t.stats.hits + (t.find? key).isSome.toNat } = tally size (.probe key :: earlier)
    rw [remembers.stats, remembers.find?_eq]
    cases found : (answer size key earlier).isSome <;>
      simp [tally, List.countP_cons, isProbe, isInsert, hits, displaces, found]
  | insert key m =>
    refine ⟨(Array.size_set (t.slot key).isLt).trans remembers.size_eq, fun i inside => ?_, ?_⟩
    · have place : (t.slot key).val = key.toNat % size :=
        congrArg (key.toNat % ·) remembers.size_eq
      show (t.slots.set (t.slot key) (some ⟨key, m⟩) (t.slot key).isLt)[i]? = _
      rw [Array.getElem?_set, place, stored]
      split
      · rfl
      · exact remembers.slots i inside
    · show { t.stats with
        stores := t.stats.stores + 1
        overwrites := t.stats.overwrites + (t.evicts key).toNat } =
          tally size (.insert key m :: earlier)
      rw [remembers.stats, remembers.evicts_eq key m]
      cases replaced : displaces size (.insert key m :: earlier) <;>
        simp [tally, List.countP_cons, isProbe, isInsert, hits, replaced]

theorem remembers_run (size : Nat) (calls : List TableCall) :
    ((ofSize size).run calls).Remembers (max size 1) (recent calls) := by
  induction calls using List.reverseRecOn with
  | nil => exact Remembers.ofSize size
  | append_singleton calls last ih =>
    have step : (ofSize size).run (calls ++ [last]) = ((ofSize size).run calls).call last := by
      simp [run]
    rw [step, recent_append_singleton]
    by_cases clears : last = .clear
    · have cleared : ((ofSize size).run calls).call .clear = ofSize (max size 1) :=
        congrArg ofSize ih.size_eq
      have fresh := Remembers.ofSize (max size 1)
      rw [Nat.max_eq_left (Nat.le_max_right size 1)] at fresh
      rwa [if_pos clears, clears, cleared]
    · rw [if_neg clears]
      exact ih.call clears

/-- After any sequence of calls on a new table of any size, a look-up answers with a move exactly if
a store of this move under this very key still stands; the counters are those of the calls since the
table was last cleared, and the size is what it was. -/
theorem answers_of_run (size : Nat) (calls : List TableCall) :
    (∀ key m, (((ofSize size).run calls).probe key).1 = some m ↔
      Standing (max size 1) key m calls) ∧
    (∀ key, (((ofSize size).run calls).probe key).1 = answer (max size 1) key (recent calls)) ∧
    ((ofSize size).run calls).stats = tally (max size 1) (recent calls) ∧
    ((ofSize size).run calls).size = max size 1 := by
  have remembers := remembers_run size calls
  have answered := remembers.find?_eq
  refine ⟨fun key m => ?_, answered, remembers.stats, remembers.size_eq⟩
  rw [← answer_recent_iff, ← answered key]
  rfl

/-- Two keys share the only slot. -/
example :
    (((ofSize 1).run [.insert 1 (.plain 12 28), .insert 2 (.plain 6 21)]).probe 1).1 = none := by
  decide +kernel

end Table

end ChessEngine
