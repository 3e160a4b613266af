import ChessEngine.Fault

/-!
# The table of best moves

A table of fixed size that remembers one best move per slot.  A position's key
selects the slot; the full key is kept with the move, so a look-up never answers
with a move of another position.  A store always replaces what the slot held.
-/

namespace ChessEngine

/-- What a slot holds. -/
structure TableEntry where
  key : UInt64
  move : Move
deriving DecidableEq

/-- What a table counts. -/
structure TableStats where
  probes : Nat
  hits : Nat
  stores : Nat
  /-- Stores that replaced an entry of another key. -/
  overwrites : Nat
deriving DecidableEq

/-- Nothing counted yet. -/
def TableStats.zero : TableStats := ⟨0, 0, 0, 0⟩

/-- A table of best moves. -/
structure Table where
  slots : Array (Option TableEntry)
  stats : TableStats
  nonempty : 0 < slots.size

namespace Table

/-- The number of bytes one slot is reckoned to take. -/
def slotBytes : Nat := 24

/-- An empty table with `size` slots, or with one if `size` is zero. -/
def ofSize (size : Nat) : Table where
  slots := Array.replicate (max size 1) none
  stats := .zero
  nonempty := by simp only [Array.size_replicate]; omega

/-- The number of slots that fit into a number of bytes, at least one. -/
def slotsIn (bytes : Nat) : Nat := max (bytes / slotBytes) 1

/-- An empty table that fits into a number of bytes. -/
def ofBytes (bytes : Nat) : Table := ofSize (slotsIn bytes)

/-- The largest number of bytes that one table can take. -/
def byteLimit : Nat := 9223372036854775807

/-- An empty table that fits into a number of bytes, if its slots can be addressed at all. -/
def allocate (bytes : Nat) : Except Fault Table :=
  if slotsIn bytes * slotBytes ≤ byteLimit then .ok (.ofBytes bytes) else .error .tableTooLarge

/-- The number of bytes in a number of mebibytes, at least one mebibyte. -/
def mebibytes (n : Nat) : Nat := max n 1 * 1048576

/-- The number of slots. -/
def size (t : Table) : Nat := t.slots.size

/-- The slot of a key. -/
def slot (t : Table) (key : UInt64) : Fin t.slots.size :=
  ⟨key.toNat % t.slots.size, Nat.mod_lt _ t.nonempty⟩

/-- Forgets all moves and counts. -/
def clear (t : Table) : Table := ofSize t.size

/-- The move stored under a key. -/
def find? (t : Table) (key : UInt64) : Option Move :=
  match t.slots[t.slot key] with
  | some entry => if entry.key = key then some entry.move else none
  | none => none

/-- Looks a key up, and counts that. -/
def probe (t : Table) (key : UInt64) : Option Move × Table :=
  let found := t.find? key
  let stats := { t.stats with
    probes := t.stats.probes + 1
    hits := t.stats.hits + found.isSome.toNat }
  (found, { t with stats })

/-- Whether a store under `key` replaces an entry of another key. -/
def evicts (t : Table) (key : UInt64) : Bool :=
  match t.slots[t.slot key] with
  | some entry => entry.key != key
  | none => false

/-- Stores a move under a key, and counts that. -/
def insert (t : Table) (key : UInt64) (m : Move) : Table :=
  let stats := { t.stats with
    stores := t.stats.stores + 1
    overwrites := t.stats.overwrites + (t.evicts key).toNat }
  let i := t.slot key
  { slots := t.slots.set i (some ⟨key, m⟩)
    stats
    nonempty := by simpa only [Array.size_set] using t.nonempty }

end Table

end ChessEngine
