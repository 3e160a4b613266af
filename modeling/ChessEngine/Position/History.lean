import ChessEngine.Castling
import ChessEngine.Fault

/-!
# The history of a game

What has to be known to take a move back, and the bounded stack of it.  Nothing
about the stack depends on what its records hold.  With `Undo` records it is
also the log in which repetitions are looked up, because each of them holds the
hash of the position before its move.
-/

namespace ChessEngine

/-- A counter of half-moves or moves, at most 65535. -/
abbrev Counter := UInt16

namespace Counter

/-- One more, but never past the largest counter. -/
def next (n : Counter) : Counter := if n = 65535 then n else n + 1

/-- One less, but never below zero. -/
def previous (n : Counter) : Counter := if n = 0 then n else n - 1

end Counter

/-- What a move changes and its take-back restores. -/
structure Undo where
  move : Move
  enPassant : Option Square
  rights : CastlingRights
  fifty : Counter
  /-- The hash of the position before the move. -/
  hash : UInt64
deriving DecidableEq

/-- The records of the moves made, the latest first. -/
structure History (α : Type) where
  entries : List α
deriving DecidableEq

namespace History

variable {α : Type}

/-- No move made. -/
def empty : History α := ⟨[]⟩

/-- The number of moves made. -/
def size (h : History α) : Nat := h.entries.length

/-- Whether no move was made. -/
def isEmpty (h : History α) : Bool := h.entries.isEmpty

/-- Records a move, unless the history is full. -/
def push (h : History α) (record : α) : Except Fault (History α) :=
  if h.size < historyCapacity then .ok ⟨record :: h.entries⟩ else .error .historyFull

/-- Records several moves with the same record. -/
def pushMany (h : History α) (record : α) : Nat → Except Fault (History α)
  | 0 => return h
  | n + 1 => do (← h.push record).pushMany record n

/-- Splits off the latest record. -/
def pop? (h : History α) : Option (α × History α) :=
  match h.entries with
  | [] => none
  | record :: rest => some (record, ⟨rest⟩)

/-- The records, the earliest first. -/
def toList (h : History α) : List α := h.entries.reverse

/-- Whether `hash` was the hash before one of the last `window` moves, the very latest left out:
before that one the other side was to move. -/
def recalls (h : History Undo) (hash : UInt64) (window : Nat) : Bool :=
  (h.entries.tail.take (window - 1)).any (·.hash == hash)

end History

end ChessEngine
