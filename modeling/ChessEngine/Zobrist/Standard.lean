import ChessEngine.Zobrist.Keys
import ChessEngine.Zobrist.Stream

/-!
# The engine's own keys

The keys are drawn in order from one stream with a fixed seed, so hashes are the
same in every run: 768 piece keys by color, kind and square, the side key, 16
castling keys and 8 en-passant file keys.  A key takes two words of the stream,
the low one first.
-/

namespace ChessEngine

namespace StandardKeys

/-- The seed of the stream. -/
def seed : UInt64 := 0x6B65737472656C21

/-- The blocks of the stream that the keys are drawn from. -/
def blocks : Vector Stream.Block 100 :=
  let key := Stream.keyOfSeed seed
  Vector.ofFn fun i => Stream.block key (UInt64.ofNat i.val)

/-- A word of the stream. -/
def word (i : Fin 1600) : UInt64 :=
  have hb : i.val / 16 < 100 := by omega
  have hw : i.val % 16 < 16 := by omega
  blocks[i.val / 16][i.val % 16].toUInt64

/-- All keys, in the order in which they are drawn. -/
def keys : Vector UInt64 793 :=
  Vector.ofFn fun i => word ⟨2 * i.val, by omega⟩ ||| (word ⟨2 * i.val + 1, by omega⟩ <<< 32)

/-- The place of a piece key among all keys. -/
theorem piece_lt (p : Piece) (s : Square) : 64 * p.index + s.val < 793 := by
  have := p.index_lt
  omega

end StandardKeys

/-- The keys of the engine. -/
instance standardKeys : ZobristKeys where
  piece p s := StandardKeys.keys.get ⟨64 * p.index + s.val, StandardKeys.piece_lt p s⟩
  side := StandardKeys.keys[768]
  castling r := StandardKeys.keys.get ⟨769 + r.bits, by have := r.bits_lt; omega⟩
  enPassantFile f := StandardKeys.keys[785 + f.val]

end ChessEngine
